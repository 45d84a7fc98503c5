import Rowwise.Proofs.Files.Below
import Rowwise.Proofs.Session.Stores

/-! What keeps a loader in its directory. The name that is asked for decides it alone: nothing
checks it, so it may start at a slash, which replaces the directory, or climb above it. -/
namespace Rowwise

namespace Loader

def fileName (l : Loader) (n : String) : String := s!"{n}.{l.extension}"

/-- The file of the name is below the directory, wherever that is. -/
def Confined (l : Loader) (n : String) : Prop := Path.Descends (l.fileName n)

variable {l : Loader} {n : String}

theorem toList_fileName (l : Loader) (n : String) :
    (l.fileName n).toList = n.toList ++ '.' :: l.extension.toList := by
  simp [fileName, toString]

theorem isAbsolute_fileName (l : Loader) (n : String) :
    Path.isAbsolute (l.fileName n) = Path.isAbsolute n := by
  rw [Path.isAbsolute, toList_fileName, Path.isAbsolute]
  cases n.toList <;> rfl

theorem pathFor_eq (l : Loader) (n : String) : l.pathFor n =
    if Path.isAbsolute n then l.fileName n
    else l.basePath ++ Path.separator l.basePath ++ l.fileName n := by
  have joined : l.pathFor n = Path.join l.basePath (l.fileName n) := rfl
  rw [joined, ← isAbsolute_fileName l n]
  cases absolute : Path.isAbsolute (l.fileName n) with
  | true => exact Path.join_of_absolute absolute l.basePath
  | false => exact Path.join_of_relative absolute l.basePath

/-- A name without slashes is confined, if settings with the extension are accepted. -/
theorem confined_of_bare {s : Settings} (accepted : s.validate = .ok ())
    (same : s.loader.extension = l.extension) (bare : '/' ∉ n.toList) : l.Confined n := by
  obtain ⟨c, rest, extension, dotless, slashless⟩ : ∃ c rest, l.extension.toList = c :: rest ∧
      c ≠ '.' ∧ '/' ∉ c :: rest := by
    simp only [Settings.validate, same] at accepted
    split at accepted
    · cases accepted
    rename_i usable
    cases whole : l.extension.toList with
    | nil => simp [whole] at usable
    | cons c rest =>
      simp only [whole, List.isEmpty_cons, List.head?_cons, Bool.false_or, Bool.or_eq_true,
        beq_iff_eq, Option.some.injEq, List.any_eq_true, not_or] at usable
      refine ⟨c, rest, rfl, usable.1, fun slash => usable.2 ⟨'/', slash, ?_⟩⟩
      decide
  have whole := toList_fileName l n
  rw [extension] at whole
  have single : '/' ∉ (l.fileName n).toList := by
    rw [whole, List.mem_append, List.mem_cons]
    rintro (inside | slash | inside)
    · exact bare inside
    · cases slash
    · exact slashless inside
  have alone : Path.components (l.fileName n) = [l.fileName n] := by
    rw [Path.components, Path.split_of_not_mem single, List.map_singleton, String.ofList_toList]
  refine ⟨?_, 0, ?_⟩
  · rw [isAbsolute_fileName, Path.isAbsolute]
    cases first : n.toList with
    | nil => rfl
    | cons d chars =>
      rw [first] at bare
      simp only [List.mem_cons, not_or] at bare
      simpa using Ne.symm bare.1
  · have proper {s : String} (chars : s.toList = [] ∨ s.toList = ['.'] ∨ s.toList = ['.', '.']) :
        l.fileName n ≠ s := by
      rintro rfl
      rw [whole] at chars
      cases first : n.toList with
      | nil => simp [first, dotless] at chars
      | cons d others => simp [first, List.append_eq_singleton_iff] at chars
    rw [alone, Path.depth?, if_neg, if_neg (proper (by decide)), Path.depth?]
    exact not_or.mpr ⟨proper (by decide), proper (by decide)⟩

/-- Nothing is looked at but the directory, the way to it, and what is below it. -/
theorem resolve_congr (confined : l.Confined n) {files files' : FileTree}
    (same : ∀ place, place ∈ Place.through l.basePath ∨ (Place.ofPath l.basePath).Within place →
      files.node place = files'.node place) : l.resolve files n = l.resolve files' n := by
  have read : files.read (l.pathFor n) = files'.read (l.pathFor n) := by
    apply FileTree.read_congr
    intro place member
    exact same place (Place.within_of_mem_through confined member)
  simp only [resolve, read]

end Loader

namespace Session

/-- A type that a loader has was read, at some moment, at the path of its name. -/
theorem loader_read {fuel : Nat} {files : FileTree} {steps : List Step} {p : Nat} {l : Loader}
    (there : (run fuel steps { files }).2.spaces[p]? = some (.loader l)) {n : String}
    {t : LoadedType} (found : l.find? n = some t) :
    ∃ m ∈ log fuel steps { files }, ∃ bytes c,
      m.before.files.node (.ofPath (l.pathFor n)) = some (.file bytes) ∧
        Class.decode bytes = .ok c ∧ t = .ofClass c bytes l.space := by
  obtain ⟨earlier, m, here, defines, first⟩ := (recorded_run fuel files steps).defined there found
  obtain ⟨bytes, c, read, decoded, -, -, rfl⟩ := loader_defines there here defines first
  exact ⟨m, here.subset (by simp), bytes, c, FileTree.node_of_read read, decoded, rfl⟩

end Session

open Session in
/-- A loader leaves its directory for nothing but the name that it is asked for. The file of a name
is the name with the extension behind the directory, unless the name starts at a slash. It is below
the directory, whatever that is, exactly if the name does not start at a slash and never climbs
above the directory. Names without a slash are of that sort, with every extension that settings
accept. A name of that sort is resolved alike whatever there is elsewhere, and every type that a
loader has under it was read below the directory at some moment of the session. -/
theorem resolution_confined_by_name (l : Loader) (n : String) :
    (l.pathFor n = if Path.isAbsolute n then l.fileName n
      else l.basePath ++ Path.separator l.basePath ++ l.fileName n) ∧
    (l.Confined n ↔ ∀ base, (Place.ofPath base).Below
      (Place.ofPath ({ l with basePath := base }.pathFor n))) ∧
    (∀ s : Settings, s.validate = .ok () → s.loader.extension = l.extension → '/' ∉ n.toList →
      l.Confined n) ∧
    (l.Confined n → ∀ files files' : FileTree,
      (∀ place, place ∈ Place.through l.basePath ∨ (Place.ofPath l.basePath).Within place →
        files.node place = files'.node place) → l.resolve files n = l.resolve files' n) ∧
    ∀ (fuel : Nat) (files : FileTree) (steps : List Step) (p : Nat) (t : LoadedType),
      (run fuel steps { files }).2.spaces[p]? = some (.loader l) → l.find? n = some t →
      ∃ m ∈ log fuel steps { files }, ∃ bytes c,
        m.before.files.node (.ofPath (l.pathFor n)) = some (.file bytes) ∧
        Class.decode bytes = .ok c ∧ t = .ofClass c bytes l.space ∧
        (l.Confined n → (Place.ofPath l.basePath).Below (.ofPath (l.pathFor n))) := by
  have below := Place.below_join_iff (l.fileName n)
  refine ⟨l.pathFor_eq n, below.symm, ?_, ?_, ?_⟩
  · intro s accepted same bare
    exact Loader.confined_of_bare accepted same bare
  · intro confined files files' same
    exact Loader.resolve_congr confined same
  · intro fuel files steps p t there found
    obtain ⟨m, member, bytes, c, file, decoded, made⟩ := loader_read there found
    exact ⟨m, member, bytes, c, file, decoded, made, fun confined => below.mpr confined l.basePath⟩

open Session in
theorem stub_read_below_directory :
    stubLoaded.Confined "Stub" ∧
      ∃ m ∈ log 0 [.openLoader (.definer "udfs" (.bytecode true)) "main",
          .resolve "main" "Stub" none] { files := stubFiles },
        ∃ bytes c, m.before.files.node ["udfs", "Stub.udfc"] = some (.file bytes) ∧
          Class.decode bytes = .ok c ∧ stubType = .ofClass c bytes ⟨1⟩ ∧
          (Place.ofPath "udfs").Below ["udfs", "Stub.udfc"] := by
  have opened : (moment 0 (.openLoader (.definer "udfs" (.bytecode true)) "main")
      { files := stubFiles }).after = single stubFiles stubLoader := rfl
  have there : (run 0 [.openLoader (.definer "udfs" (.bytecode true)) "main",
      .resolve "main" "Stub" none] { files := stubFiles }).2.spaces[0]? =
        some (.loader stubLoaded) := by
    simp only [run_cons, opened, congrArg Moment.after (moment_stub resolve_stub)]
    rfl
  obtain ⟨-, -, bare, -, reads⟩ := resolution_confined_by_name stubLoaded "Stub"
  have confined := bare {} rfl rfl (by decide)
  have file : Place.ofPath (stubLoaded.pathFor "Stub") = ["udfs", "Stub.udfc"] := by decide
  obtain ⟨m, member, bytes, c, there, decoded, made, below⟩ := reads _ _ _ _ _ there rfl
  rw [file] at there below
  exact ⟨confined, m, member, bytes, c, there, decoded, made, below confined⟩

/-- A class under a name that starts at a slash, and the only file that there is. -/
def vaultKey : Class where
  name := "/vault/Key"

def vaultFiles : FileTree := FileTree.empty.write "/vault/Key.udfc" vaultKey.encode

open Session in
theorem key_read_from_vault :
    (¬ ∀ (l : Loader) (n : String), l.basePath.toList <+: (l.pathFor n).toList) ∧
    (¬ ∀ (l : Loader) (n : String), (Place.ofPath l.basePath).Below (.ofPath (l.pathFor n))) ∧
    vaultFiles.node (.ofPath stubLoader.basePath) = none ∧
    (stubLoader.resolve vaultFiles "/vault/Key").1 =
      .ok (.ofClass vaultKey vaultKey.encode ⟨1⟩) := by
  have path : stubLoader.pathFor "/vault/Key" = "/vault/Key.udfc" := by decide
  refine ⟨fun leads => ?_, fun below => ?_, by decide, ?_⟩
  · exact absurd (leads stubLoader "/vault/Key") (by rw [path]; decide)
  · obtain ⟨⟨names, -, there⟩, -⟩ := below stubLoader "../vault/Key"
    have climbed : Place.ofPath (stubLoader.pathFor "../vault/Key") = ["vault", "Key.udfc"] := by
      decide
    have base : Place.ofPath stubLoader.basePath = ["udfs"] := by decide
    rw [climbed, base] at there
    simp at there
  · have usable : ¬ (("/vault/Key.udfc".contains '\x00') = true ∨
        FileTree.maxPath < "/vault/Key.udfc".utf8ByteSize) := by
      simp only [not_or]
      exact ⟨by simp, by decide⟩
    have read : vaultFiles.read (stubLoader.pathFor "/vault/Key") = .ok vaultKey.encode := by
      rw [path, FileTree.read, if_neg usable]
      rfl
    have accepted : Class.decode vaultKey.encode = .ok vaultKey :=
      Class.decode_eq_ok_iff.mpr ⟨rfl, ⟨by decide, by decide⟩, rfl⟩
    have missing : stubLoader.find? "/vault/Key" = none := rfl
    have made : stubLoader.definer.define "/vault/Key" vaultKey.encode stubLoader.space =
        .ok (.ofClass vaultKey vaultKey.encode ⟨1⟩) := by
      change Definer.defineClass true "/vault/Key" vaultKey.encode ⟨1⟩ = _
      rw [Definer.defineClass, accepted]
      rfl
    simp only [Loader.resolve, missing, read, made]

end Rowwise
