import Rowwise.Files.Tree

/-! Where paths lead. A path that is joined to a base leads where its own components lead from the
place of the base. Whatever the base is, that is below it exactly if the path is relative and its
components never climb above the place that they start from. -/
namespace Rowwise

namespace Path

theorem split_ne_nil (xs : List Char) : split xs ≠ [] := by
  cases xs with
  | nil => simp [split]
  | cons c rest =>
    rw [split]
    split
    · simp
    · split <;> simp

theorem split_slash (xs ys : List Char) : split (xs ++ '/' :: ys) = split xs ++ split ys := by
  induction xs with
  | nil => simp [split]
  | cons c rest ih =>
    rw [List.cons_append, split, ih, split]
    by_cases slash : c = '/'
    · simp [slash]
    · obtain ⟨first, others, whole⟩ := List.exists_cons_of_ne_nil (split_ne_nil rest)
      simp [slash, whole]

theorem split_of_not_mem {xs : List Char} (single : '/' ∉ xs) : split xs = [xs] := by
  induction xs with
  | nil => rfl
  | cons c rest ih =>
    simp only [List.mem_cons, not_or] at single
    rw [split, if_neg (Ne.symm single.1), ih single.2]

/-- What stands between slashes has no slash, and is no longer than the whole. -/
theorem of_mem_split {xs name : List Char} (member : name ∈ split xs) :
    '/' ∉ name ∧ name.length ≤ xs.length := by
  induction xs generalizing name with
  | nil => simp_all [split]
  | cons c rest ih =>
    rw [split] at member
    by_cases slash : c = '/'
    · rw [if_pos slash, List.mem_cons] at member
      rcases member with rfl | member
      · simp
      · exact ⟨(ih member).1, Nat.le_succ_of_le (ih member).2⟩
    · obtain ⟨first, others, whole⟩ := List.exists_cons_of_ne_nil (split_ne_nil rest)
      rw [whole] at ih member
      rw [if_neg slash] at member
      rcases List.mem_cons.mp member with rfl | member
      · have before := ih (.head _)
        simp only [List.mem_cons, not_or, List.length_cons]
        exact ⟨⟨Ne.symm slash, before.1⟩, Nat.succ_le_succ before.2⟩
      · have behind := ih (.tail _ member)
        exact ⟨behind.1, Nat.le_succ_of_le behind.2⟩

theorem components_slash (base path : String) :
    components (base ++ "/" ++ path) = components base ++ components path := by
  simp [components, split_slash]

def separator (base : String) : String :=
  if base.isEmpty || base.toList.getLast? == some '/' then "" else "/"

theorem join_of_relative {path : String} (relative : isAbsolute path = false) (base : String) :
    join base path = base ++ separator base ++ path := by
  unfold join separator
  by_cases empty : base = ""
  · simp [empty]
  · simp [relative, empty]
    split <;> simp

theorem join_of_absolute {path : String} (absolute : isAbsolute path = true) (base : String) :
    join base path = path := by
  simp [join, absolute]

/-- How deep components lead below the place that they start from, if they never climb above it. -/
def depth? : Nat → List String → Option Nat
  | depth, [] => some depth
  | depth, name :: rest =>
    if name = "" ∨ name = "." then depth? depth rest
    else if name = ".." then
      if depth = 0 then none else depth? (depth - 1) rest
    else depth? (depth + 1) rest

end Path

namespace Place

def IsName (name : String) : Prop := name ≠ ".." ∧ name ≠ "/"

def Within (base place : Place) : Prop :=
  ∃ names : List String, (∀ n ∈ names, IsName n) ∧ place = base ++ names

def Below (base place : Place) : Prop := base.Within place ∧ place ≠ base

def through (path : String) : List Place :=
  start path :: (start path).steps (Path.components path)

variable {base place : Place} {names components : List String} {name : String}

theorem steps_append (place : Place) (xs ys : List String) :
    place.steps (xs ++ ys) = place.steps xs ++ (xs.foldl step place).steps ys := by
  induction xs generalizing place with
  | nil => rfl
  | cons name rest ih => simp only [List.cons_append, steps, List.foldl_cons, ih]

theorem foldl_mem_steps (place : Place) (components : List String) :
    components.foldl step place ∈ place :: place.steps components := by
  induction components generalizing place with
  | nil => exact .head _
  | cons name rest ih => exact .tail _ (ih (place.step name))

theorem ofPath_mem_through (path : String) : ofPath path ∈ through path := foldl_mem_steps ..

theorem start_of_prefix {path : String} (some_base : path ≠ "") (rest : String) :
    start (path ++ rest) = start path := by
  have chars : path.toList ≠ [] := by simpa using some_base
  obtain ⟨c, others, whole⟩ := List.exists_cons_of_ne_nil chars
  simp [start, Path.isAbsolute, whole]

/-- A path that is joined to a base goes through the base first. -/
theorem exists_components_join {path : String} (relative : Path.isAbsolute path = false)
    (base : String) : ∃ first,
      Path.components (Path.join base path) = first ++ Path.components path ∧
      start (Path.join base path) = start base ∧ first.foldl step (start base) = ofPath base ∧
      ∀ place ∈ (start base).steps first, place ∈ through base := by
  rw [Path.join_of_relative relative]
  by_cases empty : base = ""
  · subst empty
    have nowhere : start path = start "" := by
      rw [start, if_neg (by simp [relative])]
      rfl
    have same : "" ++ Path.separator "" ++ path = path := by simp [Path.separator]
    rw [same]
    exact ⟨[], rfl, nowhere, rfl, by simp [steps]⟩
  have starts : start (base ++ Path.separator base ++ path) = start base := by
    rw [String.append_assoc, start_of_prefix empty]
  by_cases closed : base.toList.getLast? = some '/'
  · obtain ⟨chars, whole⟩ := List.getLast?_eq_some_iff.mp closed
    obtain ⟨b, rfl⟩ : ∃ b, base = b ++ "/" :=
      ⟨String.ofList chars, by rw [← String.toList_inj]; simp [whole]⟩
    have nothing : Path.components "" = [""] := rfl
    have split : Path.components (b ++ "/") = Path.components b ++ [""] := by
      rw [← nothing, ← Path.components_slash, String.append_empty]
    have same : b ++ "/" ++ Path.separator (b ++ "/") ++ path = b ++ "/" ++ path := by
      simp [Path.separator]
    refine ⟨Path.components b, by rw [same, Path.components_slash], starts, ?_, ?_⟩
    · rw [ofPath, split, List.foldl_append]
      rfl
    · intro place member
      rw [through, split, steps_append]
      exact .tail _ (List.mem_append_left _ member)
  · have parted : Path.separator base = "/" := by simp [Path.separator, empty, closed]
    refine ⟨Path.components base, ?_, starts, rfl, fun _ member => .tail _ member⟩
    rw [parted, Path.components_slash]

/-- A relative path starts where the base ends. -/
theorem ofPath_join {path : String} (relative : Path.isAbsolute path = false) (base : String) :
    ofPath (Path.join base path) = (Path.components path).foldl step (ofPath base) := by
  obtain ⟨first, whole, starts, ends, -⟩ := exists_components_join relative base
  rw [ofPath, whole, starts, List.foldl_append, ends]

theorem through_join {path : String} (relative : Path.isAbsolute path = false) {base : String}
    (member : place ∈ through (Path.join base path)) :
    place ∈ through base ∨ place ∈ (ofPath base).steps (Path.components path) := by
  obtain ⟨first, whole, starts, ends, passes⟩ := exists_components_join relative base
  rw [through, whole, starts, steps_append, ends, ← List.cons_append, List.mem_append] at member
  rcases member with member | behind
  · rcases List.mem_cons.mp member with rfl | member
    · exact .inl (.head _)
    · exact .inl (passes place member)
  · exact .inr behind

/-! Components that never climb above the base. -/

theorem up_concat (place : Place) (plain : IsName name) : up (place ++ [name]) = place := by
  unfold up
  rw [List.getLast?_concat]
  split
  · rename_i missing
    cases missing
  · rename_i climbs
    cases climbs
    exact absurd rfl plain.1
  · rename_i starts
    cases starts
    exact absurd rfl plain.2
  · exact List.dropLast_concat

/-- What one component does below a base: it climbs above it, or adds names or removes them. -/
theorem step_cases (base : Place) (plain : ∀ n ∈ names, IsName n) (single : '/' ∉ name.toList)
    (rest : List String) :
    (names = [] ∧ name = ".." ∧ Path.depth? names.length (name :: rest) = none) ∨
      ∃ names', (∀ n ∈ names', IsName n) ∧ (base ++ names).step name = base ++ names' ∧
        Path.depth? names.length (name :: rest) = Path.depth? names'.length rest := by
  rw [Path.depth?, step]
  by_cases skipped : name = "" ∨ name = "."
  · rw [if_pos skipped, if_pos skipped]
    exact .inr ⟨names, plain, rfl, rfl⟩
  rw [if_neg skipped, if_neg skipped]
  by_cases climbs : name = ".."
  · rw [if_pos climbs, if_pos climbs]
    rcases List.eq_nil_or_concat names with rfl | ⟨names', last, rfl⟩
    · exact .inl ⟨rfl, climbs, rfl⟩
    · rw [List.concat_eq_append] at plain ⊢
      refine .inr ⟨names', fun n member => plain n (List.mem_append_left _ member), ?_, by simp⟩
      rw [← List.append_assoc, up_concat _ (plain last (by simp))]
  · rw [if_neg climbs, if_neg climbs]
    have named : IsName name := by
      refine ⟨climbs, ?_⟩
      rintro rfl
      exact single (by decide)
    refine .inr ⟨names ++ [name], ?_, List.append_assoc .., by rw [List.length_append]; rfl⟩
    intro n member
    rcases List.mem_append.mp member with member | last
    · exact plain n member
    · exact List.mem_singleton.mp last ▸ named

/-- A walk that has a depth stays within the base. The names below the base are as many as the depth
so far. -/
theorem foldl_step_within (base : Place) (plain : ∀ n ∈ names, IsName n)
    (single : ∀ n ∈ components, '/' ∉ n.toList) {depth : Nat}
    (deep : Path.depth? names.length components = some depth) :
    (∃ names', (∀ n ∈ names', IsName n) ∧ names'.length = depth ∧
      components.foldl step (base ++ names) = base ++ names') ∧
    ∀ place ∈ (base ++ names).steps components, base.Within place := by
  induction components generalizing names with
  | nil =>
    rw [Path.depth?, Option.some.injEq] at deep
    exact ⟨⟨names, plain, deep, rfl⟩, by simp [steps]⟩
  | cons name rest ih =>
    rw [List.forall_mem_cons] at single
    rcases step_cases base plain single.1 rest with ⟨-, -, climbs⟩ | ⟨names', plain', moved, same⟩
    · cases climbs.symm.trans deep
    obtain ⟨ends, passes⟩ := ih plain' single.2 (same ▸ deep)
    rw [← moved] at ends passes
    refine ⟨ends, ?_⟩
    rw [steps, List.forall_mem_cons]
    exact ⟨⟨names', plain', moved⟩, passes⟩

/-- Components that have a depth lead from the base only to places within it. -/
theorem foldl_step_depth (base : Place) (single : ∀ n ∈ components, '/' ∉ n.toList) {depth : Nat}
    (deep : Path.depth? 0 components = some depth) :
    (∃ names, (∀ n ∈ names, IsName n) ∧ names.length = depth ∧
      components.foldl step base = base ++ names) ∧
    ∀ place ∈ base.steps components, base.Within place := by
  have unnamed : ∀ n ∈ ([] : List String), IsName n := nofun
  have whole := foldl_step_within base unnamed single deep
  rwa [List.append_nil] at whole

theorem single_of_mem_components {path : String} : ∀ n ∈ Path.components path, '/' ∉ n.toList := by
  intro n member
  obtain ⟨chars, inside, rfl⟩ := List.mem_map.mp member
  rw [String.toList_ofList]
  exact (Path.of_mem_split inside).1

/-! Components that climb above the base, or start elsewhere. -/

/-- Where a place begins changes only on the way up from the root, or to it. -/
theorem up_cases (place : Place) :
    (place = [] ∧ place.up = [".."]) ∨ (∃ n, IsName n ∧ place = [n] ∧ place.up = []) ∨
      place ≠ [] ∧ place.up.head? = place.head? := by
  cases place with
  | nil => exact .inl ⟨rfl, rfl⟩
  | cons n rest =>
    cases rest with
    | nil =>
      by_cases above : n = ".."
      · subst above
        exact .inr (.inr ⟨nofun, rfl⟩)
      by_cases outer : n = "/"
      · subst outer
        exact .inr (.inr ⟨nofun, rfl⟩)
      · exact .inr (.inl ⟨n, ⟨above, outer⟩, rfl, up_concat [] ⟨above, outer⟩⟩)
    | cons m rest =>
      refine .inr (.inr ⟨nofun, ?_⟩)
      unfold up
      split <;> rfl

theorem head_of_absolute {path : String} (absolute : Path.isAbsolute path = true) :
    (ofPath path).head? = some "/" := by
  have kept (components : List String) : ∀ {place : Place}, place.head? = some "/" →
      (components.foldl step place).head? = some "/" := by
    induction components with
    | nil => exact fun head => head
    | cons name rest ih =>
      intro place head
      apply ih
      unfold step
      split
      · exact head
      split
      · rcases up_cases place with ⟨rfl, -⟩ | ⟨n, named, rfl, -⟩ | ⟨-, same⟩
        · cases head
        · cases head
          exact absurd rfl named.2
        · rw [same, head]
      · rw [List.head?_append, head]
        rfl
  apply kept
  rw [start, if_pos absolute]
  rfl

/-- Away from a directory, only its own name leads back to it. -/
theorem head_ne_of_foldl {x : String} (named : IsName x) (other : x ∉ components)
    (away : place.head? ≠ some x) : (components.foldl step place).head? ≠ some x := by
  induction components generalizing place with
  | nil => exact away
  | cons name rest ih =>
    rw [List.mem_cons, not_or] at other
    apply ih other.2
    unfold step
    split
    · exact away
    split
    · rcases up_cases place with ⟨-, above⟩ | ⟨n, -, -, root⟩ | ⟨-, same⟩
      · rw [above]
        rintro ⟨⟩
        exact named.1 rfl
      · rw [root]
        nofun
      · rwa [same]
    · cases place with
      | nil =>
        rintro ⟨⟩
        exact other.1 rfl
      | cons n place => exact away

theorem head_ne_of_climbs {x : String} (named : IsName x) (other : x ∉ components)
    (names : List String) (plain : ∀ n ∈ names, IsName n)
    (single : ∀ n ∈ components, '/' ∉ n.toList)
    (climbs : Path.depth? names.length components = none) :
    (components.foldl step ([x] ++ names)).head? ≠ some x := by
  induction components generalizing names with
  | nil => cases climbs
  | cons name rest ih =>
    rw [List.forall_mem_cons] at single
    rw [List.mem_cons, not_or] at other
    rw [List.foldl_cons]
    rcases step_cases [x] plain single.1 rest with ⟨rfl, rfl, -⟩ | ⟨names', plain', moved, same⟩
    · have left : step ([x] ++ []) ".." = [] := up_concat [] named
      rw [left]
      exact head_ne_of_foldl named other.2 (by simp)
    · rw [moved]
      exact ih other.2 names' plain' single.2 (same ▸ climbs)

/-- There is a directory whose name no component of a path has. -/
theorem exists_fresh (path : String) :
    ∃ x, IsName x ∧ x ∉ Path.components path ∧ ofPath x = [x] := by
  let chars := List.replicate (path.toList.length + 1) 'a'
  have single : '/' ∉ chars := by
    intro member
    cases List.eq_of_mem_replicate member
  have alone : Path.components (String.ofList chars) = [String.ofList chars] := by
    rw [Path.components, String.toList_ofList, Path.split_of_not_mem single, List.map_singleton]
  have others {s : String} (head : s.toList.head? ≠ some 'a') : String.ofList chars ≠ s := by
    rintro rfl
    apply head
    rw [String.toList_ofList]
    rfl
  refine ⟨String.ofList chars, ⟨others (by decide), others (by decide)⟩, ?_, ?_⟩
  · intro member
    obtain ⟨name, inside, same⟩ := List.mem_map.mp member
    cases String.ofList_injective same
    have short := (Path.of_mem_split inside).2
    rw [List.length_replicate] at short
    exact Nat.not_succ_le_self _ short
  · have relative : start (String.ofList chars) = [] := by
      rw [start, Path.isAbsolute, String.toList_ofList]
      rfl
    rw [ofPath, alone, relative, List.foldl_cons, step, if_neg, if_neg (others (by decide))]
    · rfl
    · exact not_or.mpr ⟨others (by decide), others (by decide)⟩

end Place

/-- The path is relative, and its components lead below wherever they start, and never above it. -/
def Path.Descends (path : String) : Prop :=
  isAbsolute path = false ∧ ∃ depth, depth? 0 (components path) = some (depth + 1)

namespace Place

variable {path : String}

theorem below_join (descends : Path.Descends path) (base : String) :
    (ofPath base).Below (ofPath (Path.join base path)) := by
  obtain ⟨relative, depth, deep⟩ := descends
  obtain ⟨⟨names, plain, length, ends⟩, -⟩ :=
    foldl_step_depth (ofPath base) single_of_mem_components deep
  rw [ofPath_join relative, ends]
  refine ⟨⟨names, plain, rfl⟩, fun same => ?_⟩
  have nothing : names = [] := by simpa using same
  rw [nothing] at length
  cases length

/-- All places that a path leads through, behind those of the base, are within the base. -/
theorem within_of_mem_through (descends : Path.Descends path) {base : String} {place : Place}
    (member : place ∈ through (Path.join base path)) :
    place ∈ through base ∨ (ofPath base).Within place := by
  obtain ⟨relative, depth, deep⟩ := descends
  obtain ⟨-, passes⟩ := foldl_step_depth (ofPath base) single_of_mem_components deep
  exact (through_join relative member).imp_right (passes place)

/-- Paths that descend are all that never leave a base, whatever it is. -/
theorem below_join_iff (path : String) :
    (∀ base, (ofPath base).Below (ofPath (Path.join base path))) ↔ Path.Descends path := by
  refine ⟨fun below => ?_, below_join⟩
  -- a path that leaves this directory has no way back into it
  obtain ⟨x, named, other, alone⟩ := exists_fresh path
  obtain ⟨⟨names, -, there⟩, apart⟩ := below x
  rw [alone] at there apart
  cases relative : Path.isAbsolute path with
  | true =>
    have head := head_of_absolute relative
    rw [Path.join_of_absolute relative] at there
    rw [there] at head
    cases head
    exact absurd rfl named.2
  | false =>
    rw [ofPath_join relative, alone] at there apart
    refine ⟨relative, ?_⟩
    cases deep : Path.depth? 0 (Path.components path) with
    | none =>
      have away := head_ne_of_climbs named other [] nofun single_of_mem_components deep
      rw [List.append_nil, there] at away
      exact absurd rfl away
    | some depth =>
      cases depth with
      | succ depth => exact ⟨depth, rfl⟩
      | zero =>
        obtain ⟨⟨names, -, length, ends⟩, -⟩ :=
          foldl_step_depth [x] single_of_mem_components deep
        rw [List.length_eq_zero_iff.mp length] at ends
        exact absurd ends apart

end Place

namespace FileTree

variable {t t' : FileTree} {path : String}

theorem follow_ok {components : List String} {place target : Place}
    (ok : t.follow components place = .ok target) : target = components.foldl Place.step place := by
  induction components generalizing place with
  | nil =>
    cases ok
    rfl
  | cons name rest ih =>
    rw [follow] at ok
    split at ok
    · cases ok
    split at ok
    · cases ok
    · exact ih ok

/-- What is read at a path is the file at the place that the path leads to. -/
theorem node_of_read {bytes : List UInt8} (ok : t.read path = .ok bytes) :
    t.node (.ofPath path) = some (.file bytes) := by
  unfold read at ok
  split at ok
  · cases ok
  split at ok
  · cases ok
  split at ok
  · cases ok
  · rename_i place followed
    rw [Place.ofPath, ← follow_ok followed]
    split at ok
    · cases ok
      assumption
    · cases ok

theorem follow_congr {components : List String} {place : Place}
    (same : ∀ q ∈ place :: place.steps components, t.node q = t'.node q) :
    t.follow components place = t'.follow components place := by
  induction components generalizing place with
  | nil => rfl
  | cons name rest ih =>
    obtain ⟨here, next⟩ := List.forall_mem_cons.mp same
    rw [follow, follow, here, next _ (.head _), ih next]

/-- Reading looks only at the places that the path leads through. -/
theorem read_congr (same : ∀ place ∈ Place.through path, t.node place = t'.node place) :
    t.read path = t'.read path := by
  unfold read
  rw [follow_congr same]
  cases followed : t'.follow (Path.components path) (.start path) with
  | error e => rfl
  | ok place =>
    have there := Place.ofPath_mem_through path
    rw [Place.ofPath, ← follow_ok followed] at there
    simp only [same place there]

end FileTree

end Rowwise
