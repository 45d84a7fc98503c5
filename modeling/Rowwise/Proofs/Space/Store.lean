import Rowwise.Space.Basic

/-! What namespaces keep. A namespace only ever gains types, one for each name, and a type that it
has gained is the answer for its name from then on. -/
namespace Rowwise

namespace Definer

def Verifies (d : Definer) : Prop := d ≠ .bytecode false

theorem defineClass_ok {verify : Bool} {name : String} {bytes : List UInt8} {space : SpaceId}
    {t : LoadedType} (ok : defineClass verify name bytes space = .ok t) :
    ∃ c, Class.decode bytes = .ok c ∧ c.name = name ∧ (verify = true → c.verify = .ok ()) ∧
      t = .ofClass c bytes space := by
  unfold defineClass at ok
  split at ok
  · cases ok
  rename_i c read
  split at ok
  · cases ok
  rename_i same
  split at ok
  · cases ok
  rename_i checked
  cases ok
  exact ⟨c, read, Classical.not_not.mp same, fun on => by rwa [if_pos on] at checked, rfl⟩

theorem define_ok {d : Definer} {name : String} {bytes : List UInt8} {space : SpaceId}
    {t : LoadedType} (ok : d.define name bytes space = .ok t) :
    ∃ c, Class.decode bytes = .ok c ∧ c.name = name ∧ (d.Verifies → c.verify = .ok ()) ∧
      t = .ofClass c bytes space := by
  cases d with
  | bytecode verify =>
    obtain ⟨c, read, same, checked, made⟩ := defineClass_ok ok
    refine ⟨c, read, same, fun verifies => checked ?_, made⟩
    cases verify with
    | true => rfl
    | false => exact absurd rfl verifies
  | counted =>
    obtain ⟨c, read, same, checked, made⟩ := defineClass_ok ok
    exact ⟨c, read, same, fun _ => checked rfl, made⟩
  | reject reason => cases ok

end Definer

namespace Loader

variable {l : Loader} {files : FileTree} {n : String} {t : LoadedType}

def fresh (l : Loader) : Loader := { l with types := [], defined := 0 }

/-- A type that is loaded is given again, whatever has become of its file. -/
theorem resolve_of_find (found : l.find? n = some t) (files : FileTree) :
    l.resolve files n = (.ok t, l) := by
  simp only [resolve, found]

/-- All that the first use of a name can do. -/
inductive Attempts (files : FileTree) (n : String) (l : Loader) :
    Except Error LoadedType → Loader → Prop where
  | fails {e : Error} {calls : Nat} : Attempts files n l (.error e) { l with defined := calls }
  | defines {bytes : List UInt8} {c : Class} : files.read (l.pathFor n) = .ok bytes →
      Class.decode bytes = .ok c → c.name = n → (l.definer.Verifies → c.verify = .ok ()) →
      Attempts files n l (.ok (.ofClass c bytes l.space))
        { l with
          defined := l.defined + 1
          types := l.types ++ [.ofClass c bytes l.space] }

theorem attempts_of_none (new : l.find? n = none) (files : FileTree) :
    Attempts files n l (l.resolve files n).1 (l.resolve files n).2 := by
  simp only [resolve, new]
  cases read : files.read (l.pathFor n) with
  | error e => cases e <;> exact .fails
  | ok bytes =>
    dsimp only
    cases made : l.definer.define n bytes l.space with
    | error reason => exact .fails
    | ok t =>
      obtain ⟨c, decoded, same, checked, rfl⟩ := Definer.define_ok made
      exact .defines read decoded same checked

/-- A failure leaves the loader as it is, but for the number of calls of its definer. -/
theorem resolve_of_error {e : Error} (failed : (l.resolve files n).1 = .error e) :
    ∃ calls, (l.resolve files n).2 = { l with defined := calls } := by
  cases found : l.find? n with
  | some t =>
    rw [resolve_of_find found] at failed
    cases failed
  | none =>
    have attempts := attempts_of_none found files
    generalize l.resolve files n = answer at failed attempts
    obtain ⟨_, l'⟩ := answer
    cases failed
    cases attempts with
    | fails => exact ⟨_, rfl⟩

/-- Until a name is loaded, each attempt is like a first one. -/
theorem resolve_fresh (new : l.find? n = none) (files : FileTree) :
    (l.resolve files n).1 = (l.fresh.resolve files n).1 := by
  have none : l.fresh.find? n = none := rfl
  have path : l.fresh.pathFor n = l.pathFor n := rfl
  simp only [resolve, new, none, path]
  cases files.read (l.pathFor n) with
  | error e => cases e <;> rfl
  | ok bytes =>
    dsimp only [fresh]
    cases l.definer.define n bytes l.space <;> rfl

end Loader

namespace Registry

variable {r : Registry} {n : String} {methods : List NativeMethod} {t : LoadedType}

def fresh (r : Registry) : Registry := { r with types := [] }

theorem resolve_of_find (found : r.find? n = some t) : r.resolve n = .ok t := by
  simp only [resolve, found]

theorem resolve_of_none (new : r.find? n = none) :
    r.resolve n = .error (.typeNotFound n r.name) := by
  simp only [resolve, new]

/-- A name that is taken cannot be registered again. -/
theorem register_of_find (found : r.find? n = some t) (methods : List NativeMethod) :
    r.register n methods = (.error (match invalidName? (typeNames n methods) with
      | some invalid => .invalidDefinition n (.invalidTypeName invalid)
      | none => .duplicateType n), r) := by
  unfold register
  cases invalidName? (typeNames n methods) with
  | some invalid => rfl
  | none => simp only [found, Option.isSome_some, if_true]

theorem register_of_none (new : r.find? n = none) (methods : List NativeMethod) :
    r.register n methods = match invalidName? (typeNames n methods) with
      | some invalid => (.error (.invalidDefinition n (.invalidTypeName invalid)), r)
      | none => (.ok (.ofNative n methods r.space),
          { r with types := r.types ++ [.ofNative n methods r.space] }) := by
  unfold register
  cases invalidName? (typeNames n methods) with
  | some invalid => rfl
  | none => simp [new]

theorem register_of_error {e : Error} (failed : (r.register n methods).1 = .error e) :
    (r.register n methods).2 = r := by
  cases found : r.find? n with
  | some t => rw [register_of_find found]
  | none =>
    rw [register_of_none found] at failed ⊢
    split at failed <;> cases failed
    rfl

/-- Until a name is taken, each attempt is like a first one. -/
theorem register_fresh (new : r.find? n = none) (methods : List NativeMethod) :
    (r.register n methods).1 = (r.fresh.register n methods).1 := by
  have none : r.fresh.find? n = none := rfl
  rw [register_of_none new, register_of_none none]
  cases invalidName? (typeNames n methods) <;> rfl

theorem invalidName?_eq_none {names : List String} :
    invalidName? names = none ↔ ∀ name ∈ names, (TypeName.parse? name).isSome := by
  simp [invalidName?, Option.isSome_iff_ne_none]

/-- All that a registry asks for: the names can be read, and the type is a new one. -/
theorem register_ok_iff : (r.register n methods).1 = .ok t ↔
    (∀ name ∈ typeNames n methods, (TypeName.parse? name).isSome) ∧ r.find? n = none ∧
      t = .ofNative n methods r.space := by
  rw [← invalidName?_eq_none]
  cases found : r.find? n with
  | some u =>
    rw [register_of_find found]
    constructor
    · intro made
      cases made
    · rintro ⟨-, new, -⟩
      cases new
  | none =>
    rw [register_of_none found]
    cases invalidName? (typeNames n methods) with
    | some invalid =>
      constructor
      · intro made
        cases made
      · rintro ⟨readable, -⟩
        cases readable
    | none =>
      constructor
      · intro made
        cases made
        exact ⟨rfl, rfl, rfl⟩
      · rintro ⟨-, -, rfl⟩
        rfl

end Registry

namespace Space

variable {sp sp' : Space} {n : String} {t : LoadedType}

def find? (sp : Space) (n : String) : Option LoadedType := sp.types.find? (·.name == n)

def fresh : Space → Space
  | .loader l => .loader l.fresh
  | .registry r => .registry r.fresh

theorem id_fresh (sp : Space) : sp.fresh.id = sp.id := by
  cases sp <;> rfl

/-- What becomes of a namespace: nothing but its types changes, and none is lost. -/
structure Grows (sp sp' : Space) : Prop where
  fresh : sp'.fresh = sp.fresh
  types : sp.types <+: sp'.types

namespace Grows

theorem refl (sp : Space) : sp.Grows sp := ⟨rfl, List.prefix_rfl⟩

theorem trans {sp'' : Space} (first : sp.Grows sp') (second : sp'.Grows sp'') : sp.Grows sp'' :=
  ⟨second.fresh.trans first.fresh, first.types.trans second.types⟩

theorem id (grows : sp.Grows sp') : sp'.id = sp.id := by
  rw [← id_fresh, grows.fresh, id_fresh]

theorem find (grows : sp.Grows sp') (found : sp.find? n = some t) : sp'.find? n = some t := by
  obtain ⟨more, types⟩ := grows.types
  unfold find? at found ⊢
  rw [← types, List.find?_append, found]
  rfl

end Grows

/-- How a namespace can answer for a type, and what becomes of it: it has the type, or it adds it,
or it complains and keeps its types. -/
inductive Answers (n : String) (sp : Space) : Except Error LoadedType → Space → Prop where
  | has {t : LoadedType} : sp.find? n = some t → Answers n sp (.ok t) sp
  | adds {t : LoadedType} {sp' : Space} : sp.find? n = none → sp'.fresh = sp.fresh →
      sp'.types = sp.types ++ [t] → t.name = n → t.space = sp.id → Answers n sp (.ok t) sp'
  | fails {e : Error} {sp' : Space} : sp'.fresh = sp.fresh → sp'.types = sp.types →
      Answers n sp (.error e) sp'

namespace Answers

variable {result : Except Error LoadedType}

theorem grows (answers : Answers n sp result sp') : sp.Grows sp' := by
  cases answers with
  | has _ => exact .refl sp
  | adds _ fresh types => exact ⟨fresh, types ▸ List.prefix_append ..⟩
  | fails fresh types => exact ⟨fresh, types ▸ List.prefix_rfl⟩

/-- The answer is what the namespace has from then on. -/
theorem find (answers : Answers n sp (.ok t) sp') : sp'.find? n = some t := by
  cases answers with
  | has found => exact found
  | adds new _ types name =>
    unfold find? at new ⊢
    rw [types, List.find?_append, new]
    simp [name]

theorem nodup_names (answers : Answers n sp result sp') (distinct : (sp.types.map (·.name)).Nodup) :
    (sp'.types.map (·.name)).Nodup := by
  cases answers with
  | has _ => exact distinct
  | fails _ types => rwa [types]
  | adds new _ types name =>
    rw [types, List.map_append, List.nodup_append]
    refine ⟨distinct, by simp, ?_⟩
    rintro _ taken _ added rfl
    obtain ⟨u, member, same⟩ := List.mem_map.mp taken
    have other := List.find?_eq_none.mp new u member
    simp_all

/-- What the namespace has afterwards it had before, or it is the answer. -/
theorem find_cases (answers : Answers n sp result sp') {n' : String} {t' : LoadedType}
    (found : sp'.find? n' = some t') :
    sp.find? n' = some t' ∨
      n' = n ∧ result = .ok t' ∧ sp.find? n = none ∧ t'.space = sp.id := by
  cases answers with
  | has _ => exact .inl found
  | fails _ types => exact .inl (by rw [find?, ← types]; exact found)
  | @adds t _ new _ types name space =>
    rw [find?, types, List.find?_append, Option.or_eq_some_iff] at found
    rcases found with found | ⟨-, found⟩
    · exact .inl found
    · obtain ⟨same, rfl⟩ : t.name = n' ∧ t = t' := by simpa using found
      exact .inr ⟨same ▸ name, rfl, new, space⟩

end Answers

theorem resolve_answers (files : FileTree) (n : String) (sp : Space) :
    Answers n sp (sp.resolve files n).1 (sp.resolve files n).2 := by
  cases sp with
  | loader l =>
    cases found : l.find? n with
    | some t =>
      simp only [resolve, Loader.resolve_of_find found]
      exact .has found
    | none =>
      simp only [resolve]
      generalize l.resolve files n = answer, Loader.attempts_of_none found files = attempts
      obtain ⟨result, l'⟩ := answer
      cases attempts with
      | fails => exact .fails rfl rfl
      | defines _ _ name _ => exact .adds found rfl rfl name rfl
  | registry r =>
    cases found : r.find? n with
    | some t =>
      simp only [resolve, Registry.resolve_of_find found]
      exact .has found
    | none =>
      simp only [resolve, Registry.resolve_of_none found]
      exact .fails rfl rfl

theorem register_answers (n : String) (methods : List NativeMethod) (r : Registry) :
    Answers n (.registry r) (r.register n methods).1 (.registry (r.register n methods).2) := by
  cases found : r.find? n with
  | some t =>
    rw [Registry.register_of_find found]
    exact .fails rfl rfl
  | none =>
    rw [Registry.register_of_none found]
    cases Registry.invalidName? (Registry.typeNames n methods) with
    | some invalid => exact .fails rfl rfl
    | none => exact .adds found rfl rfl rfl rfl

end Space

end Rowwise
