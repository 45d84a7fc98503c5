import Rowwise.Proofs.Session.Stores
import Rowwise.Proofs.Space.Overloads

/-! Signatures of the types that namespaces admit. Verification keeps ill-formed signatures, `void`
parameters and repeated methods out of a loader. A registry looks at the names of types only. -/
namespace Rowwise

namespace LoadedType

def Readable (t : LoadedType) : Prop := ∀ d ∈ t.methods, d.toSignature.Readable

def VoidFree (t : LoadedType) : Prop :=
  ∀ d ∈ t.methods, ∀ p ∈ d.params, ∀ type, TypeName.parse? p = some type → type.isVoid = false

/-- No two methods have the same name and the same parameters, as they are spelled. -/
def Distinct (t : LoadedType) : Prop :=
  t.methods.Pairwise fun d e => ¬(d.name = e.name ∧ d.params = e.params)

structure WellFormed (t : LoadedType) : Prop where
  readable : t.Readable
  voidFree : t.VoidFree
  distinct : t.Distinct

end LoadedType

/-- The type of a verified class is well formed. -/
theorem Class.wellFormed_of_verify {c : Class} (verified : c.verify = .ok ()) (bytes : List UInt8)
    (space : SpaceId) : (LoadedType.ofClass c bytes space).WellFormed := by
  have passed := verify_of_verifyFrom verified
  have declared : ∀ d ∈ (LoadedType.ofClass c bytes space).methods,
      ∃ m ∈ c.methods, d.toSignature = m.toSignature := by
    intro d member
    obtain ⟨m, inside, rfl⟩ := List.mem_map.mp member
    exact ⟨m, inside, rfl⟩
  constructor
  · intro d member
    obtain ⟨m, member, same⟩ := declared d member
    rw [same]
    exact Method.readable_of_verify (passed m member)
  · intro d member p inside type parsed
    obtain ⟨m, member, same⟩ := declared d member
    rw [same] at inside
    obtain ⟨t, parsed', solid⟩ := Method.solid_of_verify (passed m member) p inside
    cases parsed.symm.trans parsed'
    exact solid
  · apply List.pairwise_map.mpr
    exact pairwise_of_verify verified

namespace Registry

variable {r : Registry} {n : String} {methods : List NativeMethod} {t : LoadedType}

theorem readable_of_register (made : (r.register n methods).1 = .ok t) : t.Readable := by
  obtain ⟨readable, -, rfl⟩ := register_ok_iff.mp made
  intro d member
  obtain ⟨m, registered, rfl⟩ := List.mem_map.mp member
  have named : ∀ name ∈ m.params ++ [m.returns], (TypeName.parse? name).isSome := by
    intro name inside
    apply readable
    apply List.mem_cons_of_mem
    exact List.mem_flatMap.mpr ⟨m, registered, inside⟩
  constructor
  · intro p inside
    exact named p (List.mem_append_left _ inside)
  · apply named
    simp

end Registry

namespace Session

variable {fuel : Nat} {files : FileTree} {steps : List Step} {m : Moment} {p : Nat} {n : String}
  {t : LoadedType}

theorem loader_wellFormed {l : Loader}
    (there : (run fuel steps { files }).2.spaces[p]? = some (.loader l))
    (verifies : l.definer.Verifies) (found : l.find? n = some t) : t.WellFormed := by
  obtain ⟨earlier, m, here, defines, first⟩ :=
    (recorded_run fuel files steps).defined there found
  obtain ⟨bytes, c, -, -, -, checked, rfl⟩ := loader_defines there here defines first
  exact Class.wellFormed_of_verify (checked verifies) bytes l.space

theorem registry_readable {r : Registry}
    (there : (run fuel steps { files }).2.spaces[p]? = some (.registry r))
    (found : r.find? n = some t) : t.Readable := by
  have keeps := registry_keeps there
  obtain ⟨earlier, m, methods, here, first, registers, tells, -⟩ := keeps.stored found
  have made := (keeps.retried here first registers).unique tells
  exact Registry.readable_of_register made

end Session

open Session in
/-- Signatures of a type that a namespace has given in a session. A loader that verifies gives none
that are ill formed. A registry reads all names of types, but it keeps neither `void` parameters nor
repeated methods out: it admits any new type of which the names can be read. -/
theorem admitted_signatures {fuel : Nat} {files : FileTree} {steps : List Step} {m : Moment}
    {p : Nat} {n : String} {t : LoadedType} (member : m ∈ log fuel steps { files })
    (defines : m.Defines p n t) :
    (∀ l, (run fuel steps { files }).2.spaces[p]? = some (.loader l) → l.definer.Verifies →
      t.WellFormed) ∧
    ∀ r, (run fuel steps { files }).2.spaces[p]? = some (.registry r) →
      t.Readable ∧ (t.WellFormed ↔ t.VoidFree ∧ t.Distinct) ∧
      ∀ n' methods t', (r.register n' methods).1 = .ok t' ↔
        (∀ name ∈ Registry.typeNames n' methods, (TypeName.parse? name).isSome) ∧
          r.find? n' = none ∧ t' = .ofNative n' methods r.space := by
  obtain ⟨sp, there, found⟩ := (recorded_run fuel files steps).found member defines
  constructor
  · intro l there' verifies
    cases there.symm.trans there'
    exact loader_wellFormed there verifies found
  · intro r there'
    cases there.symm.trans there'
    have readable := registry_readable there found
    refine ⟨readable, ⟨?_, ?_⟩, fun n' methods t' => Registry.register_ok_iff⟩
    · intro formed
      exact ⟨formed.voidFree, formed.distinct⟩
    · rintro ⟨voidFree, distinct⟩
      exact ⟨readable, voidFree, distinct⟩

def idle : NativeMethod where
  name := "idle"
  params := ["void"]
  returns := "int"
  access := Access.publicFlag ||| Access.staticFlag
  body := fun _ => .ok (.int 1)

def tick : NativeMethod where
  name := "tick"
  params := []
  returns := "long"
  access := Access.publicFlag ||| Access.staticFlag
  body := fun _ => .ok (.long 1)

def clock : LoadedType := .ofNative "Clock" [idle, tick, tick] ⟨1⟩

def clocks (types : List LoadedType) : Session where
  spaces := [.registry { name := "clocks", space := ⟨1⟩, types }]
  spaceNames := ⟨[("clocks", 0)]⟩

theorem moment_clock :
    Session.moment 0 (.register "clocks" "Clock" [idle, tick, tick] none) (clocks []) =
      ⟨clocks [], .register "clocks" "Clock" [idle, tick, tick] none,
        Session.told (.ok clock) (clocks []), clocks [clock]⟩ := by
  have found : (clocks []).locate? "clocks" =
    some (0, .registry { name := "clocks", space := ⟨1⟩ }) := rfl
  have first : Registry.find? { name := "clocks", space := ⟨1⟩ } "Clock" = none := rfl
  have readable : Registry.invalidName? (Registry.typeNames "Clock" [idle, tick, tick]) = none := by
    cbv
  rw [Session.moment_register found, Registry.register_of_none first, readable]
  rfl

open Session in
/-- The type of a loader is well formed, and the names of the type of a registry can be read. -/
theorem stub_and_clock_admitted : stubType.WellFormed ∧ clock.Readable := by
  constructor
  · let loading : List Step :=
      [.openLoader (.definer "udfs" (.bytecode true)) "main", .resolve "main" "Stub" none]
    have opened : (moment 0 (.openLoader (.definer "udfs" (.bytecode true)) "main")
        { files := stubFiles }).after = single stubFiles stubLoader := rfl
    have resolved := moment_stub resolve_stub
    have there : (run 0 loading { files := stubFiles }).2.spaces[0]? =
        some (.loader stubLoaded) := by
      simp only [loading, run_cons, opened, congrArg Moment.after resolved]
      rfl
    have member : moment 0 (.resolve "main" "Stub" none) (single stubFiles stubLoader) ∈
        log 0 loading { files := stubFiles } := by
      simp only [loading, log, opened]
      exact .tail _ (.head _)
    have defines : (moment 0 (.resolve "main" "Stub" none) (single stubFiles stubLoader)).Defines 0
        "Stub" stubType := by
      rw [resolved]
      exact ⟨⟨_, "main", none, .resolve, rfl⟩, _, rfl⟩
    have verifies : stubLoaded.definer.Verifies := by
      intro same
      cases same
    exact (admitted_signatures member defines).1 _ there verifies
  · let registering : List Step :=
      [.openRegistry "clocks" {} "clocks", .register "clocks" "Clock" [idle, tick, tick] none]
    have opened : (moment 0 (.openRegistry "clocks" {} "clocks") {}).after = clocks [] := rfl
    have there : (run 0 registering {}).2.spaces[0]? =
        some (.registry { name := "clocks", space := ⟨1⟩, types := [clock] }) := by
      simp only [registering, run_cons, opened, congrArg Moment.after moment_clock]
      rfl
    have member : moment 0 (.register "clocks" "Clock" [idle, tick, tick] none) (clocks []) ∈
        log 0 registering {} := by
      simp only [registering, log, opened]
      exact .tail _ (.head _)
    have defines : (moment 0 (.register "clocks" "Clock" [idle, tick, tick] none)
        (clocks [])).Defines 0 "Clock" clock := by
      rw [moment_clock]
      exact ⟨⟨_, "clocks", none, .register _, rfl⟩, _, rfl⟩
    exact ((admitted_signatures member defines).2 _ there).1

/-- What a registry admits may have a `void` parameter or a method that is declared twice. -/
theorem registry_admits_ill_formed :
    (¬∀ (r : Registry) (n : String) (methods : List NativeMethod) (t : LoadedType),
      (r.register n methods).1 = .ok t → t.VoidFree) ∧
    ¬∀ (r : Registry) (n : String) (methods : List NativeMethod) (t : LoadedType),
      (r.register n methods).1 = .ok t → t.Distinct := by
  have readable : ∀ name ∈ Registry.typeNames "Clock" [idle, tick, tick],
      (TypeName.parse? name).isSome := List.all_eq_true.mp (by cbv)
  have admitted := (Registry.register_ok_iff (r := { name := "clocks", space := ⟨1⟩ })).mpr
    ⟨readable, rfl, rfl⟩
  constructor
  · intro voidFree
    have solid := voidFree _ _ _ _ admitted idle.toDeclared (.head _) "void" (.head _)
    have parsed : TypeName.parse? "void" = some ⟨"void", 0⟩ := by cbv
    exact absurd (solid _ parsed) (by decide)
  · intro distinct
    have apart := distinct _ _ _ _ admitted
    have twice := List.pairwise_iff_getElem.mp apart 1 2 (by decide) (by decide) (by decide)
    exact twice ⟨rfl, rfl⟩

end Rowwise
