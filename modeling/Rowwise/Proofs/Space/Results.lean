import Rowwise.Proofs.Batch.Unboxed
import Rowwise.Proofs.Machine.Results
import Rowwise.Proofs.Space.Batched

/-! The kinds of results, from the machine to the columns that batches give. A method whose return
type is written as a primitive yields values of the kind of that primitive and of no other, so
that its columns can be unboxed. -/
namespace Rowwise

namespace LoadedType

/-- The type was made of a class or of native methods, so its bodies belong to its methods. -/
def Made (t : LoadedType) : Prop :=
  (∃ c bytes space, t = .ofClass c bytes space) ∨
    ∃ name methods space, t = .ofNative name methods space

end LoadedType

namespace Invoker

variable {i : Invoker} {h : Handle} {b : Batch} {fuel : Nat} {v : Value}

/-- What the method behind a handle yields has gone through its return type. -/
theorem coerced_of_call (made : h.owner.Made) {args : List Value}
    (called : i.call fuel h args = some (.ok v)) :
    ∃ w, coerceReturn h.method.returns w = .ok v := by
  rcases made with ⟨c, bytes, space, made⟩ | ⟨name, methods, space, made⟩
  · obtain ⟨m, found, same⟩ := Handle.method_of_class made
    have body : h.owner.body = .bytecode c := by rw [made, LoadedType.ofClass]
    simp only [call, body] at called
    have ends : c.Ends i.limits h.index args (.ok v) := ⟨fuel, called⟩
    exact same ▸ ends.coerced found
  · have body : h.owner.body = .native (methods.map (·.body)) := by rw [made, LoadedType.ofNative]
    simp only [call, body] at called
    split at called
    · cases called
    · obtain ⟨w, _, coerced⟩ := bind_ok (Option.some.inj called)
      exact ⟨w, coerced⟩

theorem coerced_of_rowEnds (made : h.owner.Made) {args : List Value}
    (ends : i.RowEnds h args (.ok v)) : ∃ w, coerceReturn h.method.returns w = .ok v := by
  obtain ⟨fuel, run⟩ := ends
  unfold invokeRow at run
  split at run
  · cases run
  split at run
  · cases run
  obtain ⟨result, called, same⟩ := Option.map_eq_some_iff.mp run
  cases result with
  | error fault => cases same
  | ok w => cases same; exact coerced_of_call made called

/-- Where no output is left over, all that a batch leaves in the outputs are results. -/
theorem called_of_fill {row left : Nat} {outputs results : List Value}
    (ends : i.fill fuel h b row left outputs = some (results, .ok ()))
    (covered : outputs.length ≤ left) (member : v ∈ results) :
    ∃ args, i.call fuel h args = some (.ok v) := by
  induction left generalizing row outputs results with
  | zero =>
    obtain rfl := List.length_eq_zero_iff.mp (Nat.le_zero.mp covered)
    cases ends
    cases member
  | succ left ih =>
    cases outputs with
    | nil => cases ends; cases member
    | cons output outputs =>
      simp only [fill] at ends
      split at ends
      · cases ends
      rename_i args _
      split at ends
      · cases ends
      · cases ends
      rename_i result called
      obtain ⟨⟨rest, verdict⟩, later, same⟩ := Option.map_eq_some_iff.mp ends
      cases same
      rcases List.mem_cons.mp member with rfl | member
      · exact ⟨args, called⟩
      · exact ih later (Nat.le_of_succ_le_succ covered) member

theorem coerced_of_invokeAll (made : h.owner.Made) {results : List Value}
    (all : i.invokeAll fuel h b = some (.ok results)) (member : v ∈ results) :
    ∃ w, coerceReturn h.method.returns w = .ok v := by
  obtain ⟨⟨outputs, verdict⟩, run, same⟩ := Option.map_eq_some_iff.mp all
  cases verdict with
  | error e => cases same
  | ok _ =>
    cases same
    unfold invokeInto at run
    split at run
    · cases run
    split at run
    · cases run
    rw [if_neg (by simp)] at run
    obtain ⟨args, called⟩ := called_of_fill run (by simp) member
    exact coerced_of_call made called

end Invoker

/-- Results have the declared kind. If the return type of a method is written as a primitive, then
what an invocation of the method ends with, the one value that a call of it leaves to its caller,
and every result of a single call or of a batch is of the kind of that primitive; so the columns of
batches can be unboxed, without a loss, to the primitives that can be unboxed to. Any other column
is refused for its first value of another kind. -/
theorem results_have_declared_kind (p : Primitive) :
    (∀ (c : Class) limits index args m v, c.methods[index]? = some m → m.returns = p.name →
      c.Ends limits index args (.ok v) → v.kind = p.kind) ∧
    (∀ (c : Class) limits start given s u index n next m, c.Reaches limits start given s →
      s.frame.fetch = .ok (.call index n, next) → c.methods[index.toNat]? = some m →
      m.returns = p.name → s.ComesBack c limits u →
      u.stack.values.size + n.toNat = s.stack.values.size + 1 ∧
        ∃ v, u.stack.values.back? = some v ∧ v.kind = p.kind) ∧
    (∀ (i : Invoker) (h : Handle), h.owner.Made → h.method.returns = p.name →
      (∀ args v, i.RowEnds h args (.ok v) → v.kind = p.kind) ∧
      (∀ fuel b results, i.invokeAll fuel h b = some (.ok results) →
        (∀ v ∈ results, v.kind = p.kind) ∧
        ∀ target : UnboxTarget, target.primitive = p →
          ∃ column, target.unbox results = .ok column ∧ column.boxed = results)) ∧
    (∀ (target : UnboxTarget) values e, target.unbox values = .error e ↔
      ∃ before v after, values = before ++ v :: after ∧
        (∀ w ∈ before, w.kind = target.primitive.kind) ∧ v.kind ≠ target.primitive.kind ∧
        e = .unboxMismatch before.length target.primitive.kind v.kind) := by
  refine ⟨?_, ?_, ?_, fun _ _ _ => UnboxTarget.unbox_error⟩
  · intro c limits index args m v found declared ends
    obtain ⟨w, coerced⟩ := ends.coerced found
    exact Primitive.kind_of_coerceReturn (declared ▸ coerced)
  · intro c limits start given s u index n next m reaches fetched found declared back
    obtain ⟨size, w, v, coerced, left⟩ := back.handsOver reaches.grounded fetched found
    exact ⟨size, v, left, Primitive.kind_of_coerceReturn (declared ▸ coerced)⟩
  · intro i h made declared
    constructor
    · intro args v ends
      obtain ⟨w, coerced⟩ := Invoker.coerced_of_rowEnds made ends
      exact Primitive.kind_of_coerceReturn (declared ▸ coerced)
    · intro fuel b results all
      have kinds : ∀ v ∈ results, v.kind = p.kind := by
        intro v member
        obtain ⟨w, coerced⟩ := Invoker.coerced_of_invokeAll made all member
        exact Primitive.kind_of_coerceReturn (declared ▸ coerced)
      refine ⟨kinds, fun target same => UnboxTarget.unbox_of_kind ?_⟩
      rwa [same]

/-- A method that hands on as a `long` what another one returns as a `short`. -/
def clipped : Class where
  name := "Clipped"
  methods :=
    [{ name := "main", params := [], returns := "long", locals := 0,
       code := [0xA6, 1, 0, 0, 0, 0, 0, 0xA2] },
     { name := "clip", params := [], returns := "short", locals := 0,
       code := [0x07, 0x01, 0x00, 0x01, 0x00, 0xA2] }]

def clipping : Handle where
  owner := .ofClass clipped [] ⟨1⟩
  index := ⟨0, by decide⟩

/-- The inner method returns 65537, of which a `short` keeps 1. -/
theorem clipped_kinds :
    (clipped.Ends {} 0 [] (.ok (.long 1)) ∧ (Value.long 1).kind = Primitive.long.kind) ∧
    (∃ s u v, clipped.Reaches {} 0 [] s ∧ s.ComesBack clipped {} u ∧
      u.stack.values.back? = some v ∧ v.kind = Primitive.short.kind) ∧
    Invoker.invokeAll ⟨⟨1⟩, {}⟩ 5 clipping (.nullary 2) = some (.ok [.long 1, .long 1]) ∧
      ∃ column, UnboxTarget.long.unbox [.long 1, .long 1] = .ok column ∧
        column.boxed = [.long 1, .long 1] := by
  obtain ⟨ended, -, rows, -⟩ := results_have_declared_kind .long
  obtain ⟨-, returned, -, -⟩ := results_have_declared_kind .short
  have ends : clipped.Ends {} 0 [] (.ok (.long 1)) := ⟨5, rfl⟩
  refine ⟨⟨ends, ended clipped {} 0 [] _ _ rfl rfl ends⟩, ?_, ?_⟩
  · let frame : Frame := ⟨clipped.methods[0], 0, #[], 0⟩
    let inner : Frame := ⟨clipped.methods[1], 0, #[], 0⟩
    let s : State := ⟨frame, [], {}⟩
    let first : State := ⟨inner, [{ frame with ip := 7 }], {}⟩
    let last : State := ⟨{ inner with ip := 5 }, [{ frame with ip := 7 }], ⟨#[.int 65537], 0⟩⟩
    let u : State := ⟨{ frame with ip := 7 }, [], ⟨#[.short 1], 0⟩⟩
    have reaches : clipped.Reaches {} 0 [] s := ⟨s, rfl, .refl⟩
    have back : s.ComesBack clipped {} u :=
      ⟨first, last, rfl, .cons (by decide) rfl (.refl (by decide)), rfl, rfl⟩
    obtain ⟨-, v, left, kind⟩ := returned clipped {} 0 [] s u 1 0 7 _ reaches rfl rfl rfl back
    exact ⟨s, u, v, reaches, back, left, kind⟩
  · have made : clipping.owner.Made := .inl ⟨_, _, _, rfl⟩
    have all : Invoker.invokeAll ⟨⟨1⟩, {}⟩ 5 clipping (.nullary 2) =
        some (.ok [.long 1, .long 1]) := rfl
    exact ⟨all, ((rows ⟨⟨1⟩, {}⟩ clipping made rfl).2 _ _ _ all).2 .long rfl⟩

end Rowwise
