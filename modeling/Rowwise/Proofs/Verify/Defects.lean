import Mathlib
import Rowwise.Proofs.Verify.Accepted

/-! What verification finds wrong is wrong. A defect is told with the method it is in, the offset of
an instruction and the numbers that break a rule there; all of them are those of a fault of the
class. -/
namespace Rowwise

namespace Method

structure Holds (m : Method) (p : Placed) : Prop where
  boundary : Boundary 0 m.code p.offset
  spelled : ∃ rest, m.code.drop p.offset = p.instruction.encode ++ rest

/-- What a defect says of a method: the part of it that is named is there, and it is out of the
limit that is named. -/
inductive Exhibits (c : Class) (m : Method) : MethodDefect → Prop where
  | parameter {name : String} : name ∈ m.params →
      (∀ t, TypeName.parse? name = some t → t.isVoid = true) → Exhibits c m (.invalidTypeName name)
  | returns : TypeName.parse? m.returns = none → Exhibits c m (.invalidTypeName m.returns)
  | tooManyLocals : maxLocals < m.locals → Exhibits c m (.tooManyLocals m.locals maxLocals)
  | tooFewLocals : m.locals < m.arity → Exhibits c m (.tooFewLocals m.locals m.arity)
  | opcode {byte : UInt8} {offset : Nat} : Boundary 0 m.code offset →
      m.code[offset]? = some byte → Opcode.ofByte? byte = none →
      Exhibits c m (.invalidOpcode byte offset)
  | operand {byte : UInt8} {op : Opcode} {offset : Nat} : Boundary 0 m.code offset →
      m.code[offset]? = some byte → Opcode.ofByte? byte = some op →
      m.code.length < offset + 1 + op.width →
      Exhibits c m (.malformed (.unexpectedEnd (offset + 1)))
  | text {p : Placed} {index : UInt32} : m.Holds p → p.instruction = .constText index →
      c.constants.strings.length ≤ index.toNat → Exhibits c m (.invalidConstant index p.offset)
  | long {p : Placed} {index : UInt32} : m.Holds p → p.instruction = .constLong index →
      c.constants.integers.length ≤ index.toNat → Exhibits c m (.invalidConstant index p.offset)
  | slot {p : Placed} {slot : Nat} : m.Holds p → p.instruction.slot? = some slot →
      m.locals ≤ slot → Exhibits c m (.invalidLocal slot m.locals p.offset)
  | target {p : Placed} {index : UInt32} {args : UInt16} : m.Holds p →
      p.instruction = .call index args → c.methods.length ≤ index.toNat →
      Exhibits c m (.invalidCallTarget index p.offset)
  | arguments {p : Placed} {index : UInt32} {args : UInt16} {callee : Method} : m.Holds p →
      p.instruction = .call index args → c.methods[index.toNat]? = some callee →
      callee.arity ≠ args.toNat → Exhibits c m (.callArity callee.arity args.toNat p.offset)
  | paths {code : List Placed} {defect : MethodDefect} : listing 0 m.code = .ok code →
      Rowwise.Exhibits code defect → Exhibits c m defect

variable {c : Class} {m : Method} {defect : MethodDefect}

theorem exhibits_of_verifyParams {params : List String} (within : ∀ name ∈ params, name ∈ m.params)
    (error : verifyParams params = .error defect) : m.Exhibits c defect := by
  induction params with
  | nil => cases error
  | cons name later ih =>
    rw [List.forall_mem_cons] at within
    unfold verifyParams at error
    split at error
    · rename_i unreadable
      cases error
      exact .parameter within.1 fun t parsed => by rw [unreadable] at parsed; cases parsed
    · rename_i t parsed
      split at error
      · rename_i nothing
        cases error
        refine .parameter within.1 fun u same => ?_
        cases parsed.symm.trans same
        exact nothing
      · exact ih within.2 error

theorem exhibits_of_verifySignature (error : m.verifySignature = .error defect) :
    m.Exhibits c defect := by
  rcases bind_error error with params | ⟨_, _, error⟩
  · exact exhibits_of_verifyParams (fun _ member => member) params
  dsimp only at error
  split at error
  · rename_i unreadable
    cases error
    exact .returns (Option.isNone_iff_eq_none.mp unreadable)
  split at error
  · rename_i many
    cases error
    exact .tooManyLocals many
  split at error
  · rename_i few
    cases error
    exact .tooFewLocals few
  · cases error

theorem exhibits_of_instructions (error : m.instructions = .error defect) :
    m.Exhibits c defect := by
  unfold instructions at error
  split at error
  · cases error
  · rename_i byte offset failed
    cases error
    obtain ⟨_, b, boundary, there, ⟨unknown, told⟩ | ⟨op, _, _, told⟩⟩ := listing_error failed
    · cases told
      rw [Nat.zero_add]
      exact .opcode boundary there unknown
    · cases told
  · rename_i e other failed
    cases error
    obtain ⟨_, b, boundary, there, ⟨_, told⟩ | ⟨op, known, short, told⟩⟩ := listing_error failed
    · exact absurd told (other _ _)
    · rw [told, Nat.zero_add]
      exact .operand boundary there known short

theorem holds_of_mem {code : List Placed} {p : Placed} (listed : listing 0 m.code = .ok code)
    (member : p ∈ code) : m.Holds p := by
  obtain ⟨gapless, spelled⟩ := Placed.gapless_of_listing listed
  obtain ⟨_, rest, found⟩ := gapless.drop_bytes member
  rw [spelled] at found
  exact ⟨boundary_of_mem listed member, rest, found⟩

variable {p : Placed}

theorem exhibits_of_verifyConstant (holds : m.Holds p)
    (error : p.verifyConstant c.constants = .error defect) : m.Exhibits c defect := by
  unfold Placed.verifyConstant at error
  split at error
  · rename_i index text
    split at error
    · cases error
    · cases error
      exact .text holds text (by omega)
  · rename_i index long
    split at error
    · cases error
    · cases error
      exact .long holds long (by omega)
  · cases error

theorem exhibits_of_verifyLocal (holds : m.Holds p)
    (error : p.verifyLocal m.locals = .error defect) : m.Exhibits c defect := by
  unfold Placed.verifyLocal at error
  split at error
  · rename_i slot names
    split at error
    · cases error
    · cases error
      exact .slot holds names (by omega)
  · cases error

theorem exhibits_of_verifyCall (holds : m.Holds p)
    (error : p.verifyCall c.methods = .error defect) : m.Exhibits c defect := by
  unfold Placed.verifyCall at error
  split at error
  · rename_i index args call
    split at error
    · rename_i missing
      cases error
      exact .target holds call (List.getElem?_eq_none_iff.mp missing)
    · rename_i callee found
      split at error
      · cases error
      · rename_i different
        cases error
        exact .arguments holds call found different
  · cases error

theorem exhibits_of_verify (error : m.verify c = .error defect) : m.Exhibits c defect := by
  rcases bind_error error with signature | ⟨_, _, error⟩
  · exact exhibits_of_verifySignature signature
  rcases bind_error error with failed | ⟨code, listed, error⟩
  · exact exhibits_of_instructions failed
  have listed := listing_of_instructions listed
  have holds (p : Placed) (member : p ∈ code) := holds_of_mem listed member
  rcases bind_error error with constants | ⟨_, _, error⟩
  · obtain ⟨p, member, failed⟩ := forM_error constants
    exact exhibits_of_verifyConstant (holds p member) failed
  rcases bind_error error with slots | ⟨_, _, error⟩
  · obtain ⟨p, member, failed⟩ := forM_error slots
    exact exhibits_of_verifyLocal (holds p member) failed
  rcases bind_error error with calls | ⟨_, _, error⟩
  · obtain ⟨p, member, failed⟩ := forM_error calls
    exact exhibits_of_verifyCall (holds p member) failed
  rcases bind_error error with walked | ⟨_, _, done⟩
  · have distinct := (Placed.gapless_of_listing listed).1.distinct
    exact .paths listed (exhibits_of_stackDepths distinct walked)
  · cases done

end Method

namespace Class

/-- What a defect says of a class: two methods of that name take the same parameters, or a method of
that name is at fault and all methods before it are not. -/
inductive Exhibits (c : Class) : ClassDefect → Prop where
  | duplicate {i j : Nat} {m n : Method} : i < j → c.methods[i]? = some m →
      c.methods[j]? = some n → m.name = n.name → m.params = n.params →
      Exhibits c (.duplicateMethod n.name)
  | method {i : Nat} {m : Method} {defect : MethodDefect} : c.methods[i]? = some m →
      (∀ e ∈ c.methods.take i, e.verify c = .ok ()) → m.Exhibits c defect →
      Exhibits c (.inMethod m.name defect)

variable {c : Class} {earlier later : List Method} {defect : ClassDefect}

theorem exhibits_of_verifyFrom (whole : c.methods = earlier ++ later)
    (passed : ∀ e ∈ earlier, e.verify c = .ok ())
    (refused : c.verifyFrom earlier later = .error defect) : c.Exhibits defect := by
  induction later generalizing earlier with
  | nil => cases refused
  | cons m later ih =>
    have here : c.methods[earlier.length]? = some m := by simp [whole]
    unfold verifyFrom at refused
    split at refused
    · rename_i twice
      cases refused
      obtain ⟨e, member, same⟩ := List.any_eq_true.mp twice
      obtain ⟨i, inside, there⟩ := List.mem_iff_getElem.mp member
      simp only [Bool.and_eq_true, beq_iff_eq] at same
      have first : c.methods[i]? = some e := by
        rw [whole, List.getElem?_append_left inside, List.getElem?_eq_getElem inside, there]
      exact .duplicate inside first here same.1 same.2
    · split at refused
      · rename_i fault failed
        cases refused
        refine .method here ?_ (Method.exhibits_of_verify failed)
        rw [whole, List.take_left]
        exact passed
      · rename_i ok
        refine ih (by rw [whole, List.append_assoc]; rfl) ?_ refused
        rw [List.forall_mem_append, List.forall_mem_singleton]
        exact ⟨passed, ok⟩

/-- Verification tells the truth: a class that it refuses has the defect that it names, in the
method and at the offset that it names. -/
theorem refused_class_exhibits (refused : c.verify = .error defect) : c.Exhibits defect := by
  have none_before : ∀ e ∈ ([] : List Method), e.verify c = .ok () := nofun
  exact exhibits_of_verifyFrom rfl none_before refused

def forked : Class where
  name := "Forked"
  methods :=
    [{ name := "skip", params := ["boolean"], returns := "void", locals := 1,
       code := [0x12, 0x91, 1, 0, 0, 0, 0x05, 0xA3] }]

theorem forked_exhibits :
    forked.verify = .error (.inMethod "skip" (.inconsistentDepth 7 1 0)) ∧
      forked.Exhibits (.inMethod "skip" (.inconsistentDepth 7 1 0)) := by
  have refused : forked.verify = .error (.inMethod "skip" (.inconsistentDepth 7 1 0)) := by cbv
  exact ⟨refused, refused_class_exhibits refused⟩

def hollow : Class where
  name := "Hollow"
  methods := [{ name := "nothing", params := [], returns := "void", locals := 0, code := [] }]

/-- Control does not always fall off behind an instruction. -/
theorem hollow_ends_nowhere :
    ¬∀ (c : Class) (name : String) (offset : Nat),
      c.verify = .error (.inMethod name (.fallOffEnd offset)) →
      ∃ m ∈ c.methods, m.name = name ∧ ∃ code v p, listing 0 m.code = .ok code ∧
        Reached code v ∧ code[v.index]? = some p ∧ p.offset = offset ∧
        p.instruction.opcode.fallsThrough = true ∧ v.index + 1 = code.length := by
  intro falls
  have refused : hollow.verify = .error (.inMethod "nothing" (.fallOffEnd 0)) := by cbv
  obtain ⟨m, member, -, code, v, p, listed, -, here, -⟩ := falls hollow "nothing" 0 refused
  obtain rfl := List.mem_singleton.mp member
  rw [listing] at listed
  cases listed
  cases here

end Class

end Rowwise
