import Rowwise.Code.Assembler
import Rowwise.Proofs.Machine.Step

/-! Emitting and listing are inverse to each other, and the machine walks along the listing: an
instruction that does not send control elsewhere leads to the offset of the next one. -/
namespace Rowwise

namespace Assembler

def emitAll (is : List Instruction) (a : Assembler) : Assembler := is.foldl (fun a i => a.emit i) a

theorem code_emitAll (is : List Instruction) (a : Assembler) :
    (a.emitAll is).code = a.code ++ is.flatMap Instruction.encode := by
  induction is generalizing a with
  | nil => simp [emitAll]
  | cons i later ih =>
    have first : a.emitAll (i :: later) = (a.emit i).emitAll later := rfl
    rw [first, ih, List.flatMap_cons, ← List.append_assoc]
    rfl

end Assembler

theorem listing_emitAll (is : List Instruction) :
    listing 0 (({} : Assembler).emitAll is).code = .ok (Placed.place 0 is) := by
  have spelled : Placed.bytes (Placed.place 0 is) = (({} : Assembler).emitAll is).code := by
    rw [Placed.bytes_eq, Placed.instructions_place, Assembler.code_emitAll]
    rfl
  rw [← spelled]
  exact (Placed.gapless_place 0 is).listed

/-- Bytes that have a listing are what emitting its instructions gives. -/
theorem emitAll_of_listing {bs : List UInt8} {code : List Placed}
    (listed : listing 0 bs = .ok code) :
    (({} : Assembler).emitAll (code.map (·.instruction))).code = bs := by
  rw [Assembler.code_emitAll, ← Placed.bytes_eq]
  exact (Placed.gapless_of_listing listed).2

theorem listing_error_iff {bs : List UInt8} :
    (∃ e, listing 0 bs = .error e) ↔ ¬∃ is, (({} : Assembler).emitAll is).code = bs := by
  constructor
  · rintro ⟨e, failed⟩ ⟨is, rfl⟩
    cases failed.symm.trans (listing_emitAll is)
  · intro none
    cases listed : listing 0 bs with
    | error e => exact ⟨e, rfl⟩
    | ok code => exact absurd ⟨_, emitAll_of_listing listed⟩ none

namespace Instruction

/-- Bytes of the declared width are the operand of an instruction, and no others are. -/
theorem width_iff_operand {op : Opcode} {bs : List UInt8} :
    bs.length = op.width ↔ ∃ i : Instruction, i.opcode = op ∧ i.operand = bs := by
  constructor
  · intro width
    exact ⟨ofOperand op bs, opcode_ofOperand op bs, operand_ofOperand op bs width⟩
  · rintro ⟨i, rfl, rfl⟩
    exact i.length_operand

/-- The instruction sends control elsewhere: it is a call, a return, or a jump that is taken. -/
def Transfers (i : Instruction) (s : Stack) : Prop :=
  i.opcode.isCall = true ∨ i.opcode.isReturn = true ∨
    ∃ condition distance rest, i = .jump condition distance ∧ condition.test s = .ok (true, rest)

end Instruction

namespace State

variable {c : Class} {limits : Limits} {s : State} {progress : Progress}

/-- The run goes on in the same frame, from the same offset. -/
def GoesOn (s : State) (progress : Progress) : Prop :=
  ∃ t, progress = .running t ∧ t.frame.ip = s.frame.ip ∧ t.frame.method = s.frame.method ∧
    t.callers = s.callers

theorem goesOn_of_push {v : Value} (ok : s.push v = .ok progress) : s.GoesOn progress := by
  cases ok
  exact ⟨_, rfl, rfl, rfl, rfl⟩

theorem goesOn_of_store {slot : Nat} (ok : s.store slot = .ok progress) : s.GoesOn progress := by
  obtain ⟨⟨v, stack⟩, -, ok⟩ := bind_ok ok
  obtain ⟨frame, stored, ok⟩ := bind_ok ok
  cases ok
  rw [Frame.store_ok stored]
  exact ⟨_, rfl, rfl, rfl, rfl⟩

/-- An instruction that neither fails nor sends control elsewhere leaves the offset alone. -/
theorem goesOn_of_execute {i : Instruction} (ok : s.execute c limits i = .ok progress)
    (stays : ¬i.Transfers s.stack) : s.GoesOn progress := by
  cases i with
  | stack op =>
    obtain ⟨⟨_, stack⟩, -, ok⟩ := bind_ok ok
    cases ok
    exact ⟨_, rfl, rfl, rfl, rfl⟩
  | constInt | constDouble => exact goesOn_of_push ok
  | constText index =>
    simp only [execute] at ok
    split at ok
    · exact goesOn_of_push ok
    · cases ok
  | constLong index =>
    simp only [execute] at ok
    split at ok
    · exact goesOn_of_push ok
    · cases ok
  | load | loadFixed =>
    obtain ⟨v, -, ok⟩ := bind_ok ok
    exact goesOn_of_push ok
  | store | storeFixed => exact goesOn_of_store ok
  | jump condition distance =>
    obtain ⟨⟨taken, stack⟩, tested, ok⟩ := bind_ok ok
    cases taken with
    | true => exact absurd (.inr (.inr ⟨condition, distance, stack, rfl, tested⟩)) stays
    | false =>
      cases ok
      exact ⟨_, rfl, rfl, rfl, rfl⟩
  | call => exact absurd (.inl rfl) stays
  | returnValue | returnVoid => exact absurd (.inr (.inl rfl)) stays
  | throw =>
    obtain ⟨_, -, ok⟩ := bind_ok ok
    cases ok
  | trap => cases ok

theorem goesOn_of_step {code : List Placed} {p : Placed}
    (listed : listing 0 s.frame.method.code = .ok code) (member : p ∈ code)
    (here : s.frame.ip = p.offset) (stays : ¬p.instruction.Transfers s.stack)
    (ok : s.step c limits = .ok progress) : { s with frame.ip := p.next }.GoesOn progress := by
  rw [step_of_fetch (Frame.fetch_of_listing listed member here)] at ok
  exact goesOn_of_execute (s := { s with frame.ip := p.next }) ok stays

end State

/-- Emission and listing. What is emitted is listed as the same instructions without gaps, and an
instruction is any opcode with any operand of its width. Bytes that have a listing are the encodings
of its instructions, one after the other, and bytes that are no such sequence have none. The machine
goes from a listed instruction to the offset behind it unless control is sent elsewhere. -/
theorem listing_inverts_emission :
    (∀ is : List Instruction, ∃ code, listing 0 (({} : Assembler).emitAll is).code = .ok code ∧
      code.map (·.instruction) = is ∧ Placed.Gapless 0 code ∧
      code.Pairwise (·.offset < ·.offset)) ∧
    (∀ (op : Opcode) (bs : List UInt8),
      bs.length = op.width ↔ ∃ i : Instruction, i.opcode = op ∧ i.operand = bs) ∧
    (∀ (bs : List UInt8) (code : List Placed), listing 0 bs = .ok code →
      code.flatMap (fun p => p.instruction.opcode.byte :: p.instruction.operand) = bs) ∧
    (∀ bs : List UInt8,
      (∃ e, listing 0 bs = .error e) ↔ ¬∃ is, (({} : Assembler).emitAll is).code = bs) ∧
    ∀ (c : Class) (limits : Limits) (s : State) (code : List Placed) (p : Placed)
      (progress : Progress), listing 0 s.frame.method.code = .ok code → p ∈ code →
      s.frame.ip = p.offset → ¬p.instruction.Transfers s.stack → s.step c limits = .ok progress →
      ∃ t, progress = .running t ∧ t.frame.ip = p.next ∧ t.frame.method = s.frame.method ∧
        t.callers = s.callers := by
  refine ⟨?_, fun op bs => Instruction.width_iff_operand, ?_, fun bs => listing_error_iff, ?_⟩
  · intro is
    have gapless := Placed.gapless_place 0 is
    exact ⟨_, listing_emitAll is, Placed.instructions_place 0 is, gapless, gapless.increasing⟩
  · intro bs code listed
    exact (Placed.gapless_of_listing listed).2
  · intro c limits s code p progress listed member here stays ok
    exact State.goesOn_of_step listed member here stays ok

def dropping : Method where
  name := "dropping"
  params := []
  returns := "void"
  locals := 0
  code := [0x07, 0xFE, 0xFF, 0xFF, 0xFF, 0x01, 0xA3]

/-- The first step of `dropping` leads behind the operand of its first instruction. The operand
alone, cut off, is no code. -/
theorem dropping_decoded :
    listing 0 dropping.code =
      .ok [⟨0, .constInt (-2)⟩, ⟨5, .stack .pop⟩, ⟨6, .returnVoid⟩] ∧
    (¬∃ is, (({} : Assembler).emitAll is).code = dropping.code.take 3) ∧
    ∃ t, State.step { name := "Dropping", methods := [dropping] } {}
      ⟨⟨dropping, 0, #[], 0⟩, [], {}⟩ = .ok (.running t) ∧ t.frame.ip = 5 := by
  obtain ⟨emitted, -, -, refused, steps⟩ := listing_inverts_emission
  have gapless : Placed.Gapless 0 [⟨0, .constInt (-2)⟩, ⟨5, .stack .pop⟩, ⟨6, .returnVoid⟩] :=
    ⟨rfl, rfl, rfl, trivial⟩
  have listed : listing 0 dropping.code = .ok _ := gapless.listed
  have cut : listing 0 (dropping.code.take 3) = .error (.unexpectedEnd 1) := by cbv
  refine ⟨listed, (refused _).mp ⟨_, cut⟩, ?_⟩
  have stays : ¬(Instruction.constInt (-2)).Transfers {} := by
    rintro (call | returns | ⟨condition, distance, rest, jump, -⟩)
    · cases call
    · cases returns
    · cases jump
  have first := steps { name := "Dropping", methods := [dropping] } {}
    ⟨⟨dropping, 0, #[], 0⟩, [], {}⟩ _ _ _ listed (.head _) rfl stays rfl
  obtain ⟨t, running, ip, -⟩ := first
  exact ⟨t, congrArg Except.ok running, ip⟩

end Rowwise
