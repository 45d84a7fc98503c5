import Rowwise.Proofs.Machine.Run
import Rowwise.Proofs.Space.Checked

/-! Batches against single calls. A batch does for each of its rows what a single call of the row
does, up to the first row that fails, and touches no output beyond the rows that succeeded. -/
namespace Rowwise

namespace Column

theorem value?_isSome {c : Column} {row : Nat} (inside : row < c.length) :
    ∃ v, c.value? row = some v := by
  cases c <;> simp_all [length, value?]

end Column

namespace Batch

def Boxes (b : Batch) (row : Nat) (args : List Value) : Prop :=
  b.columns.map (Column.value? row) = args.map some

theorem rowFrom_ok {row : Nat} {columns : List Column} {index : Nat} {args : List Value} :
    rowFrom row index columns = .ok args ↔ columns.map (Column.value? row) = args.map some := by
  induction columns generalizing index args with
  | nil => cases args <;> simp [rowFrom]
  | cons c rest ih =>
    rw [rowFrom]
    cases here : c.value? row with
    | none => cases args <;> simp [here]
    | some v =>
      cases args with
      | nil => cases rowFrom row (index + 1) rest <;> simp
      | cons w args =>
        have later : rowFrom row (index + 1) rest = .ok args ↔
            rest.map (Column.value? row) = args.map some := ih
        cases found : rowFrom row (index + 1) rest with
        | error e => simp_all
        | ok vs => simp_all

theorem row_ok {b : Batch} {row : Nat} {args : List Value} :
    b.row row = .ok args ↔ b.Boxes row args := rowFrom_ok

theorem Boxes.length {b : Batch} {row : Nat} {args : List Value} (boxed : b.Boxes row args) :
    args.length = b.width := by
  have := congrArg List.length boxed
  simpa [width] using this.symm

theorem exists_boxes {b : Batch} {row : Nat} (inside : row < b.rows) :
    ∃ args, b.Boxes row args := by
  have values : ∀ c ∈ b.columns, ∃ v, c.value? row = some v := fun c member =>
    Column.value?_isSome (by rw [b.uniform c member]; exact inside)
  unfold Boxes
  generalize b.columns = columns at values
  induction columns with
  | nil => exact ⟨[], rfl⟩
  | cons c rest ih =>
    obtain ⟨v, here⟩ := values c List.mem_cons_self
    obtain ⟨args, later⟩ := ih fun c member => values c (List.mem_cons_of_mem _ member)
    exact ⟨v :: args, by simp [here, later]⟩

end Batch

namespace Invoker

variable {i : Invoker} {h : Handle} {b : Batch} {outputs : List Value}

/-- A single call ends with an answer, given enough steps. -/
def RowEnds (i : Invoker) (h : Handle) (args : List Value) (answer : Except Error Value) : Prop :=
  ∃ fuel, i.invokeRow fuel h args = some answer

/-- A batch ends with outputs and a verdict, given enough steps for each of its rows. -/
def BatchEnds (i : Invoker) (h : Handle) (outputs : List Value) (b : Batch)
    (answer : List Value × Except Error Unit) : Prop :=
  ∃ fuel, i.invokeInto fuel h outputs b = some answer

/-- Single calls of the first rows succeed with these results. -/
def Yields (i : Invoker) (h : Handle) (b : Batch) (results : List Value) : Prop :=
  ∀ row v, results[row]? = some v → ∃ args, b.Boxes row args ∧ i.RowEnds h args (.ok v)

theorem call_mono {fuel more : Nat} (enough : fuel ≤ more) {args : List Value}
    {answer : Except Fault Value} (ends : i.call fuel h args = some answer) :
    i.call more h args = some answer := by
  unfold call at ends ⊢
  cases body : h.owner.body with
  | bytecode c =>
    rw [body] at ends
    exact Class.invoke_mono ends enough
  | native bodies =>
    rw [body] at ends
    exact ends

theorem fill_mono {fuel more : Nat} (enough : fuel ≤ more) {row left : Nat}
    {answer : List Value × Except Error Unit}
    (ends : i.fill fuel h b row left outputs = some answer) :
    i.fill more h b row left outputs = some answer := by
  induction left generalizing row outputs answer with
  | zero => exact ends
  | succ left ih =>
    cases outputs with
    | nil => exact ends
    | cons output outputs =>
      simp only [fill] at ends ⊢
      cases boxed : b.row row with
      | error e => simpa only [boxed] using ends
      | ok args =>
        simp only [boxed] at ends ⊢
        cases called : i.call fuel h args with
        | none => simp only [called] at ends; cases ends
        | some result =>
          rw [call_mono enough called]
          simp only [called] at ends
          cases result with
          | error fault => exact ends
          | ok v =>
            obtain ⟨rest, later, same⟩ := Option.map_eq_some_iff.mp ends
            simp only [ih later, Option.map_some, same]

theorem invokeInto_mono {fuel more : Nat} (enough : fuel ≤ more)
    {answer : List Value × Except Error Unit}
    (ends : i.invokeInto fuel h outputs b = some answer) :
    i.invokeInto more h outputs b = some answer := by
  unfold invokeInto at ends ⊢
  split at ends
  · exact ends
  split at ends
  · exact ends
  by_cases short : outputs.length < b.rows
  · rwa [if_pos short] at ends ⊢
  · rw [if_neg short] at ends ⊢
    exact fill_mono enough ends

/-- There is one end at most. -/
theorem BatchEnds.unique {answer answer' : List Value × Except Error Unit}
    (ends : i.BatchEnds h outputs b answer) (ends' : i.BatchEnds h outputs b answer') :
    answer' = answer := by
  obtain ⟨fuel, run⟩ := ends
  obtain ⟨fuel', run'⟩ := ends'
  have more := invokeInto_mono (Nat.le_max_left fuel fuel') run
  rw [invokeInto_mono (Nat.le_max_right fuel fuel') run'] at more
  exact Option.some.inj more

theorem BatchEnds.iff {answer : List Value × Except Error Unit}
    (ends : i.BatchEnds h outputs b answer) (answer' : List Value × Except Error Unit) :
    i.BatchEnds h outputs b answer' ↔ answer' = answer :=
  ⟨ends.unique, by rintro rfl; exact ends⟩

def Calls (i : Invoker) (h : Handle) (b : Batch) (row : Nat) (answer : Except Fault Value) : Prop :=
  ∃ args fuel, b.row row = .ok args ∧ i.call fuel h args = some answer

def FillEnds (i : Invoker) (h : Handle) (b : Batch) (row left : Nat) (outputs : List Value)
    (answer : List Value × Except Error Unit) : Prop :=
  ∃ fuel, i.fill fuel h b row left outputs = some answer

section Rows

variable {row left : Nat} {output v : Value} {fault : Fault}
  {answer : List Value × Except Error Unit}

theorem FillEnds.cons (calls : i.Calls h b row (.ok v))
    (rest : i.FillEnds h b (row + 1) left outputs answer) :
    i.FillEnds h b row (left + 1) (output :: outputs) (v :: answer.1, answer.2) := by
  obtain ⟨args, fuel, boxed, called⟩ := calls
  obtain ⟨fuel', later⟩ := rest
  refine ⟨max fuel fuel', ?_⟩
  simp only [fill, boxed, call_mono (Nat.le_max_left fuel fuel') called,
    fill_mono (Nat.le_max_right fuel fuel') later, Option.map_some]

theorem FillEnds.fails (calls : i.Calls h b row (.error fault)) :
    i.FillEnds h b row (left + 1) (output :: outputs)
      (output :: outputs, .error (.invocationFailed h.qualifiedName (some row) fault)) := by
  obtain ⟨args, fuel, boxed, called⟩ := calls
  exact ⟨fuel, by simp only [fill, boxed, called]⟩

/-- Rows that succeed put their results in the place of as many outputs. -/
theorem FillEnds.append {results : List Value}
    (calls : ∀ k v, results[k]? = some v → i.Calls h b (row + k) (.ok v))
    (room : results.length ≤ outputs.length)
    (rest : i.FillEnds h b (row + results.length) left (outputs.drop results.length) answer) :
    i.FillEnds h b row (results.length + left) outputs (results ++ answer.1, answer.2) := by
  induction results generalizing row outputs with
  | nil => simpa using rest
  | cons v results ih =>
    cases outputs with
    | nil => exact absurd room (by simp)
    | cons output outputs =>
      have later : i.FillEnds h b (row + 1) (results.length + left) outputs
          (results ++ answer.1, answer.2) := by
        apply ih
        · intro k w found
          have := calls (k + 1) w (by simpa using found)
          rwa [← Nat.add_assoc, Nat.add_right_comm] at this
        · simpa using room
        · rwa [List.length_cons, List.drop_succ_cons, ← Nat.add_assoc, Nat.add_right_comm] at rest
      have first : i.FillEnds h b row (results.length + left + 1) (output :: outputs)
          (v :: (results ++ answer.1), answer.2) := later.cons (calls 0 v rfl)
      rwa [List.length_cons, Nat.add_right_comm]

/-- Where every row ends, so do all of them together. -/
theorem exists_fillEnds (each : ∀ k, row ≤ k → k < row + left → ∃ answer, i.Calls h b k answer)
    (room : left ≤ outputs.length) : ∃ answer, i.FillEnds h b row left outputs answer := by
  induction left generalizing row outputs with
  | zero => exact ⟨_, 0, rfl⟩
  | succ left ih =>
    cases outputs with
    | nil => exact absurd room (by simp)
    | cons output outputs =>
      obtain ⟨_ | v, calls⟩ := each row (Nat.le_refl row) (by omega)
      · exact ⟨_, .fails calls⟩
      · have others : ∀ k, row + 1 ≤ k → k < row + 1 + left → ∃ answer, i.Calls h b k answer :=
          fun k above below => each k (by omega) (by omega)
        obtain ⟨rest, later⟩ := ih others (Nat.le_of_succ_le_succ room)
        exact ⟨_, later.cons calls⟩

/-- Rows of the batch can always be boxed, so only calls fail. -/
theorem verdict_of_fill {fuel : Nat} (inside : row + left ≤ b.rows)
    (ends : i.fill fuel h b row left outputs = some answer) :
    answer.2 = .ok () ∨
      ∃ k fault, answer.2 = .error (.invocationFailed h.qualifiedName (some k) fault) := by
  induction left generalizing row outputs answer with
  | zero => cases ends; exact .inl rfl
  | succ left ih =>
    cases outputs with
    | nil => cases ends; exact .inl rfl
    | cons output outputs =>
      obtain ⟨args, boxed⟩ := b.exists_boxes (show row < b.rows by omega)
      simp only [fill, Batch.row_ok.mpr boxed] at ends
      cases called : i.call fuel h args with
      | none => simp only [called] at ends; cases ends
      | some result =>
        simp only [called] at ends
        cases result with
        | error fault => cases ends; exact .inr ⟨row, fault, rfl⟩
        | ok v =>
          obtain ⟨rest, later, rfl⟩ := Option.map_eq_some_iff.mp ends
          rcases ih (show row + 1 + left ≤ b.rows by omega) later with verdict | verdict
          · exact .inl verdict
          · exact .inr verdict

end Rows

theorem checkArity_of_eq {found : Nat} (fits : found = h.arity) : checkArity h found = .ok () := by
  rw [checkArity, if_neg (not_not_intro fits)]

theorem batchEnds_of_width (passes : i.check h = .ok ()) (other : b.width ≠ h.arity) :
    i.BatchEnds h outputs b (outputs, .error (.arityMismatch h.qualifiedName h.arity b.width)) :=
  ⟨0, by simp only [invokeInto, passes, checkArity, if_pos other]⟩

theorem batchEnds_of_short (passes : i.check h = .ok ()) (fits : b.width = h.arity)
    (short : outputs.length < b.rows) :
    i.BatchEnds h outputs b (outputs, .error (.lengthMismatch .output b.rows outputs.length)) :=
  ⟨0, by simp only [invokeInto, passes, checkArity_of_eq fits, if_pos short]⟩

section Single

variable (passes : i.check h = .ok ()) (fits : b.width = h.arity)
include passes fits

theorem invokeInto_eq (room : b.rows ≤ outputs.length) (fuel : Nat) :
    i.invokeInto fuel h outputs b = i.fill fuel h b 0 b.rows outputs := by
  simp only [invokeInto, passes, checkArity_of_eq fits, if_neg (Nat.not_lt.mpr room)]

theorem batchEnds_of_fillEnds (room : b.rows ≤ outputs.length)
    {answer : List Value × Except Error Unit} (ends : i.FillEnds h b 0 b.rows outputs answer) :
    i.BatchEnds h outputs b answer := by
  obtain ⟨fuel, run⟩ := ends
  exact ⟨fuel, (invokeInto_eq passes fits room fuel).trans run⟩

variable {row : Nat} {args : List Value} (boxed : b.Boxes row args)
include boxed

/-- A single call of a row ends as the call behind it does. -/
theorem calls_of_rowEnds {answer : Except Error Value} (ends : i.RowEnds h args answer) :
    ∃ result, i.Calls h b row result ∧
      answer = result.mapError (.invocationFailed h.qualifiedName none) := by
  obtain ⟨fuel, run⟩ := ends
  have single : i.invokeRow fuel h args =
      (i.call fuel h args).map (·.mapError (.invocationFailed h.qualifiedName none)) := by
    simp only [invokeRow, passes, checkArity_of_eq (boxed.length.trans fits)]
  rw [single] at run
  obtain ⟨result, called, same⟩ := Option.map_eq_some_iff.mp run
  exact ⟨result, ⟨args, fuel, Batch.row_ok.mpr boxed, called⟩, same.symm⟩

theorem calls_of_row_ok {v : Value} (ends : i.RowEnds h args (.ok v)) :
    i.Calls h b row (.ok v) := by
  obtain ⟨_ | w, calls, same⟩ := calls_of_rowEnds passes fits boxed ends
  · cases same
  · cases same
    exact calls

theorem calls_of_row_error {e : Error} (ends : i.RowEnds h args (.error e)) :
    ∃ fault, e = .invocationFailed h.qualifiedName none fault ∧ i.Calls h b row (.error fault) := by
  obtain ⟨fault | v, calls, same⟩ := calls_of_rowEnds passes fits boxed ends
  · cases same
    exact ⟨fault, rfl, calls⟩
  · cases same

end Single

section Several

variable (passes : i.check h = .ok ()) (fits : b.width = h.arity) (room : b.rows ≤ outputs.length)
include passes fits

theorem Yields.calls {results : List Value} (yields : i.Yields h b results) :
    ∀ row v, results[row]? = some v → i.Calls h b (0 + row) (.ok v) := by
  intro row v found
  obtain ⟨args, boxed, ends⟩ := yields row v found
  rw [Nat.zero_add]
  exact calls_of_row_ok passes fits boxed ends

include room

theorem exists_batchEnds
    (each : ∀ row args, row < b.rows → b.Boxes row args → ∃ answer, i.RowEnds h args answer) :
    ∃ answer, i.BatchEnds h outputs b answer := by
  have calls : ∀ row, 0 ≤ row → row < 0 + b.rows → ∃ answer, i.Calls h b row answer := by
    intro row _ inside
    rw [Nat.zero_add] at inside
    obtain ⟨args, boxed⟩ := b.exists_boxes inside
    obtain ⟨answer, ends⟩ := each row args inside boxed
    obtain ⟨result, calls, -⟩ := calls_of_rowEnds passes fits boxed ends
    exact ⟨result, calls⟩
  obtain ⟨answer, ends⟩ := exists_fillEnds calls room
  exact ⟨answer, batchEnds_of_fillEnds passes fits room ends⟩

theorem batchEnds_of_all {results : List Value} (yields : i.Yields h b results)
    (all : results.length = b.rows) :
    i.BatchEnds h outputs b (results ++ outputs.drop b.rows, .ok ()) := by
  have rest : i.FillEnds h b (0 + results.length) 0 (outputs.drop results.length)
      (outputs.drop results.length, .ok ()) := ⟨0, rfl⟩
  have ends := FillEnds.append (yields.calls passes fits) (by omega) rest
  rw [Nat.add_zero, all] at ends
  exact batchEnds_of_fillEnds passes fits room ends

theorem batchEnds_of_first {results : List Value} (yields : i.Yields h b results)
    (more : results.length < b.rows) {fault : Fault}
    (fails : i.Calls h b results.length (.error fault)) :
    i.BatchEnds h outputs b (results ++ outputs.drop results.length,
      .error (.invocationFailed h.qualifiedName (some results.length) fault)) := by
  obtain ⟨left, rows⟩ : ∃ left, b.rows = results.length + (left + 1) :=
    ⟨b.rows - results.length - 1, by omega⟩
  obtain ⟨output, later, behind⟩ : ∃ output later, outputs.drop results.length = output :: later :=
    List.exists_cons_of_length_pos (by simp; omega)
  have rest : i.FillEnds h b (0 + results.length) (left + 1) (outputs.drop results.length)
      (outputs.drop results.length,
        .error (.invocationFailed h.qualifiedName (some results.length) fault)) := by
    rw [Nat.zero_add, behind]
    exact .fails fails
  have ends := FillEnds.append (yields.calls passes fits) (by omega) rest
  rw [← rows] at ends
  exact batchEnds_of_fillEnds passes fits room ends

end Several

/-- A batch fails for its shape or in a call, and not because a column has no value for a row. -/
theorem verdict_of_batchEnds (passes : i.check h = .ok ()) {answer : List Value × Except Error Unit}
    (ends : i.BatchEnds h outputs b answer) (column expected found : Nat) :
    answer.2 ≠ .error (.lengthMismatch (.column column) expected found) := by
  by_cases fits : b.width = h.arity
  · by_cases room : b.rows ≤ outputs.length
    · obtain ⟨fuel, run⟩ := ends
      rw [invokeInto_eq passes fits room] at run
      rcases verdict_of_fill (by omega) run with verdict | ⟨k, fault, verdict⟩ <;> rw [verdict] <;>
        exact nofun
    · rw [(batchEnds_of_short passes fits (Nat.not_le.mp room)).unique ends]
      exact nofun
  · rw [(batchEnds_of_width passes fits).unique ends]
    exact nofun

end Invoker

open Invoker in
/-- A batch is invoked row by row. A batch of another width than the method, or with more rows than
outputs, fails and leaves the outputs alone. Otherwise every row has boxed values, and single calls
of these decide all: if each ends, so does the batch; where the first rows succeed, their results
replace as many outputs; and the first row that fails ends the batch with the fault of its single
call. No row is ever found too short. -/
theorem batch_row_by_row {i : Invoker} {h : Handle} (own : h.owner.space = i.space)
    (accessible : h.isAccessible = true) (b : Batch) (outputs : List Value) :
    (b.width ≠ h.arity → ∀ answer, i.BatchEnds h outputs b answer ↔
      answer = (outputs, .error (.arityMismatch h.qualifiedName h.arity b.width))) ∧
    (b.width = h.arity → outputs.length < b.rows → ∀ answer, i.BatchEnds h outputs b answer ↔
      answer = (outputs, .error (.lengthMismatch .output b.rows outputs.length))) ∧
    (b.width = h.arity → b.rows ≤ outputs.length →
      (∀ row, row < b.rows → ∃ args, b.Boxes row args) ∧
      ((∀ row args, row < b.rows → b.Boxes row args → ∃ answer, i.RowEnds h args answer) →
        ∃ answer, i.BatchEnds h outputs b answer) ∧
      (∀ results, i.Yields h b results → results.length = b.rows →
        ∀ answer, i.BatchEnds h outputs b answer ↔
          answer = (results ++ outputs.drop b.rows, .ok ())) ∧
      (∀ results args e, i.Yields h b results → results.length < b.rows →
        b.Boxes results.length args → i.RowEnds h args (.error e) →
        ∃ fault, e = .invocationFailed h.qualifiedName none fault ∧
          ∀ answer, i.BatchEnds h outputs b answer ↔
            answer = (results ++ outputs.drop results.length,
              .error (.invocationFailed h.qualifiedName (some results.length) fault)))) ∧
    (∀ answer, i.BatchEnds h outputs b answer →
      ∀ column expected found,
        answer.2 ≠ .error (.lengthMismatch (.column column) expected found)) := by
  have passes := check_ok own accessible
  refine ⟨?_, ?_, ?_, ?_⟩
  · intro other
    exact (batchEnds_of_width passes other).iff
  · intro fits short
    exact (batchEnds_of_short passes fits short).iff
  · intro fits room
    refine ⟨fun row inside => b.exists_boxes inside, exists_batchEnds passes fits room, ?_, ?_⟩
    · intro results yields all
      exact (batchEnds_of_all passes fits room yields all).iff
    · intro results args e yields more boxed fails
      obtain ⟨fault, rfl, calls⟩ := calls_of_row_error passes fits boxed fails
      exact ⟨fault, rfl, (batchEnds_of_first passes fits room yields more calls).iff⟩
  · intro answer ends
    exact verdict_of_batchEnds passes ends

/-- A private method that divides its arguments, of a class without a file. -/
def ratio : Handle where
  owner := .ofClass
    { name := "Ratios"
      methods :=
        [{ name := "divide", params := ["int", "int"], returns := "int", access := 0x0008,
           locals := 2, code := [0x12, 0x13, 0x23, 0xA2] }] } [] ⟨1⟩
  index := ⟨0, Nat.one_pos⟩
  granted := true

def fractions : Batch where
  columns := [.int [10, 20, 30, 40], .boxed [.int 2, .byte 5, .int 0, .int 1]]
  rows := 4
  uniform := by decide

/-- The third row divides by zero, so two of the five outputs are replaced. -/
theorem ratio_row_by_row :
    ratio.owner.space = ⟨1⟩ ∧ ratio.isAccessible = true ∧
      Invoker.BatchEnds ⟨⟨1⟩, {}⟩ ratio [.null, .null, .null, .long 7, .long 8] fractions
        ([.int 5, .int 4, .null, .long 7, .long 8],
          .error (.invocationFailed "Ratios.divide" (some 2) .divisionByZero)) := by
  have own : ratio.owner.space = (⟨⟨1⟩, {}⟩ : Invoker).space := rfl
  have accessible : ratio.isAccessible = true := rfl
  have yields : Invoker.Yields ⟨⟨1⟩, {}⟩ ratio fractions [.int 5, .int 4] := by
    rintro (_ | _ | row) v found
    · cases found
      exact ⟨[.int 10, .int 2], rfl, 5, rfl⟩
    · cases found
      exact ⟨[.int 20, .byte 5], rfl, 5, rfl⟩
    · cases found
  have fails : Invoker.RowEnds ⟨⟨1⟩, {}⟩ ratio [.int 30, .int 0]
      (.error (.invocationFailed "Ratios.divide" none .divisionByZero)) := ⟨5, rfl⟩
  have batch := (batch_row_by_row own accessible fractions
    [.null, .null, .null, .long 7, .long 8]).2.2.1 rfl (by decide)
  obtain ⟨fault, same, ends⟩ := batch.2.2.2 [.int 5, .int 4] [.int 30, .int 0] _ yields (by decide)
    rfl fails
  cases same
  exact ⟨own, accessible, (ends _).mpr rfl⟩

end Rowwise
