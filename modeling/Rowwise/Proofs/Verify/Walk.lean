import Rowwise.Proofs.Verify.Paths

/-! The walk over stack depths decides exactly whether all paths keep the rules. The argument is
made for walks that take their pending visits in any order; the order of the program is one. -/
namespace Rowwise

namespace Visit

variable {code : List Placed} {v w : Visit} {p : Placed}

theorem indexOf?_eq_some {offset : Int} {j : Nat} (found : indexOf? code offset = some j) :
    ∃ q, code[j]? = some q ∧ (q.offset : Int) = offset := by
  obtain ⟨bound, same, _⟩ := List.findIdx?_eq_some_iff_getElem.mp found
  exact ⟨code[j], List.getElem?_eq_getElem bound, by simpa using same⟩

theorem indexOf?_eq_none {offset : Int} (missing : indexOf? code offset = none) :
    ∀ q ∈ code, (q.offset : Int) ≠ offset := by
  simpa [indexOf?] using missing

theorem indexOf?_offset (distinct : Placed.Distinct code) {i : Nat} (here : code[i]? = some p) :
    indexOf? code p.offset = some i := by
  cases found : indexOf? code p.offset with
  | none => exact absurd rfl (indexOf?_eq_none found p (List.mem_of_getElem? here))
  | some j =>
    obtain ⟨q, there, same⟩ := indexOf?_eq_some found
    rw [distinct i j p q here there (by omega)]

theorem jumps_ok {depth : Nat} {taken : List Visit} (ok : jumps code p depth = .ok taken) :
    (∀ target, p.target? = some target → ∃ q ∈ code, (q.offset : Int) = target) ∧
      (Placed.Distinct code → ∀ u, u ∈ taken ↔
        ∃ j q, p.target? = some (q.offset : Int) ∧ code[j]? = some q ∧ u = ⟨j, depth⟩) := by
  unfold jumps at ok
  cases target : p.target? with
  | none => simp_all
  | some t =>
    simp only [target] at ok
    cases found : indexOf? code t with
    | none => simp [found] at ok
    | some j =>
      obtain ⟨q, there, lands⟩ := indexOf?_eq_some found
      simp only [found, Except.ok.injEq] at ok
      subst ok
      refine ⟨fun _ same => ⟨q, List.mem_of_getElem? there, lands.trans (Option.some.inj same)⟩, ?_⟩
      intro distinct u
      constructor
      · intro member
        exact ⟨j, q, by rw [lands], there, List.mem_singleton.mp member⟩
      · rintro ⟨k, r, same, found, rfl⟩
        have offsets : (q.offset : Int) = r.offset := lands.trans (Option.some.inj same)
        rw [distinct j k q r there found (by omega)]
        exact List.mem_singleton_self _

theorem jumps_error {depth : Nat} {e : MethodDefect} (error : jumps code p depth = .error e) :
    ∃ target, p.target? = some target ∧ (∀ q ∈ code, (q.offset : Int) ≠ target) ∧
      e = .invalidJumpTarget target p.offset := by
  unfold jumps at error
  cases target : p.target? with
  | none => simp [target] at error
  | some t =>
    simp only [target] at error
    cases found : indexOf? code t with
    | none =>
      simp only [found, Except.error.injEq] at error
      exact ⟨t, rfl, indexOf?_eq_none found, error.symm⟩
    | some j => simp [found] at error

theorem falls_ok {index depth : Nat} {passed : List Visit}
    (ok : falls code p index depth = .ok passed) :
    (p.instruction.opcode.fallsThrough = true → index + 1 < code.length) ∧
      ∀ u, u ∈ passed ↔ p.instruction.opcode.fallsThrough = true ∧ u = ⟨index + 1, depth⟩ := by
  unfold falls at ok
  by_cases through : p.instruction.opcode.fallsThrough = true
  · by_cases inside : index + 1 < code.length
    · simp only [through, inside, ↓reduceIte, Except.ok.injEq] at ok
      subst ok
      simp [through, inside]
    · simp [through, inside] at ok
  · simp_all

theorem falls_error {index depth : Nat} {e : MethodDefect}
    (error : falls code p index depth = .error e) :
    p.instruction.opcode.fallsThrough = true ∧ ¬ index + 1 < code.length ∧
      e = .fallOffEnd p.offset := by
  unfold falls at error
  by_cases through : p.instruction.opcode.fallsThrough = true
  · by_cases inside : index + 1 < code.length
    · simp [through, inside] at error
    · simp only [through, inside, ↓reduceIte, Except.error.injEq] at error
      exact ⟨through, inside, error.symm⟩
  · simp [through] at error

theorem successors_ok {next : List Visit} (ok : successors code v p = .ok next) :
    v.Admitted p ∧ ∃ taken passed, jumps code p (v.depthAfter p) = .ok taken ∧
      falls code p v.index (v.depthAfter p) = .ok passed ∧ next = passed ++ taken := by
  unfold successors at ok
  split at ok
  · cases ok
  split at ok
  · cases ok
  split at ok
  · cases ok
  rename_i taken jumped
  split at ok
  · cases ok
  rename_i passed fallen
  cases ok
  exact ⟨⟨by omega, by omega⟩, taken, passed, jumped, fallen, rfl⟩

theorem permitted_of_successors {next : List Visit} (ok : successors code v p = .ok next) :
    v.Permitted code p := by
  obtain ⟨admitted, taken, passed, jumped, fallen, _⟩ := successors_ok ok
  exact ⟨admitted, (jumps_ok jumped).1, (falls_ok fallen).1⟩

/-- What an instruction leads to are the steps of paths, and nothing else. -/
theorem mem_successors (distinct : Placed.Distinct code) (here : code[v.index]? = some p)
    {next : List Visit} (ok : successors code v p = .ok next) : w ∈ next ↔ v.Leads code w := by
  obtain ⟨admitted, taken, passed, jumped, fallen, rfl⟩ := successors_ok ok
  obtain ⟨continues, fall⟩ := falls_ok fallen
  rw [List.mem_append, fall, (jumps_ok jumped).2 distinct]
  constructor
  · rintro (⟨through, rfl⟩ | ⟨j, q, target, there, rfl⟩)
    · exact .fall here admitted through (continues through)
    · exact .jump here admitted target there
  · intro leads
    cases leads with
    | jump at_v _ target there =>
      cases here.symm.trans at_v
      exact .inr ⟨_, _, target, there, rfl⟩
    | fall at_v _ through _ =>
      cases here.symm.trans at_v
      exact .inl ⟨through, rfl⟩

/-- An instruction that cannot be expanded shows why: the visit to it breaks a rule. -/
theorem exhibits_of_successors {e : MethodDefect} (reached : Reached code v)
    (here : code[v.index]? = some p) (error : successors code v p = .error e) :
    Exhibits code e := by
  unfold successors at error
  split at error
  · rename_i few
    cases error
    exact .underflow reached here few
  split at error
  · rename_i enough many
    cases error
    exact .overflow reached here (by omega) many
  rename_i enough bounded
  have admitted : v.Admitted p := ⟨by omega, by omega⟩
  split at error
  · rename_i jumped
    cases error
    obtain ⟨target, jumps, missing, rfl⟩ := jumps_error jumped
    exact .jump reached here admitted jumps missing
  split at error
  · rename_i fallen
    cases error
    obtain ⟨through, outside, rfl⟩ := falls_error fallen
    have inside := (List.getElem?_eq_some_iff.mp here).1
    exact .fall reached here admitted through (by omega)
  · cases error

end Visit

namespace Walk

def Covers (w : Walk) (v : Visit) : Prop :=
  w.depths[v.index]? = some (some v.depth) ∨ v ∈ w.pending

/-- Whatever the walk knows lies on a path, and it has lost sight of no path. -/
structure Invariant (code : List Placed) (w : Walk) : Prop where
  length : w.depths.length = code.length
  recorded : ∀ v : Visit, w.depths[v.index]? = some (some v.depth) → Reached code v
  pending : ∀ v ∈ w.pending, Reached code v
  entry : w.Covers ⟨0, 0⟩
  closed : ∀ (v : Visit) (p : Placed), w.depths[v.index]? = some (some v.depth) →
    code[v.index]? = some p → v.Permitted code p ∧ ∀ u, v.Leads code u → w.Covers u

/-- Each instruction has its place among the depths, and the visits to come are to instructions. -/
structure Inside (code : List Placed) (w : Walk) : Prop where
  length : w.depths.length = code.length
  pending : ∀ v ∈ w.pending, v.index < code.length

/-- A walk that makes any pending visit next comes to this end. -/
inductive Settles (code : List Placed) : Walk → Except MethodDefect (List (Option Nat)) → Prop where
  | done {depths : List (Option Nat)} : Settles code ⟨depths, []⟩ (.ok depths)
  | fail {w : Walk} {v : Visit} {rest : List Visit} {e : MethodDefect} :
      w.pending.Perm (v :: rest) → step code ⟨w.depths, v :: rest⟩ = .error e →
      Settles code w (.error e)
  | visit {w next : Walk} {v : Visit} {rest : List Visit} {verdict} :
      w.pending.Perm (v :: rest) → step code ⟨w.depths, v :: rest⟩ = .ok next →
      Settles code next verdict → Settles code w verdict

variable {code : List Placed} {w next : Walk}

theorem start_depths {i depth : Nat} : (start code).depths[i]? ≠ some (some depth) := by
  intro found
  simp only [start, List.getElem?_map] at found
  cases there : code[i]? with
  | none => simp only [there, Option.map_none, reduceCtorEq] at found
  | some p => simp only [there, Option.map_some, reduceCtorEq, Option.some.injEq] at found

theorem start_invariant (code : List Placed) : Invariant code (start code) where
  length := by simp [start]
  recorded v found := absurd found start_depths
  pending v member := by
    rw [List.mem_singleton.mp member]
    exact .entry
  entry := .inr (List.mem_singleton_self _)
  closed v p found := absurd found start_depths

/-- The order of the pending visits is not part of what a walk knows. -/
theorem Invariant.reorder (valid : Invariant code w) {pending : List Visit}
    (order : w.pending.Perm pending) : Invariant code ⟨w.depths, pending⟩ where
  length := valid.length
  recorded := valid.recorded
  pending v member := valid.pending v (order.mem_iff.mpr member)
  entry := valid.entry.imp_right order.mem_iff.mp
  closed v p found here :=
    ⟨(valid.closed v p found here).1,
      fun u leads => ((valid.closed v p found here).2 u leads).imp_right order.mem_iff.mp⟩

theorem Invariant.inside (valid : Invariant code w) (nonempty : code ≠ []) : Inside code w where
  length := valid.length
  pending v member := (valid.pending v member).index_lt nonempty

/-- A visit to an instruction with a recorded depth compares the two, and the first visit to an
instruction records its depth and opens the steps from there. -/
theorem step_cases {depths : List (Option Nat)} {v : Visit} {rest : List Visit}
    (inside : Inside code ⟨depths, v :: rest⟩) :
    ∃ p, code[v.index]? = some p ∧
      ((∃ first, depths[v.index]? = some (some first) ∧
        step code ⟨depths, v :: rest⟩ =
          if first = v.depth then .ok ⟨depths, rest⟩
          else .error (.inconsistentDepth p.offset first v.depth)) ∨
      (depths[v.index]? = some none ∧
        step code ⟨depths, v :: rest⟩ =
          (v.successors code p).map fun next =>
            ⟨depths.set v.index (some v.depth), next ++ rest⟩)) := by
  have bound := inside.pending v List.mem_cons_self
  have here : code[v.index]? = some code[v.index] := List.getElem?_eq_getElem bound
  have room : v.index < depths.length := inside.length ▸ bound
  refine ⟨_, here, ?_⟩
  cases found : depths[v.index] with
  | some first =>
    have recorded : depths[v.index]? = some (some first) := by
      rw [List.getElem?_eq_getElem room, found]
    exact .inl ⟨first, recorded, by simp [step, here, recorded]⟩
  | none =>
    have open_ : depths[v.index]? = some none := by rw [List.getElem?_eq_getElem room, found]
    refine .inr ⟨open_, ?_⟩
    simp only [step, here, open_]
    cases v.successors code code[v.index] <;> rfl

theorem step_invariant {depths : List (Option Nat)} {v : Visit} {rest : List Visit}
    (distinct : Placed.Distinct code) (nonempty : code ≠ [])
    (valid : Invariant code ⟨depths, v :: rest⟩)
    (ok : step code ⟨depths, v :: rest⟩ = .ok next) : Invariant code next := by
  have reached := valid.pending v List.mem_cons_self
  have tail : ∀ u ∈ rest, Reached code u := fun u member =>
    valid.pending u (List.mem_cons_of_mem v member)
  obtain ⟨p, here, ⟨first, found, steps⟩ | ⟨found, steps⟩⟩ :=
    step_cases (valid.inside nonempty)
  · rw [steps] at ok
    split at ok
    · rename_i same
      cases ok
      have kept : ∀ u : Visit, Covers ⟨depths, v :: rest⟩ u → Covers ⟨depths, rest⟩ u := by
        rintro u (recorded | member)
        · exact .inl recorded
        · rcases List.mem_cons.mp member with rfl | member
          · exact .inl (same ▸ found)
          · exact .inr member
      exact ⟨valid.length, valid.recorded, tail, kept _ valid.entry, fun u q recorded at_u =>
        ⟨(valid.closed u q recorded at_u).1,
          fun x leads => kept x ((valid.closed u q recorded at_u).2 x leads)⟩⟩
    · cases ok
  · rw [steps] at ok
    cases expanded : v.successors code p with
    | error e => simp [expanded, Except.map] at ok
    | ok visits =>
      simp only [expanded, Except.map, Except.ok.injEq] at ok
      subst ok
      have room := (List.getElem?_eq_some_iff.mp found).1
      have opened (u : Visit) : u ∈ visits ↔ v.Leads code u :=
        Visit.mem_successors distinct here expanded
      have recorded (u : Visit) :
          (depths.set v.index (some v.depth))[u.index]? = some (some u.depth) ↔
            u = v ∨ (u.index ≠ v.index ∧ depths[u.index]? = some (some u.depth)) := by
        by_cases same : u.index = v.index
        · obtain ⟨i, d⟩ := u
          obtain ⟨j, c⟩ := v
          simp only at same
          subst same
          simp [room, eq_comm]
        · have different : u ≠ v := fun equal => same (congrArg Visit.index equal)
          simp [Ne.symm same, same, different]
      have kept : ∀ u : Visit, Covers ⟨depths, v :: rest⟩ u →
          Covers ⟨depths.set v.index (some v.depth), visits ++ rest⟩ u := by
        rintro u (before | member)
        · refine .inl ((recorded u).mpr (.inr ⟨?_, before⟩))
          intro same
          simp [same, found] at before
        · rcases List.mem_cons.mp member with rfl | member
          · exact .inl ((recorded u).mpr (.inl rfl))
          · exact .inr (List.mem_append_right _ member)
      refine ⟨by simpa using valid.length, ?_, ?_, kept _ valid.entry, ?_⟩
      · intro u found_u
        rcases (recorded u).mp found_u with rfl | ⟨_, before⟩
        · exact reached
        · exact valid.recorded u before
      · intro u member
        rcases List.mem_append.mp member with fresh | old
        · exact .next reached ((opened u).mp fresh)
        · exact tail u old
      · intro u q found_u at_u
        rcases (recorded u).mp found_u with rfl | ⟨_, before⟩
        · cases here.symm.trans at_u
          exact ⟨Visit.permitted_of_successors expanded,
            fun x leads => .inr (List.mem_append_left _ ((opened x).mpr leads))⟩
        · have ⟨permitted, covered⟩ := valid.closed u q before at_u
          exact ⟨permitted, fun x leads => kept x (covered x leads)⟩

/-- A step that fails shows a rule that is broken. -/
theorem exhibits_of_step {depths : List (Option Nat)} {v : Visit} {rest : List Visit}
    {e : MethodDefect} (nonempty : code ≠ []) (valid : Invariant code ⟨depths, v :: rest⟩)
    (error : step code ⟨depths, v :: rest⟩ = .error e) : Exhibits code e := by
  have reached := valid.pending v List.mem_cons_self
  obtain ⟨p, here, ⟨first, found, steps⟩ | ⟨_, steps⟩⟩ :=
    step_cases (valid.inside nonempty)
  · rw [steps] at error
    split at error
    · cases error
    · rename_i different
      cases error
      have recorded := valid.recorded ⟨v.index, first⟩ found
      exact .mismatch recorded reached rfl here different
  · rw [steps] at error
    cases expanded : v.successors code p with
    | error e =>
      simp only [expanded, Except.map, Except.error.injEq] at error
      subst error
      exact Visit.exhibits_of_successors reached here expanded
    | ok visits => simp [expanded, Except.map] at error

theorem Invariant.recorded_iff {depths : List (Option Nat)} (nonempty : code ≠ [])
    (valid : Invariant code ⟨depths, []⟩) (v : Visit) :
    depths[v.index]? = some (some v.depth) ↔ Reached code v := by
  have made (u : Visit) (covered : Covers ⟨depths, []⟩ u) :
      depths[u.index]? = some (some u.depth) := covered.resolve_right List.not_mem_nil
  constructor
  · exact valid.recorded v
  · intro reached
    induction reached with
    | entry => exact made _ valid.entry
    | @next u x before leads ih =>
      have here : code[u.index]? = some _ :=
        List.getElem?_eq_getElem (before.index_lt nonempty)
      exact made x ((valid.closed u _ ih here).2 x leads)

theorem Invariant.disciplined {depths : List (Option Nat)} (nonempty : code ≠ [])
    (valid : Invariant code ⟨depths, []⟩) : Disciplined code where
  nonempty := nonempty
  consistent v w first second same := by
    rw [← valid.recorded_iff nonempty] at first second
    rw [same, second] at first
    exact (Option.some.inj (Option.some.inj first)).symm
  permitted v p reached here :=
    (valid.closed v p ((valid.recorded_iff nonempty v).mpr reached) here).1

/-- A verdict that is true of the paths. One that accepts comes with the depths on them. -/
def Truthful (code : List Placed) : Except MethodDefect (List (Option Nat)) → Prop
  | .ok depths => Disciplined code ∧
      ∀ v : Visit, depths[v.index]? = some (some v.depth) ↔ Reached code v
  | .error _ => ¬ Disciplined code

theorem Truthful.accepts_iff {verdict : Except MethodDefect (List (Option Nat))}
    (truthful : Truthful code verdict) :
    (∃ depths, verdict = .ok depths) ↔ Disciplined code := by
  cases verdict with
  | ok depths => exact ⟨fun _ => truthful.1, fun _ => ⟨depths, rfl⟩⟩
  | error e =>
    constructor
    · rintro ⟨depths, ok⟩
      cases ok
    · intro rules
      exact absurd rules truthful

/-- In whatever order the visits are made, the verdict is the one that the paths dictate. -/
theorem Settles.truthful {verdict : Except MethodDefect (List (Option Nat))}
    (settles : Settles code w verdict) (distinct : Placed.Distinct code) (nonempty : code ≠ [])
    (valid : Invariant code w) : Truthful code verdict := by
  induction settles with
  | done => exact ⟨valid.disciplined nonempty, valid.recorded_iff nonempty⟩
  | fail order error =>
    exact (exhibits_of_step nonempty (valid.reorder order) error).not_disciplined
  | visit order ok _ ih => exact ih (step_invariant distinct nonempty (valid.reorder order) ok)

/-- In whatever order the visits are made, the defect that is found is one of the paths. -/
theorem Settles.exhibits {verdict : Except MethodDefect (List (Option Nat))}
    (settles : Settles code w verdict) (distinct : Placed.Distinct code) (nonempty : code ≠ [])
    (valid : Invariant code w) : ∀ e, verdict = .error e → Exhibits code e := by
  induction settles with
  | done =>
    intro e error
    cases error
  | fail order error =>
    rintro e ⟨⟩
    exact exhibits_of_step nonempty (valid.reorder order) error
  | visit order ok _ ih => exact ih (step_invariant distinct nonempty (valid.reorder order) ok)

theorem settles_run (code : List Placed) (w : Walk) : Settles code w (w.run code) := by
  fun_induction run code w with
  | case1 w pending =>
    obtain ⟨depths, _⟩ := w
    subst pending
    exact .done
  | case2 w pending e taken =>
    obtain ⟨v, rest, split⟩ := List.exists_cons_of_ne_nil pending
    exact .fail (.of_eq split) (split ▸ taken)
  | case3 w pending next taken _ ih =>
    obtain ⟨v, rest, split⟩ := List.exists_cons_of_ne_nil pending
    exact .visit (.of_eq split) (split ▸ taken) ih

end Walk

theorem stackDepths_truthful {code : List Placed} (distinct : Placed.Distinct code) :
    Walk.Truthful code (stackDepths code) := by
  by_cases empty : code = []
  · subst empty
    exact fun rules => rules.nonempty rfl
  · have run : stackDepths code = (Walk.start code).run code := by simp [stackDepths, empty]
    rw [run]
    exact (Walk.settles_run code _).truthful distinct empty (Walk.start_invariant code)

theorem exhibits_of_stackDepths {code : List Placed} {e : MethodDefect}
    (distinct : Placed.Distinct code) (error : stackDepths code = .error e) : Exhibits code e := by
  by_cases empty : code = []
  · subst empty
    cases error
    exact .empty rfl
  · have run : stackDepths code = (Walk.start code).run code := by simp [stackDepths, empty]
    have settles := Walk.settles_run code (Walk.start code)
    exact settles.exhibits distinct empty (Walk.start_invariant code) e (run ▸ error)

/-- The depth check accepts the listing of a piece of code exactly if all paths through it keep
the rules. So does a walk that makes its visits in any other order, and instructions that no path
reaches have no say. -/
theorem stackDepths_decides_paths {bytes : List UInt8} {code : List Placed}
    (listed : listing 0 bytes = .ok code) :
    ((∃ depths, stackDepths code = .ok depths) ↔ Disciplined code) ∧
    (∀ verdict, code ≠ [] → Walk.Settles code (Walk.start code) verdict →
      ((∃ depths, verdict = .ok depths) ↔ ∃ depths, stackDepths code = .ok depths)) ∧
    (∀ other, AlikeWhereReached code other →
      ((∃ depths, stackDepths other = .ok depths) ↔ ∃ depths, stackDepths code = .ok depths)) := by
  have distinct := (Placed.gapless_of_listing listed).1.distinct
  have accepts := (stackDepths_truthful distinct).accepts_iff
  refine ⟨accepts, ?_, ?_⟩
  · intro verdict nonempty settles
    have truthful := settles.truthful distinct nonempty (Walk.start_invariant code)
    rw [accepts, truthful.accepts_iff]
  · intro other alike
    have truthful := stackDepths_truthful (alike.distinct distinct)
    rw [accepts, truthful.accepts_iff, alike.disciplined_iff]

/-- A loop that pops what it pushed, left by a conditional jump, with an instruction behind the
return that no path reaches. -/
theorem loop_disciplined :
    ∃ code, listing 0 [0x12, 0x91, 5, 0, 0, 0, 0x90, 0xF5, 0xFF, 0xFF, 0xFF, 0xA3, 0x01] =
      .ok code ∧ Disciplined code := by
  have listed : listing 0 [0x12, 0x91, 5, 0, 0, 0, 0x90, 0xF5, 0xFF, 0xFF, 0xFF, 0xA3, 0x01] =
      .ok [⟨0, .loadFixed 0⟩, ⟨1, .jump .ifFalse 5⟩, ⟨6, .jump .always (-11)⟩, ⟨11, .returnVoid⟩,
        ⟨12, .stack .pop⟩] := by cbv
  have accepted := (stackDepths_decides_paths listed).1
  exact ⟨_, listed, accepted.mp ⟨[some 0, some 1, some 0, some 0, none], by cbv⟩⟩

end Rowwise
