import Rowwise.Proofs.Verify.Walk

/-! How many visits the walk over stack depths makes. Jumps may lead back, so it can come to an
instruction again and again. What ends it is that only the first visit to an instruction leads to
others, and to two at most. -/
namespace Rowwise

namespace Visit

variable {code : List Placed} {u v : Visit} {p : Placed} {depth : Nat}

theorem index_lt_of_jumps {taken : List Visit} (ok : jumps code p depth = .ok taken)
    (member : u ∈ taken) : u.index < code.length := by
  unfold jumps at ok
  split at ok
  · cases ok
    exact absurd member List.not_mem_nil
  split at ok
  · cases ok
  rename_i found
  cases ok
  obtain ⟨q, there, _⟩ := indexOf?_eq_some found
  rw [List.mem_singleton.mp member]
  exact (List.getElem?_eq_some_iff.mp there).1

theorem index_lt_of_successors {next : List Visit} (ok : successors code v p = .ok next)
    (member : u ∈ next) : u.index < code.length := by
  obtain ⟨_, taken, passed, jumped, fallen, rfl⟩ := successors_ok ok
  obtain ⟨continues, fall⟩ := falls_ok fallen
  rcases List.mem_append.mp member with following | target
  · obtain ⟨through, rfl⟩ := (fall u).mp following
    exact continues through
  · exact index_lt_of_jumps jumped target

end Visit

namespace Walk

/-- The instruction that the next visit expands: the one it comes to, if it has no depth yet. -/
def expanded? (w : Walk) : Option Nat :=
  match w.pending with
  | [] => none
  | v :: _ => if w.depths[v.index]? = some none then some v.index else none

/-- What a visit does to a walk. It is taken off the visits to come, and only one that expands an
instruction adds any, two at most; that instruction has a depth from then on. -/
structure Advances (w next : Walk) : Prop where
  pending : ∃ added, next.pending = added ++ w.pending.tail ∧ added.length ≤ 2 ∧
    (w.expanded? = none → added = [])
  depths : ∀ i, next.depths[i]? = some none ↔ w.depths[i]? = some none ∧ w.expanded? ≠ some i

/-- The loop: the walks before each of its visits, in order, and the verdict it ends with. A visit
that fails is the last one. -/
inductive Passes (code : List Placed) :
    Walk → List Walk → Except MethodDefect (List (Option Nat)) → Prop where
  | done {w : Walk} : w.pending = [] → Passes code w [] (.ok w.depths)
  | fail {w : Walk} {e : MethodDefect} : w.pending ≠ [] → w.step code = .error e →
      Passes code w [w] (.error e)
  | visit {w next : Walk} {later : List Walk} {verdict} : w.pending ≠ [] →
      w.step code = .ok next → Passes code next later verdict →
      Passes code w (w :: later) verdict

variable {code : List Placed} {w next : Walk} {states : List Walk}
  {verdict : Except MethodDefect (List (Option Nat))}

theorem depths_of_expanded {i : Nat} (expanded : w.expanded? = some i) :
    w.depths[i]? = some none := by
  unfold expanded? at expanded
  split at expanded
  · cases expanded
  · split at expanded
    · rename_i unseen
      cases expanded
      exact unseen
    · cases expanded

/-- A visit that does not fail drops out, or it expands an instruction that had no depth. -/
theorem Inside.step_ok {depths : List (Option Nat)} {v : Visit} {rest : List Visit}
    (inside : Inside code ⟨depths, v :: rest⟩) (ok : step code ⟨depths, v :: rest⟩ = .ok next) :
    (depths[v.index]? ≠ some none ∧ next = ⟨depths, rest⟩) ∨
      ∃ p visits, depths[v.index]? = some none ∧ v.successors code p = .ok visits ∧
        next = ⟨depths.set v.index (some v.depth), visits ++ rest⟩ := by
  obtain ⟨p, _, ⟨first, found, steps⟩ | ⟨unseen, steps⟩⟩ := step_cases inside
  · rw [steps] at ok
    split at ok
    · cases ok
      exact .inl ⟨by simp [found], rfl⟩
    · cases ok
  · rw [steps] at ok
    cases expanded : v.successors code p with
    | error e => simp [expanded, Except.map] at ok
    | ok visits =>
      simp only [expanded, Except.map, Except.ok.injEq] at ok
      exact .inr ⟨p, visits, unseen, expanded, ok.symm⟩

/-- No visit ever leads outside the listing, whatever its jumps are. -/
theorem Inside.step (inside : Inside code w) (pending : w.pending ≠ [])
    (ok : w.step code = .ok next) : Inside code next := by
  obtain ⟨depths, _ | ⟨v, rest⟩⟩ := w
  · exact absurd rfl pending
  have later : ∀ u ∈ rest, u.index < code.length := fun u member =>
    inside.pending u (List.mem_cons_of_mem v member)
  obtain ⟨_, rfl⟩ | ⟨p, visits, _, expanded, rfl⟩ := inside.step_ok ok
  · exact ⟨inside.length, later⟩
  · refine ⟨by simpa using inside.length, fun u member => ?_⟩
    rcases List.mem_append.mp member with fresh | old
    · exact Visit.index_lt_of_successors expanded fresh
    · exact later u old

theorem Inside.advances (inside : Inside code w) (pending : w.pending ≠ [])
    (ok : w.step code = .ok next) : Advances w next := by
  obtain ⟨depths, _ | ⟨v, rest⟩⟩ := w
  · exact absurd rfl pending
  obtain ⟨seen, rfl⟩ | ⟨p, visits, unseen, expanded, rfl⟩ := inside.step_ok ok
  · have skips : expanded? ⟨depths, v :: rest⟩ = none := by simp [expanded?, seen]
    exact ⟨⟨[], rfl, Nat.zero_le 2, fun _ => rfl⟩, by simp [skips]⟩
  · have expands : expanded? ⟨depths, v :: rest⟩ = some v.index := by simp [expanded?, unseen]
    refine ⟨⟨visits, rfl, Visit.length_successors expanded, by simp [expands]⟩, fun i => ?_⟩
    have room := (List.getElem?_eq_some_iff.mp unseen).1
    by_cases same : v.index = i
    · subst same
      simp [expands, room]
    · simp [expands, same]

namespace Passes

theorem of_run (code : List Placed) (w : Walk) : ∃ states, Passes code w states (w.run code) := by
  fun_induction run code w with
  | case1 w pending => exact ⟨[], .done pending⟩
  | case2 w pending e taken => exact ⟨[w], .fail pending taken⟩
  | case3 w pending next taken _ ih =>
    obtain ⟨later, passes⟩ := ih
    exact ⟨w :: later, .visit pending taken passes⟩

/-- The loop has no choice. -/
theorem unique {other : List Walk} {another : Except MethodDefect (List (Option Nat))}
    (first : Passes code w states verdict) (second : Passes code w other another) :
    other = states ∧ another = verdict := by
  induction first generalizing other with
  | done finished =>
    cases second with
    | done => exact ⟨rfl, rfl⟩
    | fail pending | visit pending => exact absurd finished pending
  | fail pending error =>
    cases second with
    | done finished => exact absurd finished pending
    | fail _ same =>
      cases error.symm.trans same
      exact ⟨rfl, rfl⟩
    | visit _ ok => cases error.symm.trans ok
  | visit pending ok _ ih =>
    cases second with
    | done finished => exact absurd finished pending
    | fail _ error => cases ok.symm.trans error
    | visit _ same later =>
      cases ok.symm.trans same
      obtain ⟨rfl, rfl⟩ := ih later
      exact ⟨rfl, rfl⟩

theorem length_le (passes : Passes code w states verdict) : states.length ≤ w.cost := by
  induction passes with
  | done => exact Nat.zero_le _
  | @fail w _ pending =>
    have := List.length_pos_iff.mpr pending
    simp only [cost, List.length_singleton]
    omega
  | visit pending ok _ ih =>
    have := cost_step pending ok
    simp only [List.length_cons]
    omega

/-- An instruction that is expanded had no depth before, so none is expanded again. -/
theorem expanded (passes : Passes code w states verdict) (inside : Inside code w) :
    (states.filterMap expanded?).Nodup ∧
      ∀ i ∈ states.filterMap expanded?, w.depths[i]? = some none := by
  induction passes with
  | done => simp
  | @fail w =>
    cases now : w.expanded? with
    | none => simp [now]
    | some i => simp [now, depths_of_expanded now]
  | @visit w next later _ pending ok _ ih =>
    obtain ⟨distinct, unseen⟩ := ih (inside.step pending ok)
    have before (i : Nat) (member : i ∈ later.filterMap expanded?) :=
      ((inside.advances pending ok).depths i).mp (unseen i member)
    cases now : w.expanded? with
    | none =>
      rw [List.filterMap_cons_none now]
      exact ⟨distinct, fun i member => (before i member).1⟩
    | some i =>
      rw [List.filterMap_cons_some now]
      refine ⟨List.nodup_cons.mpr ⟨fun again => (before i again).2 now, distinct⟩, ?_⟩
      intro j member
      rcases List.mem_cons.mp member with rfl | member
      · exact depths_of_expanded now
      · exact (before j member).1

theorem inside (passes : Passes code w states verdict) (start : Inside code w) :
    ∀ s ∈ states, s.pending ≠ [] ∧ Inside code s := by
  induction passes with
  | done => simp
  | fail pending => simpa using ⟨pending, start⟩
  | visit pending ok _ ih =>
    intro s member
    rcases List.mem_cons.mp member with rfl | member
    · exact ⟨pending, start⟩
    · exact ih (start.step pending ok) s member

end Passes

theorem cost_start (code : List Placed) : (start code).cost = 2 * code.length + 1 := by
  simp [start, cost, List.map_const']

end Walk

/-- The depth check as a loop: the walks before its visits and its verdict. It has no visit to make
where there is no instruction. -/
def ChecksDepths (code : List Placed) (states : List Walk)
    (verdict : Except MethodDefect (List (Option Nat))) : Prop :=
  if code.isEmpty then states = [] ∧ verdict = .error (.fallOffEnd 0)
  else Walk.Passes code (Walk.start code) states verdict

/-- The depth check ends for every listing, with two visits for each instruction at most and one
more. Each visit is to an instruction of the listing, none is expanded twice, and a visit adds two
others at most, or none if it expands nothing. -/
theorem depth_check_ends (code : List Placed) :
    ∃ states : List Walk,
      (∀ other verdict, ChecksDepths code other verdict ↔
        other = states ∧ verdict = stackDepths code) ∧
      states.length ≤ 2 * code.length + 1 ∧
      (states.filterMap Walk.expanded?).Nodup ∧
      ∀ w ∈ states, w.pending ≠ [] ∧ (∀ v ∈ w.pending, v.index < code.length) ∧
        ∀ next, w.step code = .ok next → Walk.Advances w next := by
  by_cases empty : code = []
  · subst empty
    exact ⟨[], fun _ _ => Iff.rfl, Nat.zero_le _, List.nodup_nil, by simp⟩
  · obtain ⟨states, passes⟩ := Walk.Passes.of_run code (Walk.start code)
    have run : stackDepths code = (Walk.start code).run code := by simp [stackDepths, empty]
    have start : Walk.Inside code (Walk.start code) :=
      (Walk.start_invariant code).inside empty
    refine ⟨states, fun other verdict => ?_, ?_, (passes.expanded start).1, fun w member => ?_⟩
    · simp only [ChecksDepths, List.isEmpty_iff, empty, if_false, run]
      constructor
      · exact passes.unique
      · rintro ⟨rfl, rfl⟩
        exact passes
    · exact Walk.cost_start code ▸ passes.length_le
    · obtain ⟨pending, inside⟩ := passes.inside start w member
      exact ⟨pending, inside.pending, fun next ok => inside.advances pending ok⟩

def spin : List Placed := [⟨0, .jump .always (-5)⟩]

/-- The jump is visited twice and expanded once. -/
theorem spin_check_ends :
    ∃ states, ChecksDepths spin states (.ok [some 0]) ∧ states.length ≤ 3 ∧
      states.map Walk.expanded? = [some 0, none] := by
  have run : ChecksDepths spin [Walk.start spin, ⟨[some 0], [⟨0, 0⟩]⟩] (.ok [some 0]) :=
    .visit (List.cons_ne_nil _ _) rfl (.visit (List.cons_ne_nil _ _) rfl (.done rfl))
  obtain ⟨states, only, few, _⟩ := depth_check_ends spin
  obtain ⟨rfl, _⟩ := (only _ _).mp run
  exact ⟨_, run, few, rfl⟩

end Rowwise
