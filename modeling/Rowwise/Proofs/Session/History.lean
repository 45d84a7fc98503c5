import Rowwise.Proofs.Session.Steps

/-! What the past of a session says about its namespaces: each has exactly the types that it was
asked for with success, and the first success with a name counts. -/
namespace Rowwise.Session

/-- Nothing that is in a namespace gets lost. -/
def Extends (s t : Session) : Prop :=
  ∀ (p : Nat) (sp : Space), s.spaces[p]? = some sp → ∃ sp', t.spaces[p]? = some sp' ∧ sp.Grows sp'

theorem Extends.refl (s : Session) : s.Extends s := fun _ sp there => ⟨sp, there, .refl sp⟩

theorem Extends.trans {s t u : Session} (first : s.Extends t) (second : t.Extends u) :
    s.Extends u := by
  intro p sp there
  obtain ⟨sp', there', grows⟩ := first p sp there
  obtain ⟨sp'', there'', more⟩ := second p sp' there'
  exact ⟨sp'', there'', grows.trans more⟩

namespace Moment

variable {m : Moment} {p : Nat} {n : String} {t : LoadedType} {sp sp' : Space}
  {result : Except Error LoadedType}

/-- The answer is the type, or the complaint. -/
def Tells (m : Moment) : Except Error LoadedType → Prop
  | .ok t => ∃ names, m.answer = .ok (.type t names)
  | .error e => m.answer = .error (.failed e)

theorem Tells.unique {result' : Except Error LoadedType} (tells : m.Tells result)
    (tells' : m.Tells result') : result = result' := by
  cases result with
  | ok t =>
    obtain ⟨names, told⟩ := tells
    cases result' with
    | ok t' =>
      obtain ⟨names', told'⟩ := tells'
      cases told.symm.trans told'
      rfl
    | error e => cases told.symm.trans tells'
  | error e =>
    cases result' with
    | ok t' =>
      obtain ⟨names', told'⟩ := tells'
      cases Eq.trans (Eq.symm tells) told'
    | error e' =>
      cases Eq.trans (Eq.symm tells) tells'
      rfl

theorem tells_of_told (answer : m.answer = told result m.before) : m.Tells result := by
  cases result with
  | ok t => exact ⟨_, answer⟩
  | error e => exact answer

theorem tells_told (s s' : Session) (step : Step) (result : Except Error LoadedType) :
    Tells ⟨s, step, told result s, s'⟩ result := tells_of_told rfl

/-- The namespace at a position is asked for a type, to be resolved or registered. -/
def Asks (m : Moment) (p : Nat) (n : String) (sp : Space) : Prop :=
  ∃ name keptAs, m.step.Asks name n keptAs ∧ m.before.locate? name = some (p, sp)

/-- The namespace at a position defines a type, or gives it again. -/
def Defines (m : Moment) (p : Nat) (n : String) (t : LoadedType) : Prop :=
  (∃ sp, m.Asks p n sp) ∧ m.Tells (.ok t)

theorem Asks.there (asks : m.Asks p n sp) : m.before.spaces[p]? = some sp := by
  obtain ⟨name, keptAs, -, found⟩ := asks
  exact (locate?_eq_some.mp found).2

/-- A namespace stays as it is, unless it is asked for a type. -/
theorem Acts.kept (acts : m.Acts) (there : m.before.spaces[p]? = some sp) :
    m.after.spaces[p]? = some sp ∨ ∃ n result sp', m.Asks p n sp ∧ m.Tells result ∧
      sp.Answers n result sp' ∧ m.after.spaces[p]? = some sp' := by
  cases acts with
  | rests same _ => exact .inl (same.spaces ▸ there)
  | opens _ _ _ =>
    obtain ⟨inside, -⟩ := List.getElem?_eq_some_iff.mp there
    exact .inl ((List.getElem?_append_left inside).trans there)
  | serves _ => exact .inl there
  | makesHandle _ _ => exact .inl there
  | grants _ => exact .inl there
  | @asks _ _ name n keptAs q _ new result asks found answers =>
    by_cases here : p = q
    · subst here
      cases there.symm.trans (locate?_eq_some.mp found).2
      refine .inr ⟨n, result, new, ⟨name, keptAs, asks, found⟩, tells_told .., answers, ?_⟩
      rw [spaces_withType, spaces_withSpace there]
    · refine .inl ?_
      rw [spaces_withType, withSpace, List.getElem?_set_ne (Ne.symm here), there]

/-- Where the namespaces of a session come from. -/
theorem Acts.space_cases (acts : m.Acts) (there : m.after.spaces[p]? = some sp') :
    m.before.spaces[p]? = some sp' ∨ sp'.id = ⟨p + 1⟩ ∧ sp'.types = [] ∨
      ∃ n result sp, m.Asks p n sp ∧ m.Tells result ∧ sp.Answers n result sp' := by
  cases before : m.before.spaces[p]? with
  | some sp =>
    rcases acts.kept before with same | ⟨n, result, new, asks, told, answers, there'⟩
    · exact .inl (same.symm.trans there)
    · cases there'.symm.trans there
      exact .inr (.inr ⟨n, result, sp, asks, told, answers⟩)
  | none =>
    have outside := List.getElem?_eq_none_iff.mp before
    cases acts with
    | rests same _ => cases before.symm.trans (same.spaces ▸ there)
    | serves _ => cases before.symm.trans there
    | makesHandle _ _ => cases before.symm.trans there
    | grants _ => cases before.symm.trans there
    | @opens s _ _ new _ id types =>
      obtain ⟨rfl, rfl⟩ : p = s.spaces.length ∧ new = sp' := by
        have outside : s.spaces.length ≤ p := outside
        rw [withNewSpace, List.getElem?_append_right outside] at there
        cases beyond : p - s.spaces.length with
        | zero => exact ⟨by omega, by simpa [beyond] using there⟩
        | succ _ => simp [beyond] at there
      exact .inr (.inl ⟨id, types⟩)
    | asks _ found _ =>
      rw [spaces_withType, withSpace, List.getElem?_eq_none (by simpa using outside)] at there
      cases there

/-- A namespace that gives a type has it or adds it. -/
theorem Acts.answers_of_tells (acts : m.Acts) (asks : m.Asks p n sp) (tells : m.Tells (.ok t)) :
    ∃ sp', sp.Answers n (.ok t) sp' ∧ m.after.spaces[p]? = some sp' := by
  obtain ⟨name, keptAs, asks, found⟩ := asks
  cases acts with
  | rests _ refused =>
    obtain ⟨refusal, rfl⟩ := refused asks.makes
    obtain ⟨_, ⟨⟩⟩ := tells
  | opens _ _ _ => obtain ⟨_, ⟨⟩⟩ := tells
  | serves _ => obtain ⟨_, ⟨⟩⟩ := tells
  | makesHandle _ _ => obtain ⟨_, ⟨⟩⟩ := tells
  | grants _ => obtain ⟨_, ⟨⟩⟩ := tells
  | asks asks' found' answers =>
    obtain ⟨rfl, rfl⟩ := asks.unique asks'
    cases found.symm.trans found'
    cases (tells_told ..).unique tells
    exact ⟨_, answers, by rw [spaces_withType, spaces_withSpace (locate?_eq_some.mp found).2]⟩

/-- A type that a namespace gives is found there from then on. -/
theorem Acts.find_of_defines (acts : m.Acts) (defines : m.Defines p n t) :
    ∃ sp, m.after.spaces[p]? = some sp ∧ sp.find? n = some t := by
  obtain ⟨⟨sp, asks⟩, tells⟩ := defines
  obtain ⟨sp', answers, there⟩ := acts.answers_of_tells asks tells
  exact ⟨sp', there, answers.find⟩

theorem Acts.grows (acts : m.Acts) : m.before.Extends m.after := by
  intro p sp there
  rcases acts.kept there with same | ⟨n, result, sp', -, -, answers, there'⟩
  · exact ⟨sp, same, .refl sp⟩
  · exact ⟨sp', there', answers.grows⟩

end Moment

theorem extends_run (fuel : Nat) (steps : List Step) (s : Session) :
    s.Extends (run fuel steps s).2 := by
  induction steps generalizing s with
  | nil => exact .refl s
  | cons step rest ih =>
    have first := (acts_moment fuel step s).grows
    rw [before_moment] at first
    rw [run_cons]
    exact first.trans (ih _)

/-- What a session and its past say about each other. -/
structure Recorded (past : List Moment) (s : Session) : Prop where
  id {p : Nat} {sp : Space} : s.spaces[p]? = some sp → sp.id = ⟨p + 1⟩
  home {p : Nat} {sp : Space} {n : String} {t : LoadedType} :
    s.spaces[p]? = some sp → sp.find? n = some t → t.space = sp.id
  names {p : Nat} {sp : Space} : s.spaces[p]? = some sp → (sp.types.map (·.name)).Nodup
  /-- What a namespace gave once it has. -/
  found {m : Moment} {p : Nat} {n : String} {t : LoadedType} : m ∈ past → m.Defines p n t →
    ∃ sp, s.spaces[p]? = some sp ∧ sp.find? n = some t
  /-- What a namespace has it gave at a first time. -/
  defined {p : Nat} {sp : Space} {n : String} {t : LoadedType} :
    s.spaces[p]? = some sp → sp.find? n = some t → ∃ earlier m, earlier ++ [m] <+: past ∧
      m.Defines p n t ∧ ∀ m' ∈ earlier, ∀ t', ¬ m'.Defines p n t'

namespace Recorded

variable {past : List Moment} {m : Moment}

theorem first (files : FileTree) : Recorded [] { files } where
  id there := by cases there
  home there := by cases there
  names there := by cases there
  found member := by cases member
  defined there := by cases there

theorem step (recorded : Recorded past m.before) (acts : m.Acts) :
    Recorded (past ++ [m]) m.after where
  id {p sp} there := by
    rcases acts.space_cases there with before | ⟨id, -⟩ | ⟨n, result, sp', asks, -, answers⟩
    · exact recorded.id before
    · exact id
    · rw [answers.grows.id, recorded.id asks.there]
  home {p sp n t} there found := by
    rcases acts.space_cases there with before | ⟨-, types⟩ | ⟨n', result, sp', asks, -, answers⟩
    · exact recorded.home before found
    · simp [Space.find?, types] at found
    · rw [answers.grows.id]
      rcases answers.find_cases found with before | ⟨-, -, -, home⟩
      · exact recorded.home asks.there before
      · exact home
  names {p sp} there := by
    rcases acts.space_cases there with before | ⟨-, types⟩ | ⟨n, result, sp', asks, -, answers⟩
    · exact recorded.names before
    · simp [types]
    · exact answers.nodup_names (recorded.names asks.there)
  found {m' p n t} member defines := by
    rcases List.mem_append.mp member with before | here
    · obtain ⟨sp, there, found⟩ := recorded.found before defines
      obtain ⟨sp', there', grows⟩ := acts.grows p sp there
      exact ⟨sp', there', grows.find found⟩
    · cases List.mem_singleton.mp here
      exact acts.find_of_defines defines
  defined {p sp n t} there found := by
    have old : ∀ {sp}, m.before.spaces[p]? = some sp → sp.find? n = some t →
        ∃ earlier m', earlier ++ [m'] <+: past ++ [m] ∧ m'.Defines p n t ∧
          ∀ m'' ∈ earlier, ∀ t', ¬ m''.Defines p n t' := by
      intro sp before found
      obtain ⟨earlier, m', here, defines, first⟩ := recorded.defined before found
      exact ⟨earlier, m', here.trans (List.prefix_append ..), defines, first⟩
    rcases acts.space_cases there with before | ⟨-, types⟩ | ⟨n', result, sp', asks, tells, answers⟩
    · exact old before found
    · simp [Space.find?, types] at found
    · rcases answers.find_cases found with before | ⟨rfl, rfl, new, -⟩
      · exact old asks.there before
      · refine ⟨past, m, List.prefix_rfl, ⟨⟨sp', asks⟩, tells⟩, ?_⟩
        intro m' member t' defines
        obtain ⟨sp'', there', found'⟩ := recorded.found member defines
        cases asks.there.symm.trans there'
        cases new.symm.trans found'

theorem find?_iff {s : Session} {p : Nat} {sp : Space} {n : String} {t : LoadedType}
    (recorded : Recorded past s) (there : s.spaces[p]? = some sp) :
    sp.find? n = some t ↔ ∃ m ∈ past, m.Defines p n t := by
  constructor
  · intro found
    obtain ⟨earlier, m, here, defines, -⟩ := recorded.defined there found
    exact ⟨m, here.subset (by simp), defines⟩
  · rintro ⟨m, member, defines⟩
    obtain ⟨sp', there', found⟩ := recorded.found member defines
    cases there.symm.trans there'
    exact found

end Recorded

theorem recorded_run (fuel : Nat) (files : FileTree) (steps : List Step) :
    Recorded (log fuel steps { files }) (run fuel steps { files }).2 := by
  refine holds_along ?_ [] (.first files) steps
  intro past s step recorded
  have before := before_moment fuel step s
  exact Recorded.step (before.symm ▸ recorded) (acts_moment fuel step s)

/-- A moment of a session that begins with nothing but files: what is recorded just before it, and
that nothing gets lost after it. -/
structure Stands (fuel : Nat) (earlier : List Moment) (m : Moment) (final : Session) : Prop where
  made : m = moment fuel m.step m.before
  recorded : Recorded earlier m.before
  grows : m.before.Extends final

theorem Stands.acts {fuel : Nat} {earlier : List Moment} {m : Moment} {final : Session}
    (stands : Stands fuel earlier m final) : m.Acts := by
  rw [stands.made]
  exact acts_moment fuel m.step m.before

theorem stands_of_log {fuel : Nat} {files : FileTree} {steps : List Step}
    {earlier : List Moment} {m : Moment} (here : earlier ++ [m] <+: log fuel steps { files }) :
    Stands fuel earlier m (run fuel steps { files }).2 := by
  obtain ⟨first, rest, rfl, made, final⟩ := exists_run_before here
  have before : m.before = (run fuel first { files }).2 := by rw [made, before_moment]
  rw [← before] at made
  have acts := acts_moment fuel m.step m.before
  rw [← made] at acts
  exact ⟨made, before ▸ recorded_run fuel files first,
    final ▸ acts.grows.trans (extends_run fuel rest m.after)⟩

end Rowwise.Session
