import Rowwise.Proofs.Outcome
import Rowwise.Proofs.Session.Log
import Rowwise.Proofs.Space.Store

/-! What the steps of a session do to its objects, said once for every kind of step. -/
namespace Rowwise

namespace Shelf

variable {α : Type} {name name' : String} {a b : α} {shelf : Shelf α}

theorem find?_put (name : String) (a : α) (shelf : Shelf α) :
    (shelf.put name a).find? name = some a := by
  simp [find?, put]

theorem lookup_filter_other (other : name' ≠ name) (entries : List (String × α)) :
    (entries.filter (·.1 != name)).lookup name' = entries.lookup name' := by
  induction entries with
  | nil => rfl
  | cons entry rest ih =>
    obtain ⟨taken, a⟩ := entry
    by_cases same : taken = name
    · rw [List.filter_cons_of_neg (by simp [same]), ih, List.lookup_cons,
        beq_false_of_ne (same ▸ other)]
    · rw [List.filter_cons_of_pos (by simp [same]), List.lookup_cons, List.lookup_cons, ih]

theorem find?_put_other (other : name' ≠ name) (a : α) (shelf : Shelf α) :
    (shelf.put name a).find? name' = shelf.find? name' := by
  rw [find?, put, List.lookup_cons, beq_false_of_ne other]
  exact lookup_filter_other other shelf.entries

theorem find?_put_cases (found : (shelf.put name a).find? name' = some b) :
    name' = name ∧ b = a ∨ name' ≠ name ∧ shelf.find? name' = some b := by
  by_cases same : name' = name
  · subst same
    rw [find?_put] at found
    exact .inl ⟨rfl, (Option.some.inj found).symm⟩
  · rw [find?_put_other same] at found
    exact .inr ⟨same, found⟩

end Shelf

namespace Session

def locate? (s : Session) (name : String) : Option (Nat × Space) :=
  (s.spaceNames.find? name).bind fun position => (s.spaces[position]?).map (position, ·)

def invoker? (s : Session) (name : String) : Option Invoker :=
  (s.invokers.find? name).or ((s.locate? name).map (·.2.invoker))

variable {α β : Type} {fuel : Nat} {s t : Session} {name n : String} {p : Nat} {sp : Space}

theorem locate?_eq_some : s.locate? name = some (p, sp) ↔
    s.spaceNames.find? name = some p ∧ s.spaces[p]? = some sp := by
  simp only [locate?, Option.bind_eq_some_iff, Option.map_eq_some_iff, Prod.mk.injEq]
  grind

theorem run_known (name : String) (shelf : Session → Shelf α) (s : Session) :
    known name shelf s = match (shelf s).find? name with
      | some a => .ok a s
      | none => .error (.unknownName name) s := by
  change (match (shelf s).find? name with
    | some a => return a
    | none => throw (.unknownName name) : SessionM α) s = _
  cases (shelf s).find? name <;> rfl

theorem run_check (result : Except Error α) (s : Session) :
    check result s = match result with
      | .ok a => .ok a s
      | .error e => .error (.failed e) s := by
  cases result <;> rfl

theorem run_space (name : String) (s : Session) :
    space name s = match s.locate? name with
      | some found => .ok found s
      | none => .error (.unknownName name) s := by
  have whole : (get : SessionM Session) s = .ok s s := rfl
  unfold locate?
  cases known' : s.spaceNames.find? name with
  | none =>
    have first : known name (·.spaceNames) s = .error (.unknownName name) s := by
      rw [run_known, known']
    rw [space, run_bind_of_error first]
    rfl
  | some p =>
    have first : known name (·.spaceNames) s = .ok p s := by rw [run_known, known']
    rw [space, run_bind_of_ok first, run_bind_of_ok whole]
    cases there : s.spaces[p]? <;> simp only [Option.bind_some, there] <;> rfl

theorem run_invoker (name : String) (s : Session) :
    invoker name s = match s.invoker? name with
      | some i => .ok i s
      | none => .error (.unknownName name) s := by
  change (match s.invokers.find? name with
    | some i => return i
    | none => return (← space name).2.invoker : SessionM Invoker) s = _
  unfold invoker?
  cases s.invokers.find? name with
  | some i => rfl
  | none =>
    change EStateM.bind (space name) _ s = _
    rw [EStateM.bind, run_space]
    cases s.locate? name <;> rfl

/-! Steps that make nothing. -/

structure SameObjects (s t : Session) : Prop where
  spaces : t.spaces = s.spaces
  spaceNames : t.spaceNames = s.spaceNames
  invokers : t.invokers = s.invokers
  types : t.types = s.types
  handles : t.handles = s.handles

theorem SameObjects.refl (s : Session) : s.SameObjects s := ⟨rfl, rfl, rfl, rfl, rfl⟩

theorem SameObjects.trans {u : Session} (first : s.SameObjects t) (second : t.SameObjects u) :
    s.SameObjects u :=
  ⟨second.spaces.trans first.spaces, second.spaceNames.trans first.spaceNames,
    second.invokers.trans first.invokers, second.types.trans first.types,
    second.handles.trans first.handles⟩

def stateOf : EStateM.Result Refusal Session α → Session
  | .ok _ s => s
  | .error _ s => s

/-- A computation that changes no object but results. -/
def Rests (x : SessionM α) : Prop := ∀ s : Session, s.SameObjects (stateOf (x s))

theorem Rests.bind {x : SessionM α} {f : α → SessionM β} (first : Rests x)
    (second : ∀ a, Rests (f a)) : Rests (x >>= f) := by
  intro s
  have step := first s
  cases run : x s with
  | ok a t =>
    rw [run] at step
    rw [run_bind_of_ok run]
    exact step.trans (second a t)
  | error e t =>
    rw [run] at step
    rw [run_bind_of_error run]
    exact step

theorem rests_pure (a : α) : Rests (pure a) := fun s => .refl s

theorem rests_get : Rests (get : SessionM Session) := fun s => .refl s

theorem rests_throw (r : Refusal) : Rests (throw r : SessionM α) := fun s => .refl s

theorem rests_files (change : Session → FileTree) :
    Rests (modify fun s => { s with files := change s }) := fun _ => ⟨rfl, rfl, rfl, rfl, rfl⟩

theorem rests_known (name : String) (shelf : Session → Shelf α) : Rests (known name shelf) := by
  intro s
  rw [run_known]
  cases (shelf s).find? name <;> exact .refl s

theorem rests_check (result : Except Error α) : Rests (check result) := by
  cases result with
  | ok a => exact rests_pure a
  | error e => exact rests_throw _

theorem rests_space (name : String) : Rests (space name) := by
  intro s
  rw [run_space]
  cases s.locate? name <;> exact .refl s

theorem rests_invoker (name : String) : Rests (invoker name) := by
  intro s
  rw [run_invoker]
  cases s.invoker? name <;> exact .refl s

theorem rests_finished (answer : Option α) : Rests (finished answer) := by
  cases answer with
  | some a => exact rests_pure a
  | none => exact rests_throw _

theorem rests_keepResults (name : Option String) (values : List Value) :
    Rests (keepResults name values) := by
  cases name with
  | none => exact rests_pure ()
  | some name => exact fun _ => ⟨rfl, rfl, rfl, rfl, rfl⟩

theorem rests_pathFor (name n : String) : Rests (pathFor name n) := by
  refine (rests_space name).bind ?_
  rintro ⟨_, l | r⟩
  · exact rests_pure _
  · exact rests_throw _

theorem rests_inspect (subject : Subject) : Rests (inspect subject) := by
  cases subject with
  | space name => exact (rests_space name).bind fun _ => rests_pure _
  | type name => exact (rests_known name _).bind fun _ => rests_pure _
  | handle name => exact (rests_known name _).bind fun _ => rests_pure _

theorem rests_invokeRow (caller handle : String) (args : List Value) :
    Rests (invokeRow fuel caller handle args) :=
  (rests_invoker caller).bind fun _ => (rests_known handle _).bind fun _ =>
    (rests_finished _).bind fun _ => rests_check _

theorem rests_invokeAll (caller handle : String) (batch : Batch.Source) (keptAs : Option String) :
    Rests (invokeAll fuel caller handle batch keptAs) :=
  (rests_invoker caller).bind fun _ => (rests_known handle _).bind fun _ =>
    (rests_check _).bind fun _ => (rests_finished _).bind fun _ => (rests_check _).bind fun _ =>
      (rests_keepResults keptAs _).bind fun _ => rests_pure _

theorem rests_invokeInto (caller handle : String) (batch : Batch.Source) (outputs : List Value)
    (keptAs : Option String) : Rests (invokeInto fuel caller handle batch outputs keptAs) :=
  (rests_invoker caller).bind fun _ => (rests_known handle _).bind fun _ =>
    (rests_check _).bind fun _ => (rests_finished _).bind fun _ =>
      (rests_keepResults keptAs _).bind fun _ => rests_pure _

/-! Steps that make objects. -/

def withSpace (position : Nat) (sp : Space) (s : Session) : Session :=
  { s with spaces := s.spaces.set position sp }

theorem spaces_withSpace (there : s.spaces[p]? = some sp) (sp' : Space) :
    (s.withSpace p sp').spaces[p]? = some sp' := by
  obtain ⟨inside, -⟩ := List.getElem?_eq_some_iff.mp there
  exact List.getElem?_set_self inside

theorem withSpace_self (there : s.spaces[p]? = some sp) : s.withSpace p sp = s := by
  obtain ⟨inside, rfl⟩ := List.getElem?_eq_some_iff.mp there
  rw [withSpace, List.set_getElem_self]

def withNewSpace (name : String) (sp : Space) (s : Session) : Session :=
  { s with
    spaces := s.spaces ++ [sp]
    spaceNames := s.spaceNames.put name s.spaces.length }

/-- A type that is the result is kept where a name for it is given. -/
def withType (keptAs : Option String) (result : Except Error LoadedType) (s : Session) : Session :=
  match result, keptAs with
  | .ok t, some name => { s with types := s.types.put name t }
  | _, _ => s

@[simp] theorem spaces_withType (keptAs : Option String) (result : Except Error LoadedType)
    (s : Session) : (s.withType keptAs result).spaces = s.spaces := by
  cases result with
  | error e => rfl
  | ok t => cases keptAs <;> rfl

@[simp] theorem handles_withType (keptAs : Option String) (result : Except Error LoadedType)
    (s : Session) : (s.withType keptAs result).handles = s.handles := by
  cases result with
  | error e => rfl
  | ok t => cases keptAs <;> rfl

@[simp] theorem invokers_withType (keptAs : Option String) (result : Except Error LoadedType)
    (s : Session) : (s.withType keptAs result).invokers = s.invokers := by
  cases result with
  | error e => rfl
  | ok t => cases keptAs <;> rfl

def told (result : Except Error LoadedType) (s : Session) : Except Refusal Answer :=
  match result with
  | .ok t => .ok (.type t (s.types.namesWhere t.isSame))
  | .error e => .error (.failed e)

variable {step : Step} {keptAs : Option String}

theorem moment_of_ok {answer : Answer} (ok : perform fuel step s = .ok answer t) :
    moment fuel step s = ⟨s, step, .ok answer, t⟩ := by
  unfold moment
  rw [EStateM.run, ok]

theorem moment_of_error {refusal : Refusal} (error : perform fuel step s = .error refusal t) :
    moment fuel step s = ⟨s, step, .error refusal, t⟩ := by
  unfold moment
  rw [EStateM.run, error]

theorem run_space_of_locate (found : s.locate? name = some (p, sp)) :
    space name s = .ok (p, sp) s := by
  rw [run_space, found]

/-- Steps that ask a namespace for a type end alike. -/
theorem moment_of_asked {result : Except Error LoadedType}
    (run : perform fuel step s = (do
      let t ← check result
      return .type t (← keepType t keptAs) : SessionM Answer) (s.withSpace p sp)) :
    moment fuel step s = ⟨s, step, told result s, (s.withSpace p sp).withType keptAs result⟩ := by
  cases result with
  | error e => exact moment_of_error run
  | ok t => cases keptAs <;> exact moment_of_ok run

theorem moment_resolve (found : s.locate? name = some (p, sp)) :
    moment fuel (.resolve name n keptAs) s =
      ⟨s, .resolve name n keptAs, told (sp.resolve s.files n).1 s,
        (s.withSpace p (sp.resolve s.files n).2).withType keptAs (sp.resolve s.files n).1⟩ :=
  moment_of_asked (run_bind_of_ok (run_space_of_locate found))

theorem moment_register {r : Registry} {methods : List NativeMethod}
    (found : s.locate? name = some (p, .registry r)) :
    moment fuel (.register name n methods keptAs) s =
      ⟨s, .register name n methods keptAs, told (r.register n methods).1 s,
        (s.withSpace p (.registry (r.register n methods).2)).withType keptAs
          (r.register n methods).1⟩ :=
  moment_of_asked (run_bind_of_ok (run_space_of_locate found))

theorem moment_register_loader {l : Loader} {methods : List NativeMethod}
    (found : s.locate? name = some (p, .loader l)) :
    moment fuel (.register name n methods keptAs) s =
      ⟨s, .register name n methods keptAs, .error (.unknownName name), s⟩ :=
  moment_of_error (run_bind_of_ok (run_space_of_locate found))

theorem moment_grant {h : Handle} (found : s.handles.find? name = some h) :
    moment fuel (.grant name) s =
      ⟨s, .grant name, .ok (.handle h.grant), { s with handles := s.handles.put name h.grant }⟩ :=
  moment_of_ok (run_bind_of_ok ((run_known ..).trans (by rw [found])))

theorem moment_makeHandle {type : String} {t : LoadedType} {selector : Selector} {h : Handle}
    (found : s.types.find? type = some t) (selected : Handle.select t selector = .ok h)
    (granted : Bool) :
    moment fuel (.makeHandle type selector granted name) s =
      ⟨s, .makeHandle type selector granted name, .ok (.handle (if granted then h.grant else h)),
        { s with handles := s.handles.put name (if granted then h.grant else h) }⟩ :=
  moment_of_ok (run_bind_of_ok ((run_known ..).trans (by rw [found])) |>.trans
    (run_bind_of_ok ((run_check ..).trans (by rw [selected]))))

theorem moment_makeInvoker (found : s.locate? n = some (p, sp)) (limits : Limits) :
    moment fuel (.makeInvoker n limits name) s =
      ⟨s, .makeInvoker n limits name, .ok (.invoker ⟨sp.id, limits⟩),
        { s with invokers := s.invokers.put name ⟨sp.id, limits⟩ }⟩ :=
  moment_of_ok (run_bind_of_ok (run_space_of_locate found))

/-- A new loader has loaded nothing. There is none if its settings cannot be read. -/
theorem moment_openLoader (fuel : Nat) (source : LoaderSource) (name : String) (s : Session) :
    (∃ refusal, moment fuel (.openLoader source name) s =
      ⟨s, .openLoader source name, .error refusal, s⟩) ∨
    ∃ l : Loader, l.space = s.nextSpace ∧ l.types = [] ∧
      moment fuel (.openLoader source name) s =
        ⟨s, .openLoader source name, .ok (.space (.loader l)),
          s.withNewSpace name (.loader l)⟩ := by
  cases source with
  | directory path => exact .inr ⟨_, rfl, rfl, rfl⟩
  | settings settings => exact .inr ⟨_, rfl, rfl, rfl⟩
  | definer basePath definer => exact .inr ⟨_, rfl, rfl, rfl⟩
  | file path =>
    have run : openLoader (.file path) name s =
        match Settings.ofFile s.files path with
        | .error e => .error (.failed (.config e)) s
        | .ok settings =>
          addSpace name (.loader (.ofSettings settings s.nextSpace s.nextOrdinal)) s := by
      change ((Loader.ofSettings <$> check ((Settings.ofFile s.files path).mapError .config)) >>=
        fun loader => addSpace name (.loader (loader s.nextSpace s.nextOrdinal))) s = _
      cases Settings.ofFile s.files path <;> rfl
    cases read : Settings.ofFile s.files path with
    | error e =>
      rw [read] at run
      exact .inl ⟨_, moment_of_error (run_bind_of_error run)⟩
    | ok settings =>
      rw [read] at run
      exact .inr ⟨_, rfl, rfl, moment_of_ok (run_bind_of_ok run)⟩

def Step.makes : Step → Bool
  | .openLoader .. | .openRegistry .. | .makeInvoker .. | .register .. | .resolve ..
  | .makeHandle .. | .grant .. => true
  | _ => false

inductive Step.Opens (keptAs : String) : Step → Prop where
  | loader (source : LoaderSource) : Opens keptAs (.openLoader source keptAs)
  | registry (title : String) (limits : Limits) : Opens keptAs (.openRegistry title limits keptAs)

/-- The step asks the namespace of a name for a type, be it there or new. -/
inductive Step.Asks (name n : String) (keptAs : Option String) : Step → Prop where
  | resolve : Asks name n keptAs (.resolve name n keptAs)
  | register (methods : List NativeMethod) : Asks name n keptAs (.register name n methods keptAs)

theorem Step.Asks.makes (asks : step.Asks name n keptAs) : step.makes = true := by
  cases asks <;> rfl

theorem Step.Asks.unique {name' n' : String} {keptAs' : Option String}
    (asks : step.Asks name n keptAs) (asks' : step.Asks name' n' keptAs') :
    name = name' ∧ n = n' := by
  cases asks <;> cases asks' <;> exact ⟨rfl, rfl⟩

/-- All that a step can do. -/
inductive Moment.Acts : Moment → Prop where
  /-- The step makes no objects, or it is refused. -/
  | rests {s t : Session} {step : Step} {answer : Except Refusal Answer} : s.SameObjects t →
      (step.makes = true → ∃ refusal, answer = .error refusal) → Acts ⟨s, step, answer, t⟩
  | opens {s : Session} {step : Step} {name : String} {sp : Space} : step.Opens name →
      sp.id = s.nextSpace → sp.types = [] →
      Acts ⟨s, step, .ok (.space sp), s.withNewSpace name sp⟩
  | serves {s : Session} {name keptAs : String} {p : Nat} {sp : Space} {limits : Limits} :
      s.locate? name = some (p, sp) →
      Acts ⟨s, .makeInvoker name limits keptAs, .ok (.invoker ⟨sp.id, limits⟩),
        { s with invokers := s.invokers.put keptAs ⟨sp.id, limits⟩ }⟩
  | asks {s : Session} {step : Step} {name n : String} {keptAs : Option String} {p : Nat}
      {sp sp' : Space} {result : Except Error LoadedType} : step.Asks name n keptAs →
      s.locate? name = some (p, sp) → sp.Answers n result sp' →
      Acts ⟨s, step, told result s, (s.withSpace p sp').withType keptAs result⟩
  | makesHandle {s : Session} {type name : String} {t : LoadedType} {selector : Selector}
      {h : Handle} {granted : Bool} : s.types.find? type = some t →
      Handle.select t selector = .ok h →
      Acts ⟨s, .makeHandle type selector granted name,
        .ok (.handle (if granted then h.grant else h)),
        { s with handles := s.handles.put name (if granted then h.grant else h) }⟩
  | grants {s : Session} {name : String} {h : Handle} : s.handles.find? name = some h →
      Acts ⟨s, .grant name, .ok (.handle h.grant),
        { s with handles := s.handles.put name h.grant }⟩

namespace Moment.Acts

theorem of_rests (quiet : step.makes = false) (rests : Rests (perform fuel step)) :
    (moment fuel step s).Acts := by
  have same := rests s
  cases run : perform fuel step s with
  | ok answer t =>
    rw [moment_of_ok run]
    rw [run] at same
    exact .rests same fun makes => absurd (quiet.symm.trans makes) nofun
  | error refusal t =>
    rw [moment_of_error run]
    rw [run] at same
    exact .rests same fun _ => ⟨refusal, rfl⟩

theorem of_error {refusal : Refusal} (error : perform fuel step s = .error refusal s) :
    (moment fuel step s).Acts := by
  rw [moment_of_error error]
  exact .rests (.refl s) fun _ => ⟨refusal, rfl⟩

end Moment.Acts

theorem acts_moment (fuel : Nat) (step : Step) (s : Session) : (moment fuel step s).Acts := by
  cases step with
  | write path content => exact .of_rests rfl (.bind (rests_files _) fun _ => rests_pure _)
  | makeDirectory path => exact .of_rests rfl (.bind (rests_files _) fun _ => rests_pure _)
  | remove path => exact .of_rests rfl (.bind (rests_files _) fun _ => rests_pure _)
  | readSettings path =>
    exact .of_rests rfl (.bind rests_get fun _ => .bind (rests_check _) fun _ => rests_pure _)
  | openLoader source keptAs =>
    rcases moment_openLoader fuel source keptAs s with
      ⟨refusal, refused⟩ | ⟨l, id, types, made⟩
    · rw [refused]
      exact .rests (.refl s) fun _ => ⟨refusal, rfl⟩
    · rw [made]
      exact .opens (.loader source) id types
  | openRegistry title limits keptAs => exact .opens (.registry title limits) rfl rfl
  | makeInvoker name limits keptAs =>
    cases found : s.locate? name with
    | none => exact .of_error (run_bind_of_error ((run_space ..).trans (by rw [found])))
    | some place =>
      rw [moment_makeInvoker found]
      exact .serves found
  | register name n methods keptAs =>
    cases found : s.locate? name with
    | none => exact .of_error (run_bind_of_error ((run_space ..).trans (by rw [found])))
    | some place =>
      obtain ⟨p, l | r⟩ := place
      · exact .of_error (run_bind_of_ok (run_space_of_locate found))
      · rw [moment_register found]
        exact .asks (.register methods) found (Space.register_answers n methods r)
  | resolve name n keptAs =>
    cases found : s.locate? name with
    | none => exact .of_error (run_bind_of_error ((run_space ..).trans (by rw [found])))
    | some place =>
      rw [moment_resolve found]
      exact .asks .resolve found (Space.resolve_answers s.files n place.2)
  | showSpace name => exact .of_rests rfl (.bind (rests_space name) fun _ => rests_pure _)
  | has name n => exact .of_rests rfl (.bind (rests_space name) fun _ => rests_pure _)
  | pathFor name n => exact .of_rests rfl (.bind (rests_pathFor name n) fun _ => rests_pure _)
  | countDefinitions => exact .of_rests rfl (.bind rests_get fun _ => rests_pure _)
  | makeHandle type selector granted keptAs =>
    cases found : s.types.find? type with
    | none => exact .of_error (run_bind_of_error ((run_known ..).trans (by rw [found])))
    | some t =>
      cases selected : Handle.select t selector with
      | error e =>
        exact .of_error ((run_bind_of_ok ((run_known ..).trans (by rw [found]))).trans
          (run_bind_of_error ((run_check ..).trans (by rw [selected]))))
      | ok h =>
        rw [moment_makeHandle found selected]
        exact .makesHandle found selected
  | grant name =>
    cases found : s.handles.find? name with
    | none => exact .of_error (run_bind_of_error ((run_known ..).trans (by rw [found])))
    | some h =>
      rw [moment_grant found]
      exact .grants found
  | describe type method =>
    exact .of_rests rfl
      (.bind (rests_known _ _) fun _ => .bind (rests_check _) fun _ => rests_pure _)
  | inspect subject => exact .of_rests rfl (.bind (rests_inspect subject) fun _ => rests_pure _)
  | invokeRow caller handle args =>
    exact .of_rests rfl (.bind (rests_invokeRow caller handle args) fun _ => rests_pure _)
  | invokeAll caller handle batch keptAs =>
    exact .of_rests rfl (.bind (rests_invokeAll caller handle batch keptAs) fun _ => rests_pure _)
  | invokeInto caller handle batch outputs keptAs =>
    exact .of_rests rfl (rests_invokeInto caller handle batch outputs keptAs)
  | unbox results target =>
    exact .of_rests rfl
      (.bind (rests_known _ _) fun _ => .bind (rests_check _) fun _ => rests_pure _)

end Session

end Rowwise
