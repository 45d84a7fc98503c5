import Rowwise.Proofs.Session.History
import Rowwise.Proofs.Space.Checked
import Rowwise.Space.Native

/-! Access over whole runs. A method is called only through a handle of a type of the namespace that
the invoker serves, and only if it is public or access was granted on that handle. -/
namespace Rowwise.Session

namespace Moment

def Grants (m : Moment) (name : String) : Prop :=
  (∃ h, m.answer = .ok (.handle h)) ∧
    (m.step = .grant name ∨ ∃ type selector, m.step = .makeHandle type selector true name)

def Makes (m : Moment) (name : String) : Prop :=
  (∃ h, m.answer = .ok (.handle h)) ∧
    ∃ type selector granted, m.step = .makeHandle type selector granted name

end Moment

/-- Access was granted on the handle of a name since it was made. -/
def GrantedOn (past : List Moment) (name : String) : Prop :=
  ∃ earlier m later, past = earlier ++ m :: later ∧ m.Grants name ∧ ∀ m' ∈ later, ¬ m'.Makes name

theorem grantedOn_append_iff {past : List Moment} {m : Moment} {name : String} :
    GrantedOn (past ++ [m]) name ↔ m.Grants name ∨ GrantedOn past name ∧ ¬ m.Makes name := by
  constructor
  · rintro ⟨earlier, m', later, split, grants, kept⟩
    rcases List.eq_nil_or_concat later with rfl | ⟨later, last, rfl⟩
    · obtain ⟨-, same⟩ := List.append_inj' split rfl
      cases same
      exact .inl grants
    · rw [List.concat_eq_append] at split kept
      rw [← List.cons_append, ← List.append_assoc] at split
      obtain ⟨rfl, same⟩ := List.append_inj' split rfl
      cases same
      exact .inr ⟨⟨earlier, m', later, rfl, grants, fun m'' member =>
        kept m'' (List.mem_append_left _ member)⟩, kept m (by simp)⟩
  · rintro (grants | ⟨⟨earlier, m', later, rfl, grants, kept⟩, keeps⟩)
    · exact ⟨past, m, [], rfl, grants, by simp⟩
    · refine ⟨earlier, m', later ++ [m], by simp, grants, ?_⟩
      intro m'' member
      rcases List.mem_append.mp member with before | here
      · exact kept m'' before
      · exact List.mem_singleton.mp here ▸ keeps

def Lives (s : Session) (t : LoadedType) : Prop :=
  ∃ (p : Nat) (sp : Space) (n : String), s.spaces[p]? = some sp ∧ sp.find? n = some t

def Serves (s : Session) (id : SpaceId) : Prop :=
  ∃ (p : Nat) (sp : Space), s.spaces[p]? = some sp ∧ sp.id = id

theorem Extends.lives {s s' : Session} {t : LoadedType} (grows : s.Extends s') (lives : s.Lives t) :
    s'.Lives t := by
  obtain ⟨p, sp, n, there, found⟩ := lives
  obtain ⟨sp', there', grows⟩ := grows p sp there
  exact ⟨p, sp', n, there', grows.find found⟩

theorem Extends.serves {s s' : Session} {id : SpaceId} (grows : s.Extends s')
    (serves : s.Serves id) : s'.Serves id := by
  obtain ⟨p, sp, there, rfl⟩ := serves
  obtain ⟨sp', there', grows⟩ := grows p sp there
  exact ⟨p, sp', there', grows.id⟩

namespace Moment

variable {m : Moment} {name : String}

theorem quiet_of_answer (other : ∀ h, m.answer ≠ .ok (.handle h)) :
    ¬ m.Grants name ∧ ¬ m.Makes name :=
  ⟨fun ⟨⟨h, answer⟩, _⟩ => other h answer, fun ⟨⟨h, answer⟩, _⟩ => other h answer⟩

theorem quiet_of_refused (refused : m.step.makes = true → ∃ refusal, m.answer = .error refusal) :
    ¬ m.Grants name ∧ ¬ m.Makes name := by
  constructor
  · rintro ⟨⟨h, answer⟩, step | ⟨type, selector, step⟩⟩ <;>
    · obtain ⟨refusal, error⟩ := refused (by rw [step]; rfl)
      cases answer.symm.trans error
  · rintro ⟨⟨h, answer⟩, type, selector, granted, step⟩
    obtain ⟨refusal, error⟩ := refused (by rw [step]; rfl)
    cases answer.symm.trans error

theorem quiet_of_step (grants : m.step ≠ .grant name)
    (makes : ∀ type selector granted, m.step ≠ .makeHandle type selector granted name) :
    ¬ m.Grants name ∧ ¬ m.Makes name := by
  constructor
  · rintro ⟨-, step | ⟨type, selector, step⟩⟩
    · exact grants step
    · exact makes type selector true step
  · rintro ⟨-, type, selector, granted, step⟩
    exact makes type selector granted step

/-- A type that is kept was kept before, or is the one that a namespace gave. -/
theorem Acts.type_cases (acts : m.Acts) {t : LoadedType}
    (found : m.after.types.find? name = some t) :
    m.before.types.find? name = some t ∨ m.after.Lives t := by
  cases acts with
  | rests same _ => exact .inl (same.types ▸ found)
  | opens _ _ _ => exact .inl found
  | serves _ => exact .inl found
  | makesHandle _ _ => exact .inl found
  | grants _ => exact .inl found
  | @asks s _ _ n keptAs p sp sp' result _ located answers =>
    cases result with
    | error e => exact .inl found
    | ok given =>
      cases keptAs with
      | none => exact .inl found
      | some kept =>
        rcases Shelf.find?_put_cases found with ⟨-, rfl⟩ | ⟨-, found⟩
        · have there := spaces_withSpace (locate?_eq_some.mp located).2 sp'
          exact .inr ⟨p, sp', n, there, answers.find⟩
        · exact .inl found

theorem Acts.invoker_cases (acts : m.Acts) {i : Invoker}
    (found : m.after.invokers.find? name = some i) :
    m.before.invokers.find? name = some i ∨ m.before.Serves i.space := by
  cases acts with
  | rests same _ => exact .inl (same.invokers ▸ found)
  | opens _ _ _ => exact .inl found
  | makesHandle _ _ => exact .inl found
  | grants _ => exact .inl found
  | asks _ _ _ => exact .inl (by rwa [invokers_withType] at found)
  | serves located =>
    rcases Shelf.find?_put_cases found with ⟨-, rfl⟩ | ⟨-, found⟩
    · exact .inr ⟨_, _, (locate?_eq_some.mp located).2, rfl⟩
    · exact .inl found

/-- A handle that is kept was kept before, is made of a type that was, or is granted access. -/
theorem Acts.handle_cases (acts : m.Acts) {h : Handle}
    (found : m.after.handles.find? name = some h) :
    m.before.handles.find? name = some h ∧ ¬ m.Grants name ∧ ¬ m.Makes name ∨
    (∃ type, m.before.types.find? type = some h.owner) ∧ m.Makes name ∧
      (h.granted = true ↔ m.Grants name) ∨
    (∃ h', m.before.handles.find? name = some h' ∧ h = h'.grant) ∧ m.Grants name := by
  cases acts with
  | rests same refused => exact .inl ⟨same.handles ▸ found, quiet_of_refused refused⟩
  | opens _ _ _ => exact .inl ⟨found, quiet_of_answer nofun⟩
  | serves _ => exact .inl ⟨found, quiet_of_answer nofun⟩
  | @asks s step _ n keptAs p sp sp' result _ _ _ =>
    rw [handles_withType] at found
    refine .inl ⟨found, quiet_of_answer fun h answer => ?_⟩
    cases result <;> cases answer
  | @makesHandle s type made t selector h' granted there selected =>
    obtain ⟨rfl, denied⟩ := Handle.select_ok selected
    rcases Shelf.find?_put_cases found with ⟨rfl, rfl⟩ | ⟨other, found⟩
    · refine .inr (.inl ⟨⟨type, ?_⟩, ⟨⟨_, rfl⟩, type, selector, granted, rfl⟩, ?_⟩)
      · cases granted <;> exact there
      · constructor
        · intro accessible
          cases granted with
          | true => exact ⟨⟨_, rfl⟩, .inr ⟨type, selector, rfl⟩⟩
          | false => cases denied.symm.trans accessible
        · rintro ⟨-, step | ⟨_, _, step⟩⟩
          · cases step
          · cases step
            rfl
    · refine .inl ⟨found, quiet_of_step nofun ?_⟩
      rintro _ _ _ ⟨⟩
      exact other rfl
  | @grants s granted h' there =>
    rcases Shelf.find?_put_cases found with ⟨rfl, rfl⟩ | ⟨other, found⟩
    · exact .inr (.inr ⟨⟨h', there, rfl⟩, ⟨h'.grant, rfl⟩, .inl rfl⟩)
    · refine .inl ⟨found, quiet_of_step ?_ nofun⟩
      rintro ⟨⟩
      exact other rfl

end Moment

/-- What a session keeps under names belongs to its namespaces, and handles are granted as the past
says. -/
structure Guarded (past : List Moment) (s : Session) : Prop where
  types {name : String} {t : LoadedType} : s.types.find? name = some t → s.Lives t
  handles {name : String} {h : Handle} : s.handles.find? name = some h → s.Lives h.owner
  invokers {name : String} {i : Invoker} : s.invokers.find? name = some i → s.Serves i.space
  granted {name : String} {h : Handle} : s.handles.find? name = some h →
    (h.granted = true ↔ GrantedOn past name)

namespace Guarded

variable {past : List Moment} {m : Moment}

theorem first (files : FileTree) : Guarded [] { files } where
  types found := by cases found
  handles found := by cases found
  invokers found := by cases found
  granted found := by cases found

theorem step (guarded : Guarded past m.before) (acts : m.Acts) :
    Guarded (past ++ [m]) m.after where
  types {name t} found := by
    rcases acts.type_cases found with before | lives
    · exact acts.grows.lives (guarded.types before)
    · exact lives
  handles {name h} found := by
    rcases acts.handle_cases found with ⟨before, -⟩ | ⟨⟨type, before⟩, -⟩ | ⟨⟨h', before, rfl⟩, -⟩
    · exact acts.grows.lives (guarded.handles before)
    · exact acts.grows.lives (guarded.types before)
    · have lives : m.before.Lives h'.owner := guarded.handles before
      exact acts.grows.lives lives
  invokers {name i} found := by
    rcases acts.invoker_cases found with before | serves
    · exact acts.grows.serves (guarded.invokers before)
    · exact acts.grows.serves serves
  granted {name h} found := by
    rw [grantedOn_append_iff]
    rcases acts.handle_cases found with
      ⟨before, grants, makes⟩ | ⟨-, makes, granted⟩ | ⟨⟨h', -, rfl⟩, grants⟩
    · simp [grants, makes, guarded.granted before]
    · simp [makes, granted]
    · simp [grants, Handle.grant]

end Guarded

theorem guarded_run (fuel : Nat) (files : FileTree) (steps : List Step) :
    Guarded (log fuel steps { files }) (run fuel steps { files }).2 := by
  refine holds_along ?_ [] (.first files) steps
  intro past s step guarded
  have before := before_moment fuel step s
  exact Guarded.step (before.symm ▸ guarded) (acts_moment fuel step s)

section Refusals

variable {s : Session} {caller name : String} {i : Invoker} {h : Handle} {e : Error}

def withResults (keptAs : Option String) (values : List Value) (s : Session) : Session :=
  match keptAs with
  | none => s
  | some name => { s with results := s.results.put name values }

/-- No step that calls the handle through the invoker runs a body. Each answers with the same error,
leaves the outputs alone and changes nothing, and so it would whatever the body were. -/
structure Refuses (s : Session) (caller name : String) (i : Invoker) (h : Handle) (e : Error) :
    Prop where
  row (fuel : Nat) (args : List Value) :
    moment fuel (.invokeRow caller name args) s =
      ⟨s, .invokeRow caller name args, .error (.failed e), s⟩
  all {b : Batch} {batch : Batch.Source} (built : Batch.ofSource batch = .ok b) (fuel : Nat)
    (keptAs : Option String) :
    moment fuel (.invokeAll caller name batch keptAs) s =
      ⟨s, .invokeAll caller name batch keptAs, .error (.failed e), s⟩
  into {b : Batch} {batch : Batch.Source} (built : Batch.ofSource batch = .ok b) (fuel : Nat)
    (outputs : List Value) (keptAs : Option String) :
    moment fuel (.invokeInto caller name batch outputs keptAs) s =
      ⟨s, .invokeInto caller name batch outputs keptAs, .ok (.filled (.error e) outputs),
        s.withResults keptAs outputs⟩
  anyRow (body : Body) (fuel : Nat) (args : List Value) :
    i.invokeRow fuel (h.withBody body) args = some (.error e)
  anyBatch (body : Body) (fuel : Nat) (outputs : List Value) (b : Batch) :
    i.invokeInto fuel (h.withBody body) outputs b = some (outputs, .error e)

theorem refuses_of_check (called : s.invoker? caller = some i)
    (kept : s.handles.find? name = some h) (refused : i.check h = .error e) :
    s.Refuses caller name i h e := by
  have caller' : invoker caller s = .ok i s := by rw [run_invoker, called]
  have handle : known name (·.handles) s = .ok h s := by rw [run_known, kept]
  refine ⟨?_, ?_, ?_, ?_, ?_⟩
  · intro fuel args
    have answers : finished (i.invokeRow fuel h args) s = .ok (.error e) s := by
      rw [Invoker.invokeRow_of_check refused]
      rfl
    exact moment_of_error (run_bind_of_error ((run_bind_of_ok caller').trans
      ((run_bind_of_ok handle).trans (run_bind_of_ok answers))))
  · intro b batch built fuel keptAs
    have batch' : check (Batch.ofSource batch) s = .ok b s := by rw [run_check, built]
    have answers : finished (i.invokeAll fuel h b) s = .ok (.error e) s := by
      rw [Invoker.invokeAll_of_check refused]
      rfl
    exact moment_of_error (run_bind_of_error ((run_bind_of_ok caller').trans
      ((run_bind_of_ok handle).trans ((run_bind_of_ok batch').trans (run_bind_of_ok answers)))))
  · intro b batch built fuel outputs keptAs
    have batch' : check (Batch.ofSource batch) s = .ok b s := by rw [run_check, built]
    have answers : finished (i.invokeInto fuel h outputs b) s = .ok (outputs, .error e) s := by
      rw [Invoker.invokeInto_of_check refused]
      rfl
    have keeps : keepResults keptAs outputs s = .ok () (s.withResults keptAs outputs) := by
      cases keptAs <;> rfl
    exact moment_of_ok ((run_bind_of_ok caller').trans ((run_bind_of_ok handle).trans
      ((run_bind_of_ok batch').trans ((run_bind_of_ok answers).trans (run_bind_of_ok keeps)))))
  · exact fun body fuel args => Invoker.invokeRow_of_check (h := h.withBody body) refused fuel args
  · exact fun body fuel outputs b =>
      Invoker.invokeInto_of_check (h := h.withBody body) refused fuel outputs b

end Refusals

/-- The type of the handle was defined by the very namespace that the invoker serves. -/
def AtHome (past : List Moment) (s : Session) (i : Invoker) (h : Handle) : Prop :=
  ∃ (p : Nat) (sp : Space) (m : Moment) (n : String), s.spaces[p]? = some sp ∧ sp.id = i.space ∧
    m ∈ past ∧ m.Defines p n h.owner

/-- A handle stays as it is, but for steps that make it anew or grant access on it. -/
theorem Moment.Acts.handle_apart {m : Moment} {name : String} (acts : m.Acts)
    (grants : m.step ≠ .grant name)
    (makes : ∀ type selector granted, m.step ≠ .makeHandle type selector granted name) :
    m.after.handles.find? name = m.before.handles.find? name := by
  cases acts with
  | rests same _ => exact congrArg (·.find? name) same.handles
  | opens _ _ _ => rfl
  | serves _ => rfl
  | asks _ _ _ => exact congrArg (·.find? name) (handles_withType ..)
  | makesHandle _ _ =>
    refine Shelf.find?_put_other ?_ _ _
    rintro rfl
    exact makes _ _ _ rfl
  | grants _ =>
    refine Shelf.find?_put_other ?_ _ _
    rintro rfl
    exact grants rfl

theorem Recorded.atHome_iff {past : List Moment} {s : Session} {i : Invoker} {h : Handle}
    (recorded : Recorded past s) (lives : s.Lives h.owner) :
    AtHome past s i h ↔ h.owner.space = i.space := by
  constructor
  · rintro ⟨p, sp, m, n, there, id, member, defines⟩
    obtain ⟨sp', there', found⟩ := recorded.found member defines
    cases there.symm.trans there'
    rw [recorded.home there found, id]
  · intro own
    obtain ⟨p, sp, n, there, found⟩ := lives
    obtain ⟨earlier, m, here, defines, -⟩ := recorded.defined there found
    exact ⟨p, sp, m, n, there, (recorded.home there found).symm.trans own, here.subset (by simp),
      defines⟩

theorem Guarded.serves_of_invoker {past : List Moment} {s : Session} {caller : String} {i : Invoker}
    (guarded : Guarded past s) (called : s.invoker? caller = some i) : s.Serves i.space := by
  unfold invoker? at called
  rcases Option.or_eq_some_iff.mp called with kept | ⟨-, found⟩
  · exact guarded.invokers kept
  · obtain ⟨⟨p, sp⟩, located, rfl⟩ := Option.map_eq_some_iff.mp found
    exact ⟨p, sp, (locate?_eq_some.mp located).2, rfl⟩

structure Controlled (past : List Moment) (s : Session) (caller name : String) (i : Invoker)
    (h : Handle) : Prop where
  /-- The invoker serves one namespace. -/
  serves : ∃ (p : Nat) (sp : Space), s.spaces[p]? = some sp ∧ sp.id = i.space ∧
    ∀ (p' : Nat) (sp' : Space), s.spaces[p']? = some sp' → sp'.id = i.space → p' = p
  foreign : ¬ AtHome past s i h → s.Refuses caller name i h (.foreignHandle i.space h.owner.space)
  denied : AtHome past s i h → ¬ (h.method.isPublic = true ∨ GrantedOn past name) →
    s.Refuses caller name i h (.accessDenied h.qualifiedName)
  allowed : AtHome past s i h → h.method.isPublic = true ∨ GrantedOn past name → i.check h = .ok ()
  /-- No other step than those on its own name changes a handle. -/
  apart (fuel : Nat) {step : Step} : step ≠ .grant name →
    (∀ type selector granted, step ≠ .makeHandle type selector granted name) →
    (moment fuel step s).after.handles.find? name = some h

/-- Access is controlled over whole runs, for any invoker and any handle that a session has. A
handle of a type that another namespace defined is refused, and so is one of a method that is not
public unless access was granted on this very handle. -/
theorem access_controlled (fuel : Nat) (files : FileTree) (steps : List Step) {caller name : String}
    {i : Invoker} {h : Handle} (called : (run fuel steps { files }).2.invoker? caller = some i)
    (kept : (run fuel steps { files }).2.handles.find? name = some h) :
    Controlled (log fuel steps { files }) (run fuel steps { files }).2 caller name i h := by
  have recorded := recorded_run fuel files steps
  have guarded := guarded_run fuel files steps
  have serves := guarded.serves_of_invoker called
  have home := recorded.atHome_iff (i := i) (guarded.handles kept)
  have accessible : h.isAccessible = true ↔
      h.method.isPublic = true ∨ GrantedOn (log fuel steps { files }) name := by
    rw [Handle.isAccessible, Bool.or_eq_true, guarded.granted kept, or_comm]
  constructor
  · obtain ⟨p, sp, there, id⟩ := serves
    refine ⟨p, sp, there, id, fun p' sp' there' id' => ?_⟩
    have same := (recorded.id there').symm.trans (id'.trans (id.symm.trans (recorded.id there)))
    cases same
    rfl
  · intro foreign
    exact refuses_of_check called kept (Invoker.check_foreign (mt home.mpr foreign))
  · intro own denied
    exact refuses_of_check called kept
      (Invoker.check_denied (home.mp own) (mt accessible.mp denied))
  · intro own access
    exact Invoker.check_ok (home.mp own) (accessible.mpr access)
  · intro fuel' step grants makes
    have acts := acts_moment fuel' step (run fuel steps { files }).2
    rw [← step_moment fuel' step (run fuel steps { files }).2] at grants makes
    rw [acts.handle_apart grants makes, before_moment, kept]

def openVault : NativeMethod where
  name := "open"
  params := []
  returns := "int"
  access := 0
  body := Native.constant (.int 7)

def vault : LoadedType := .ofNative "Vault" [openVault] ⟨1⟩

def vaultHandle : Handle where
  owner := vault
  index := ⟨0, Nat.one_pos⟩

/-- Two registries, and two handles of one method; access is granted on one of them. -/
def guarding : List Step := [
  .openRegistry "left" {} "left",
  .openRegistry "right" {} "right",
  .register "left" "Vault" [openVault] (some "vault"),
  .makeHandle "vault" .first false "shut",
  .makeHandle "vault" .first false "ajar",
  .grant "ajar"]

def registries (types : List LoadedType) : Session where
  spaces := [.registry { name := "left", space := ⟨1⟩, types },
    .registry { name := "right", space := ⟨2⟩ }]
  spaceNames := ⟨[("right", 1), ("left", 0)]⟩

theorem run_guarding : (run 0 guarding {}).2 =
    { registries [vault] with
      types := ⟨[("vault", vault)]⟩
      handles := ⟨[("ajar", vaultHandle.grant), ("shut", vaultHandle)]⟩ } := by
  have opened : (moment 0 (.openRegistry "right" {} "right")
      (moment 0 (.openRegistry "left" {} "left") {}).after).after = registries [] := rfl
  have registered : (moment 0 (.register "left" "Vault" [openVault] (some "vault"))
      (registries [])).after = { registries [vault] with types := ⟨[("vault", vault)]⟩ } := by
    have valid : Registry.invalidName? (Registry.typeNames "Vault" [openVault]) = none := by
      decide +kernel
    have found : (registries []).locate? "left" =
      some (0, .registry { name := "left", space := ⟨1⟩ }) := rfl
    have first : Registry.find? { name := "left", space := ⟨1⟩ } "Vault" = none := rfl
    rw [moment_register found, Registry.register_of_none first, valid]
    rfl
  simp only [guarding, run_cons, opened, registered]
  rfl

/-- Access on one handle opens neither the other handle nor the other registry. -/
theorem vault_guarded :
    (moment 0 (.invokeRow "left" "shut" []) (run 0 guarding {}).2).answer =
      .error (.failed (.accessDenied "Vault.open")) ∧
    (moment 0 (.invokeInto "right" "ajar" (.nullary 1) [.null] none) (run 0 guarding {}).2).answer =
      .ok (.filled (.error (.foreignHandle ⟨2⟩ ⟨1⟩)) [.null]) ∧
    Invoker.check ⟨⟨1⟩, {}⟩ vaultHandle.grant = .ok () := by
  have recorded := recorded_run 0 .empty guarding
  have guarded := guarded_run 0 .empty guarding
  have shut : (run 0 guarding {}).2.handles.find? "shut" = some vaultHandle := by
    rw [run_guarding]
    rfl
  have ajar : (run 0 guarding {}).2.handles.find? "ajar" = some vaultHandle.grant := by
    rw [run_guarding]
    rfl
  have left : (run 0 guarding {}).2.invoker? "left" = some ⟨⟨1⟩, {}⟩ := by
    rw [run_guarding]
    rfl
  have right : (run 0 guarding {}).2.invoker? "right" = some ⟨⟨2⟩, {}⟩ := by
    rw [run_guarding]
    rfl
  refine ⟨?_, ?_, ?_⟩
  · have home := (recorded.atHome_iff (i := ⟨⟨1⟩, {}⟩) (guarded.handles shut)).mpr rfl
    have closed :
        ¬ (vaultHandle.method.isPublic = true ∨ GrantedOn (log 0 guarding {}) "shut") := by
      rintro (isPublic | granted)
      · exact absurd isPublic (by decide)
      · exact absurd ((guarded.granted shut).mpr granted) (by decide)
    have refuses := (access_controlled 0 .empty guarding left shut).denied home closed
    exact congrArg Moment.answer (refuses.row 0 [])
  · have foreign := mt (recorded.atHome_iff (i := ⟨⟨2⟩, {}⟩) (guarded.handles ajar)).mp (by decide)
    have refuses := (access_controlled 0 .empty guarding right ajar).foreign foreign
    exact congrArg Moment.answer (refuses.into rfl 0 [.null] none)
  · have home := (recorded.atHome_iff (i := ⟨⟨1⟩, {}⟩) (guarded.handles ajar)).mpr rfl
    have granted := (guarded.granted ajar).mp rfl
    exact (access_controlled 0 .empty guarding left ajar).allowed home (.inr granted)

end Rowwise.Session
