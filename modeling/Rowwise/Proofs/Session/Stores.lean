import Rowwise.Proofs.Class.File
import Rowwise.Proofs.Session.History

/-! Stores over whole runs. What a loader has loaded and what a registry was told first stays, for
any steps in between and whatever becomes of the files. -/
namespace Rowwise.Session

namespace Moment

def Resolves (m : Moment) (p : Nat) (n : String) : Prop :=
  ∃ name keptAs sp, m.step = .resolve name n keptAs ∧ m.before.locate? name = some (p, sp)

def Registers (m : Moment) (p : Nat) (n : String) (methods : List NativeMethod) : Prop :=
  ∃ name keptAs sp, m.step = .register name n methods keptAs ∧
    m.before.locate? name = some (p, sp)

variable {m : Moment} {p : Nat} {n : String} {sp : Space}

theorem asks_of_resolves (resolves : m.Resolves p n) : ∃ sp, m.Asks p n sp := by
  obtain ⟨name, keptAs, sp, step, found⟩ := resolves
  exact ⟨sp, name, keptAs, step ▸ .resolve, found⟩

theorem asks_of_registers {methods : List NativeMethod} (registers : m.Registers p n methods) :
    ∃ sp, m.Asks p n sp := by
  obtain ⟨name, keptAs, sp, step, found⟩ := registers
  exact ⟨sp, name, keptAs, step ▸ .register methods, found⟩

theorem Asks.cases (asks : m.Asks p n sp) :
    m.Resolves p n ∨ ∃ methods, m.Registers p n methods := by
  obtain ⟨name, keptAs, asks, found⟩ := asks
  generalize step : m.step = step at asks
  cases asks with
  | resolve => exact .inl ⟨name, keptAs, sp, step, found⟩
  | register methods => exact .inr ⟨methods, name, keptAs, sp, step, found⟩

end Moment

def Resolved (past : List Moment) (p : Nat) (n : String) (t : LoadedType) : Prop :=
  ∃ m ∈ past, m.Resolves p n ∧ m.Tells (.ok t)

def Registered (past : List Moment) (p : Nat) (n : String) (t : LoadedType) : Prop :=
  ∃ m ∈ past, (∃ methods, m.Registers p n methods) ∧ m.Tells (.ok t)

structure LoaderKeeps (fuel : Nat) (history : List Moment) (p : Nat) (l : Loader) : Prop where
  /-- From its first success on, a name is answered with the same type. The files do not matter, and
  the definer is not called. -/
  cached {earlier : List Moment} {m : Moment} {n : String} {t : LoadedType} :
    earlier ++ [m] <+: history → Resolved earlier p n t → m.Resolves p n →
      m.Tells (.ok t) ∧ m.after.spaces = m.before.spaces ∧
      ∀ files, moment fuel m.step { m.before with files } =
        ⟨{ m.before with files }, m.step, m.answer, { m.after with files }⟩
  /-- A failure changes at most the count of the calls of the definer. -/
  failed {m : Moment} {n : String} {e : Error} : m ∈ history → m.Resolves p n → m.Tells (.error e) →
    ∃ l' calls, m.before.spaces[p]? = some (.loader l') ∧
      m.after = m.before.withSpace p (.loader { l' with defined := calls })
  /-- Until there is a success, every attempt is like a first one on the files as they are then. -/
  retried {earlier : List Moment} {m : Moment} {n : String} :
    earlier ++ [m] <+: history → (∀ t, ¬ Resolved earlier p n t) → m.Resolves p n →
      m.Tells (l.fresh.resolve m.before.files n).1
  loaded {n : String} {t : LoadedType} : l.find? n = some t ↔ Resolved history p n t
  distinct : (l.types.map (·.name)).Nodup
  /-- A type that is loaded comes from the file as it was at its first success. -/
  stored {n : String} {t : LoadedType} : l.find? n = some t →
    ∃ earlier m bytes c, earlier ++ [m] <+: history ∧ (∀ t', ¬ Resolved earlier p n t') ∧
      m.Resolves p n ∧ m.Tells (.ok t) ∧ m.before.files.read (l.pathFor n) = .ok bytes ∧
      Class.decode bytes = .ok c ∧ t.name = n ∧ t.space = l.space ∧ t.size = bytes.length ∧
      t.digest = Bytes.Digest.sha256 bytes ∧ t.body = .bytecode c ∧
      (l.definer.Verifies → c.verify = .ok ())
  /-- Only resolving its own names changes a loader. -/
  apart {m : Moment} {l' : Loader} : m ∈ history → (∀ n, ¬ m.Resolves p n) →
    m.before.spaces[p]? = some (.loader l') → m.after.spaces[p]? = some (.loader l')

structure RegistryKeeps (history : List Moment) (p : Nat) (r : Registry) : Prop where
  /-- The first registration of a name is what it resolves to. -/
  kept {earlier : List Moment} {m : Moment} {n : String} {t : LoadedType} :
    earlier ++ [m] <+: history → Registered earlier p n t → m.Resolves p n → m.Tells (.ok t)
  /-- A name is registered once. -/
  once {earlier : List Moment} {m : Moment} {n : String} {t : LoadedType}
    {methods : List NativeMethod} :
    earlier ++ [m] <+: history → Registered earlier p n t → m.Registers p n methods →
      m.after = m.before ∧
      m.Tells (.error (match Registry.invalidName? (Registry.typeNames n methods) with
        | some invalid => .invalidDefinition n (.invalidTypeName invalid)
        | none => .duplicateType n))
  /-- Until there is a success, every attempt is like a first one. -/
  retried {earlier : List Moment} {m : Moment} {n : String} {methods : List NativeMethod} :
    earlier ++ [m] <+: history → (∀ t, ¬ Registered earlier p n t) → m.Registers p n methods →
      m.Tells (r.fresh.register n methods).1
  missing {earlier : List Moment} {m : Moment} {n : String} :
    earlier ++ [m] <+: history → (∀ t, ¬ Registered earlier p n t) → m.Resolves p n →
      m.Tells (.error (.typeNotFound n r.name))
  registered {n : String} {t : LoadedType} : r.find? n = some t ↔ Registered history p n t
  distinct : (r.types.map (·.name)).Nodup
  /-- A type of a registry is made of what was registered first. -/
  stored {n : String} {t : LoadedType} : r.find? n = some t →
    ∃ earlier m methods, earlier ++ [m] <+: history ∧ (∀ t', ¬ Registered earlier p n t') ∧
      m.Registers p n methods ∧ m.Tells (.ok t) ∧ t = .ofNative n methods r.space
  /-- Only a registration with success changes a registry. -/
  apart {m : Moment} {sp : Space} : m ∈ history →
    (∀ n methods, m.Registers p n methods → ∀ t, ¬ m.Tells (.ok t)) →
    m.before.spaces[p]? = some sp → m.after.spaces[p]? = some sp

section Moments

variable {fuel : Nat} {earlier : List Moment} {m : Moment} {s : Session} {p : Nat} {n : String}
  {t : LoadedType}

/-- What a namespace that is asked to resolve a name answers, and what becomes of it. -/
theorem Stands.resolve (stands : Stands fuel earlier m s) (resolves : m.Resolves p n) :
    ∃ name keptAs sp, m.step = .resolve name n keptAs ∧ m.before.locate? name = some (p, sp) ∧
      m.answer = told (sp.resolve m.before.files n).1 m.before ∧
      m.after = (m.before.withSpace p (sp.resolve m.before.files n).2).withType keptAs
        (sp.resolve m.before.files n).1 := by
  obtain ⟨name, keptAs, sp, step, found⟩ := resolves
  have made := stands.made
  rw [step, moment_resolve found] at made
  exact ⟨name, keptAs, sp, step, found, congrArg Moment.answer made, congrArg Moment.after made⟩

theorem Stands.register {methods : List NativeMethod} (stands : Stands fuel earlier m s)
    (registers : m.Registers p n methods) {r : Registry}
    (there : m.before.spaces[p]? = some (.registry r)) :
    ∃ keptAs, m.Tells (r.register n methods).1 ∧
      m.after = (m.before.withSpace p (.registry (r.register n methods).2)).withType keptAs
        (r.register n methods).1 := by
  obtain ⟨name, keptAs, sp, step, found⟩ := registers
  cases there.symm.trans (locate?_eq_some.mp found).2
  have made := stands.made
  rw [step, moment_register found] at made
  exact ⟨keptAs, Moment.tells_of_told (congrArg Moment.answer made), congrArg Moment.after made⟩

/-- Nothing is registered with a loader. -/
theorem Stands.not_registers {l : Loader} (stands : Stands fuel earlier m s)
    (there : m.before.spaces[p]? = some (.loader l)) {result : Except Error LoadedType}
    (tells : m.Tells result) {methods : List NativeMethod} : ¬ m.Registers p n methods := by
  rintro ⟨name, keptAs, sp, step, found⟩
  cases there.symm.trans (locate?_eq_some.mp found).2
  have made := stands.made
  rw [step, moment_register_loader found] at made
  have refused := congrArg Moment.answer made
  cases result with
  | ok t =>
    obtain ⟨names, answer⟩ := tells
    cases answer.symm.trans refused
  | error e => cases Eq.trans (Eq.symm tells) refused

theorem Stands.loader {l : Loader} (stands : Stands fuel earlier m s)
    (there : s.spaces[p]? = some (.loader l)) {sp : Space}
    (before : m.before.spaces[p]? = some sp) :
    ∃ l', sp = .loader l' ∧ l'.fresh = l.fresh := by
  obtain ⟨sp', there', grows⟩ := stands.grows p sp before
  cases there.symm.trans there'
  cases sp with
  | loader l' => exact ⟨l', rfl, (Space.loader.inj grows.fresh).symm⟩
  | registry r => cases grows.fresh

theorem Stands.registry {r : Registry} (stands : Stands fuel earlier m s)
    (there : s.spaces[p]? = some (.registry r)) {sp : Space}
    (before : m.before.spaces[p]? = some sp) : ∃ r', sp = .registry r' ∧ r'.fresh = r.fresh := by
  obtain ⟨sp', there', grows⟩ := stands.grows p sp before
  cases there.symm.trans there'
  cases sp with
  | registry r' => exact ⟨r', rfl, (Space.registry.inj grows.fresh).symm⟩
  | loader l => cases grows.fresh

end Moments

theorem exists_prefix_of_mem {past : List Moment} {m : Moment} (member : m ∈ past) :
    ∃ earlier, earlier ++ [m] <+: past := by
  obtain ⟨earlier, later, rfl⟩ := List.append_of_mem member
  exact ⟨earlier, later, by rw [List.append_assoc, List.singleton_append]⟩

theorem defines_of_resolved {past : List Moment} {p : Nat} {n : String} {t : LoadedType}
    (resolved : Resolved past p n t) : ∃ m ∈ past, m.Defines p n t := by
  obtain ⟨m, member, resolves, tells⟩ := resolved
  exact ⟨m, member, Moment.asks_of_resolves resolves, tells⟩

theorem defines_of_registered {past : List Moment} {p : Nat} {n : String} {t : LoadedType}
    (registered : Registered past p n t) : ∃ m ∈ past, m.Defines p n t := by
  obtain ⟨m, member, ⟨methods, registers⟩, tells⟩ := registered
  exact ⟨m, member, Moment.asks_of_registers registers, tells⟩

variable {fuel : Nat} {files : FileTree} {steps : List Step} {past earlier : List Moment}
  {m : Moment} {s : Session} {p : Nat} {n : String} {t : LoadedType}

/-! Loaders. -/

section Loaders

variable {l l' : Loader} (there : (run fuel steps { files }).2.spaces[p]? = some (.loader l))

include there

theorem loader_resolves_of_defines (here : earlier ++ [m] <+: log fuel steps { files })
    (defines : m.Defines p n t) : m.Resolves p n := by
  have stands := stands_of_log here
  obtain ⟨⟨sp, asks⟩, tells⟩ := defines
  obtain ⟨l', rfl, -⟩ := stands.loader there asks.there
  rcases asks.cases with resolves | ⟨methods, registers⟩
  · exact resolves
  · exact absurd registers (stands.not_registers asks.there tells)

/-- What a loader has was resolved. -/
theorem loader_find?_iff (early : past <+: log fuel steps { files }) (recorded : Recorded past s)
    (before : s.spaces[p]? = some (.loader l')) :
    l'.find? n = some t ↔ Resolved past p n t := by
  refine (recorded.find?_iff before).trans ⟨?_, defines_of_resolved⟩
  rintro ⟨m, member, defines⟩
  obtain ⟨earlier, here⟩ := exists_prefix_of_mem member
  exact ⟨m, member, loader_resolves_of_defines there (here.trans early) defines, defines.2⟩

section Resolves

variable (here : earlier ++ [m] <+: log fuel steps { files }) (resolves : m.Resolves p n)

include here resolves

/-- A loader that is asked to resolve a name has it exactly if it was resolved before. -/
theorem loader_resolve : ∃ name keptAs l', m.step = .resolve name n keptAs ∧
    m.before.locate? name = some (p, .loader l') ∧ l'.fresh = l.fresh ∧
    (∀ t, l'.find? n = some t ↔ Resolved earlier p n t) ∧
    m.answer = told (l'.resolve m.before.files n).1 m.before ∧
    m.after = (m.before.withSpace p (.loader (l'.resolve m.before.files n).2)).withType keptAs
      (l'.resolve m.before.files n).1 := by
  have stands := stands_of_log here
  obtain ⟨name, keptAs, sp, step, found, answer, after⟩ := stands.resolve resolves
  obtain ⟨l', rfl, same⟩ := stands.loader there (locate?_eq_some.mp found).2
  have early := (List.prefix_append earlier [m]).trans here
  exact ⟨name, keptAs, l', step, found, same, fun t => loader_find?_iff there early stands.recorded
    (locate?_eq_some.mp found).2, answer, after⟩

theorem loader_cached (resolved : Resolved earlier p n t) :
    m.Tells (.ok t) ∧ m.after.spaces = m.before.spaces ∧
      ∀ files, moment fuel m.step { m.before with files } =
        ⟨{ m.before with files }, m.step, m.answer, { m.after with files }⟩ := by
  obtain ⟨name, keptAs, l', step, found, -, known, answer, after⟩ :=
    loader_resolve there here resolves
  have has := (known t).mpr resolved
  rw [Loader.resolve_of_find has] at answer after
  rw [withSpace_self (locate?_eq_some.mp found).2] at after
  refine ⟨Moment.tells_of_told answer, by rw [after, spaces_withType], fun files => ?_⟩
  have found' : ({ m.before with files } : Session).locate? name = some (p, .loader l') := found
  rw [step, moment_resolve found', Space.resolve, Loader.resolve_of_find has,
    withSpace_self (locate?_eq_some.mp found').2, answer, after]
  cases keptAs <;> rfl

theorem loader_retried (new : ∀ t, ¬ Resolved earlier p n t) :
    m.Tells (l.fresh.resolve m.before.files n).1 := by
  obtain ⟨name, keptAs, l', step, found, same, known, answer, -⟩ :=
    loader_resolve there here resolves
  have missing : l'.find? n = none :=
    Option.eq_none_iff_forall_ne_some.mpr fun t found => new t ((known t).mp found)
  rw [← same, ← Loader.resolve_fresh missing]
  exact Moment.tells_of_told answer

theorem loader_failed {e : Error} (tells : m.Tells (.error e)) :
    ∃ l' calls, m.before.spaces[p]? = some (.loader l') ∧
      m.after = m.before.withSpace p (.loader { l' with defined := calls }) := by
  obtain ⟨name, keptAs, l', step, found, -, -, answer, after⟩ := loader_resolve there here resolves
  have failed := (Moment.tells_of_told answer).unique tells
  rw [failed] at after
  obtain ⟨calls, kept⟩ := Loader.resolve_of_error failed
  rw [kept] at after
  exact ⟨l', calls, (locate?_eq_some.mp found).2, after⟩

end Resolves

/-- The first success with a name is due to the file as it is then. -/
theorem loader_defines (here : earlier ++ [m] <+: log fuel steps { files })
    (defines : m.Defines p n t)
    (first : ∀ m' ∈ earlier, ∀ t', ¬ m'.Defines p n t') :
    ∃ bytes c, m.before.files.read (l.pathFor n) = .ok bytes ∧ Class.decode bytes = .ok c ∧
      c.name = n ∧ (l.definer.Verifies → c.verify = .ok ()) ∧ t = .ofClass c bytes l.space := by
  have resolves := loader_resolves_of_defines there here defines
  obtain ⟨name, keptAs, l', -, -, same, known, answer, -⟩ := loader_resolve there here resolves
  have missing : l'.find? n = none := by
    refine Option.eq_none_iff_forall_ne_some.mpr fun t' found => ?_
    obtain ⟨m', member, defines'⟩ := defines_of_resolved ((known t').mp found)
    exact first m' member t' defines'
  have given := (Moment.tells_of_told answer).unique defines.2
  have attempts := Loader.attempts_of_none missing m.before.files
  generalize l'.resolve m.before.files n = result at given attempts
  obtain ⟨_, l''⟩ := result
  cases given
  cases attempts with
  | @defines bytes c read decoded name checked =>
    have path : l'.pathFor n = l.pathFor n := congrArg (·.pathFor n) same
    have definer : l'.definer = l.definer := congrArg (·.definer) same
    have space : l'.space = l.space := congrArg (·.space) same
    exact ⟨bytes, c, path ▸ read, decoded, name, definer ▸ checked, by rw [space]⟩

end Loaders

theorem Stands.loader_apart {l : Loader} (stands : Stands fuel earlier m s)
    (other : ∀ n, ¬ m.Resolves p n) (before : m.before.spaces[p]? = some (.loader l)) :
    m.after.spaces[p]? = some (.loader l) := by
  rcases stands.acts.kept before with kept | ⟨n, result, sp, asks, tells, -, -⟩
  · exact kept
  · rcases asks.cases with resolves | ⟨methods, registers⟩
    · exact absurd resolves (other n)
    · exact absurd registers (stands.not_registers before tells)

/-! Registries. -/

section Registries

variable {r r' : Registry} {methods : List NativeMethod}
  (there : (run fuel steps { files }).2.spaces[p]? = some (.registry r))

include there

theorem registry_resolve (here : earlier ++ [m] <+: log fuel steps { files })
    (resolves : m.Resolves p n) :
    ∃ r', m.before.spaces[p]? = some (.registry r') ∧ r'.fresh = r.fresh ∧
      m.Tells (r'.resolve n) ∧ m.after.spaces = m.before.spaces := by
  have stands := stands_of_log here
  obtain ⟨name, keptAs, sp, step, found, answer, after⟩ := stands.resolve resolves
  have before := (locate?_eq_some.mp found).2
  obtain ⟨r', rfl, same⟩ := stands.registry there before
  rw [Space.resolve, withSpace_self before] at after
  exact ⟨r', before, same, Moment.tells_of_told answer, by rw [after, spaces_withType]⟩

theorem registry_register (here : earlier ++ [m] <+: log fuel steps { files })
    (registers : m.Registers p n methods) :
    ∃ r' keptAs, m.before.spaces[p]? = some (.registry r') ∧ r'.fresh = r.fresh ∧
      m.Tells (r'.register n methods).1 ∧
      m.after = (m.before.withSpace p (.registry (r'.register n methods).2)).withType keptAs
        (r'.register n methods).1 := by
  have stands := stands_of_log here
  obtain ⟨sp, asks⟩ := Moment.asks_of_registers registers
  obtain ⟨r', rfl, same⟩ := stands.registry there asks.there
  obtain ⟨keptAs, tells, after⟩ := stands.register registers asks.there
  exact ⟨r', keptAs, asks.there, same, tells, after⟩

/-- The first success with a name is a registration. -/
theorem registry_defines (here : earlier ++ [m] <+: log fuel steps { files })
    (defines : m.Defines p n t) (first : ∀ m' ∈ earlier, ∀ t', ¬ m'.Defines p n t') :
    ∃ methods, m.Registers p n methods ∧ t = .ofNative n methods r.space := by
  have recorded := (stands_of_log here).recorded
  have missing : ∀ {r'}, m.before.spaces[p]? = some (.registry r') → r'.find? n = none := by
    intro r' before
    refine Option.eq_none_iff_forall_ne_some.mpr fun t' found => ?_
    obtain ⟨m', member, defines'⟩ := (recorded.find?_iff before).mp found
    exact first m' member t' defines'
  obtain ⟨⟨sp, asks⟩, tells⟩ := defines
  rcases asks.cases with resolves | ⟨methods, registers⟩
  · obtain ⟨r', before, -, told, -⟩ := registry_resolve there here resolves
    rw [Registry.resolve_of_none (missing before)] at told
    cases told.unique tells
  · obtain ⟨r', keptAs, before, same, told, -⟩ := registry_register there here registers
    have made := told.unique tells
    rw [Registry.register_of_none (missing before)] at made
    have space : r'.space = r.space := congrArg (·.space) same
    refine ⟨methods, registers, ?_⟩
    split at made
    · cases made
    · cases made
      rw [space]

/-- What a registry has was registered. -/
theorem registry_find?_iff (early : past <+: log fuel steps { files }) (recorded : Recorded past s)
    (before : s.spaces[p]? = some (.registry r')) :
    r'.find? n = some t ↔ Registered past p n t := by
  refine ⟨fun found => ?_, fun registered =>
    (recorded.find?_iff before).mpr (defines_of_registered registered)⟩
  obtain ⟨earlier, m, here, defines, first⟩ := recorded.defined before found
  obtain ⟨methods, registers, -⟩ := registry_defines there (here.trans early) defines first
  exact ⟨m, here.subset (by simp), ⟨methods, registers⟩, defines.2⟩

variable (here : earlier ++ [m] <+: log fuel steps { files })

include here

/-- A registry has, before a moment, what was registered earlier. -/
theorem registry_find?_before (before : m.before.spaces[p]? = some (.registry r')) :
    r'.find? n = some t ↔ Registered earlier p n t :=
  registry_find?_iff there ((List.prefix_append earlier [m]).trans here)
    (stands_of_log here).recorded before

theorem registry_missing (new : ∀ t, ¬ Registered earlier p n t)
    (before : m.before.spaces[p]? = some (.registry r')) : r'.find? n = none :=
  Option.eq_none_iff_forall_ne_some.mpr fun t found =>
    new t ((registry_find?_before there here before).mp found)

theorem registry_once (registered : Registered earlier p n t)
    (registers : m.Registers p n methods) :
    m.after = m.before ∧
      m.Tells (.error (match Registry.invalidName? (Registry.typeNames n methods) with
        | some invalid => .invalidDefinition n (.invalidTypeName invalid)
        | none => .duplicateType n)) := by
  obtain ⟨r', keptAs, before, -, tells, after⟩ := registry_register there here registers
  have has := (registry_find?_before there here before).mpr registered
  rw [Registry.register_of_find has] at tells after
  exact ⟨by rw [after, withSpace_self before]; rfl, tells⟩

theorem registry_apart
    (other : ∀ n methods, m.Registers p n methods → ∀ t, ¬ m.Tells (.ok t)) {sp : Space}
    (before : m.before.spaces[p]? = some sp) : m.after.spaces[p]? = some sp := by
  rcases (stands_of_log here).acts.kept before with
    kept | ⟨n, result, sp', asks, tells, answers, after⟩
  · exact kept
  · rcases asks.cases with resolves | ⟨methods, registers⟩
    · obtain ⟨-, -, -, -, kept⟩ := registry_resolve there here resolves
      rw [kept, before]
    · obtain ⟨r', keptAs, before', -, told, after'⟩ := registry_register there here registers
      cases before.symm.trans before'
      cases result with
      | ok t => exact absurd tells (other n methods registers t)
      | error e =>
        rw [Registry.register_of_error (told.unique tells), withSpace_self before] at after'
        rw [after', spaces_withType, before]

end Registries

theorem loader_keeps {l : Loader}
    (there : (run fuel steps { files }).2.spaces[p]? = some (.loader l)) :
    LoaderKeeps fuel (log fuel steps { files }) p l where
  cached here resolved resolves := loader_cached there here resolves resolved
  failed member resolves tells := by
    obtain ⟨earlier, here⟩ := exists_prefix_of_mem member
    exact loader_failed there here resolves tells
  retried here new resolves := loader_retried there here resolves new
  loaded := loader_find?_iff there List.prefix_rfl (recorded_run fuel files steps) there
  distinct := (recorded_run fuel files steps).names there
  stored found := by
    obtain ⟨earlier, m, here, defines, first⟩ :=
      (recorded_run fuel files steps).defined there found
    obtain ⟨bytes, c, read, decoded, name, checked, rfl⟩ := loader_defines there here defines first
    refine ⟨earlier, m, bytes, c, here, fun t' resolved => ?_,
      loader_resolves_of_defines there here defines, defines.2, read, decoded, name, rfl, rfl, rfl,
      rfl, checked⟩
    obtain ⟨m', member, defines'⟩ := defines_of_resolved resolved
    exact first m' member t' defines'
  apart member other before := by
    obtain ⟨earlier, here⟩ := exists_prefix_of_mem member
    exact (stands_of_log here).loader_apart other before

theorem registry_keeps {r : Registry}
    (there : (run fuel steps { files }).2.spaces[p]? = some (.registry r)) :
    RegistryKeeps (log fuel steps { files }) p r where
  kept here registered resolves := by
    obtain ⟨r', before, -, tells, -⟩ := registry_resolve there here resolves
    have has := (registry_find?_before there here before).mpr registered
    rwa [Registry.resolve_of_find has] at tells
  once here registered registers := registry_once there here registered registers
  retried here new registers := by
    obtain ⟨r', -, before, same, tells, -⟩ := registry_register there here registers
    rwa [Registry.register_fresh (registry_missing there here new before), same] at tells
  missing here new resolves := by
    obtain ⟨r', before, same, tells, -⟩ := registry_resolve there here resolves
    have name : r'.name = r.name := congrArg (·.name) same
    rwa [Registry.resolve_of_none (registry_missing there here new before), name] at tells
  registered := registry_find?_iff there List.prefix_rfl (recorded_run fuel files steps) there
  distinct := (recorded_run fuel files steps).names there
  stored found := by
    obtain ⟨earlier, m, here, defines, first⟩ :=
      (recorded_run fuel files steps).defined there found
    obtain ⟨methods, registers, made⟩ := registry_defines there here defines first
    refine ⟨earlier, m, methods, here, fun t' registered => ?_, registers, defines.2, made⟩
    obtain ⟨m', member, defines'⟩ := defines_of_registered registered
    exact first m' member t' defines'
  apart member other before := by
    obtain ⟨earlier, here⟩ := exists_prefix_of_mem member
    exact registry_apart there here other before

/-- Stores over whole runs: every loader and every registry of a session that began with nothing but
files keeps what it has. -/
theorem stores_kept (fuel : Nat) (files : FileTree) (steps : List Step) (p : Nat) :
    (∀ l, (run fuel steps { files }).2.spaces[p]? = some (.loader l) →
      LoaderKeeps fuel (log fuel steps { files }) p l) ∧
    (∀ r, (run fuel steps { files }).2.spaces[p]? = some (.registry r) →
      RegistryKeeps (log fuel steps { files }) p r) :=
  ⟨fun _ there => loader_keeps there, fun _ there => registry_keeps there⟩

def stubFiles : FileTree := FileTree.empty.write "udfs/Stub.udfc" stub.encode

def stubType : LoadedType := .ofClass stub stub.encode ⟨1⟩

def stubLoader : Loader := .ofDefiner "udfs" (.bytecode true) ⟨1⟩ 0

def stubLoaded : Loader := { stubLoader with types := [stubType], defined := 1 }

def single (files : FileTree) (l : Loader) : Session where
  files := files
  spaces := [.loader l]
  spaceNames := ⟨[("main", 0)]⟩

theorem resolve_stub : stubLoader.resolve stubFiles "Stub" = (.ok stubType, stubLoaded) := by
  have usable : ¬ (("udfs/Stub.udfc".contains '\x00') = true ∨
      FileTree.maxPath < "udfs/Stub.udfc".utf8ByteSize) := by
    simp only [not_or]
    exact ⟨by simp, by decide⟩
  have read : stubFiles.read (stubLoader.pathFor "Stub") = .ok stub.encode := by
    change stubFiles.read "udfs/Stub.udfc" = _
    rw [FileTree.read, if_neg usable]
    rfl
  have made : stubLoader.definer.define "Stub" stub.encode stubLoader.space = .ok stubType := by
    have accepted : Class.decode stub.encode = .ok stub :=
      Class.decode_eq_ok_iff.mpr ⟨rfl, ⟨by decide, by decide⟩, rfl⟩
    change Definer.defineClass true "Stub" stub.encode ⟨1⟩ = _
    rw [Definer.defineClass, accepted]
    rfl
  have missing : stubLoader.find? "Stub" = none := rfl
  simp only [Loader.resolve, missing, read, made]
  rfl

theorem moment_stub {files : FileTree} {l : Loader}
    (resolves : l.resolve files "Stub" = (.ok stubType, stubLoaded)) :
    moment 0 (.resolve "main" "Stub" none) (single files l) =
      ⟨single files l, .resolve "main" "Stub" none, told (.ok stubType) (single files l),
        single files stubLoaded⟩ := by
  have found : (single files l).locate? "main" = some (0, .loader l) := rfl
  have answers : l.resolve (single files l).files "Stub" = (.ok stubType, stubLoaded) := resolves
  rw [moment_resolve found, Space.resolve, answers]
  rfl

/-- A class is resolved, and once more after its file is removed. -/
def outliving : List Step := [
  .openLoader (.definer "udfs" (.bytecode true)) "main",
  .resolve "main" "Stub" none,
  .remove "udfs/Stub.udfc",
  .resolve "main" "Stub" none]

theorem stub_outlives_file :
    (run 0 outliving { files := stubFiles }).2.spaces[0]? = some (.loader stubLoaded) ∧
      ∃ earlier m, log 0 outliving { files := stubFiles } = earlier ++ [m] ∧
        m.before = single (stubFiles.remove "udfs/Stub.udfc") stubLoaded ∧
        m.step = .resolve "main" "Stub" none ∧ m.Tells (.ok stubType) := by
  have opened : (moment 0 (.openLoader (.definer "udfs" (.bytecode true)) "main")
      { files := stubFiles }).after = single stubFiles stubLoader := rfl
  have first := moment_stub resolve_stub
  have removed : (moment 0 (.remove "udfs/Stub.udfc") (single stubFiles stubLoaded)).after =
      single (stubFiles.remove "udfs/Stub.udfc") stubLoaded := rfl
  have second := moment_stub (Loader.resolve_of_find (l := stubLoaded) rfl
    (stubFiles.remove "udfs/Stub.udfc"))
  have whole : log 0 outliving { files := stubFiles } =
      [moment 0 (.openLoader (.definer "udfs" (.bytecode true)) "main") { files := stubFiles },
        moment 0 (.resolve "main" "Stub" none) (single stubFiles stubLoader),
        moment 0 (.remove "udfs/Stub.udfc") (single stubFiles stubLoaded)] ++
      [moment 0 (.resolve "main" "Stub" none)
        (single (stubFiles.remove "udfs/Stub.udfc") stubLoaded)] := by
    simp only [outliving, log, opened, congrArg Moment.after first, removed]
    rfl
  have there :
      (run 0 outliving { files := stubFiles }).2.spaces[0]? = some (.loader stubLoaded) := by
    simp only [outliving, run_cons, opened, congrArg Moment.after first, removed,
      congrArg Moment.after second]
    rfl
  have keeps := (stores_kept 0 stubFiles outliving 0).1 stubLoaded there
  refine ⟨there, _, _, whole, before_moment .., step_moment .., ?_⟩
  have resolved : (moment 0 (.resolve "main" "Stub" none) (single stubFiles stubLoader)).Resolves 0
      "Stub" ∧ (moment 0 (.resolve "main" "Stub" none) (single stubFiles stubLoader)).Tells
        (.ok stubType) := by
    rw [first]
    exact ⟨⟨"main", none, _, rfl, rfl⟩, _, rfl⟩
  have again : (moment 0 (.resolve "main" "Stub" none)
      (single (stubFiles.remove "udfs/Stub.udfc") stubLoaded)).Resolves 0 "Stub" := by
    rw [second]
    exact ⟨"main", none, _, rfl, rfl⟩
  rw [whole] at keeps
  exact (keeps.cached List.prefix_rfl ⟨_, .tail _ (.head _), resolved⟩ again).1

end Rowwise.Session
