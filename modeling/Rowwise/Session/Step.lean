import Rowwise.Batch
import Rowwise.Session.Basic
import Rowwise.Space.Inspect

/-! The steps of a session, and what they answer. -/
namespace Rowwise.Session

inductive LoaderSource where
  | directory (path : String)
  | settings (s : Settings)
  /-- A configuration file. -/
  | file (path : String)
  | definer (basePath : String) (definer : Definer)
  deriving DecidableEq, Repr

inductive Subject where
  | space (name : String)
  | type (name : String)
  | handle (name : String)
  deriving DecidableEq, Repr

/-- What a session can be told to do. `keptAs` is the name for the object that a step makes. -/
inductive Step where
  | write (path : String) (content : List UInt8)
  | makeDirectory (path : String)
  | remove (path : String)
  | readSettings (path : String)
  | openLoader (source : LoaderSource) (keptAs : String)
  | openRegistry (title : String) (limits : Limits) (keptAs : String)
  | makeInvoker (space : String) (limits : Limits) (keptAs : String)
  | register (registry typeName : String) (methods : List NativeMethod) (keptAs : Option String)
  | resolve (space typeName : String) (keptAs : Option String)
  | showSpace (space : String)
  | has (space typeName : String)
  | pathFor (loader typeName : String)
  | countDefinitions
  | makeHandle (type : String) (selector : Selector) (granted : Bool) (keptAs : String)
  | grant (handle : String)
  | describe (type method : String)
  | inspect (subject : Subject)
  | invokeRow (invoker handle : String) (args : List Value)
  | invokeAll (invoker handle : String) (batch : Batch.Source) (keptAs : Option String)
  | invokeInto (invoker handle : String) (batch : Batch.Source) (outputs : List Value)
      (keptAs : Option String)
  | unbox (results : String) (target : UnboxTarget)

inductive Answer where
  | done
  | count (n : Nat)
  | flag (value : Bool)
  | text (s : String)
  | settings (s : Settings)
  | space (s : Space)
  | invoker (i : Invoker)
  /-- A type and the names it had before. -/
  | type (t : LoadedType) (names : List String)
  | handle (h : Handle)
  | value (v : Value)
  | values (vs : List Value)
  | filled (verdict : Except Error Unit) (outputs : List Value)
  | unboxed (values : Unboxed)

def openLoader (source : LoaderSource) (keptAs : String) : SessionM Space := do
  let s ← get
  let loader ← match source with
    | .directory path => pure (Loader.ofSettings { loader.basePath := path })
    | .settings settings => pure (Loader.ofSettings settings)
    | .file path => Loader.ofSettings <$> check ((Settings.ofFile s.files path).mapError .config)
    | .definer basePath definer => pure (Loader.ofDefiner basePath definer)
  addSpace keptAs (.loader (loader s.nextSpace s.nextOrdinal))

def openRegistry (title : String) (limits : Limits) (keptAs : String) : SessionM Space := do
  addSpace keptAs (.registry { name := title, space := (← get).nextSpace, limits })

def register (registry typeName : String) (methods : List NativeMethod)
    (keptAs : Option String) : SessionM Answer := do
  match ← space registry with
  | (_, .loader _) => throw (.unknownName registry)
  | (position, .registry r) =>
    let (answer, r) := r.register typeName methods
    setSpace position (.registry r)
    let t ← check answer
    return .type t (← keepType t keptAs)

def resolve (name typeName : String) (keptAs : Option String) : SessionM Answer := do
  let (position, s) ← space name
  let (answer, s) := s.resolve (← get).files typeName
  setSpace position s
  let t ← check answer
  return .type t (← keepType t keptAs)

def pathFor (name typeName : String) : SessionM String := do
  match ← space name with
  | (_, .loader l) => return l.pathFor typeName
  | (_, .registry _) => throw (.unknownName name)

def inspect : Subject → SessionM String
  | .space name => return (← space name).2.inspect
  | .type name => return (← known name (·.types)).inspect
  | .handle name => return (← known name (·.handles)).inspect

def finished (answer : Option α) : SessionM α :=
  match answer with
  | some a => return a
  | none => throw .unfinished

def invokeRow (fuel : Nat) (caller handle : String) (args : List Value) : SessionM Value := do
  let i ← invoker caller
  let h ← known handle (·.handles)
  check (← finished (i.invokeRow fuel h args))

def invokeAll (fuel : Nat) (caller handle : String) (batch : Batch.Source)
    (keptAs : Option String) : SessionM (List Value) := do
  let i ← invoker caller
  let h ← known handle (·.handles)
  let b ← check (Batch.ofSource batch)
  let values ← check (← finished (i.invokeAll fuel h b))
  keepResults keptAs values
  return values

/-- The outputs are kept even if a row fails. -/
def invokeInto (fuel : Nat) (caller handle : String) (batch : Batch.Source)
    (outputs : List Value) (keptAs : Option String) : SessionM Answer := do
  let i ← invoker caller
  let h ← known handle (·.handles)
  let b ← check (Batch.ofSource batch)
  let (outputs, verdict) ← finished (i.invokeInto fuel h outputs b)
  keepResults keptAs outputs
  return .filled verdict outputs

/-- Make a step. Every call of a method in it is given `fuel` steps of the machine. -/
def perform (fuel : Nat) : Step → SessionM Answer
  | .write path content => do
    modify fun s => { s with files := s.files.write path content }
    return .count content.length
  | .makeDirectory path => do
    modify fun s => { s with files := s.files.makeDirectory path }
    return .done
  | .remove path => do
    modify fun s => { s with files := s.files.remove path }
    return .done
  | .readSettings path => do
    return .settings (← check ((Settings.ofFile (← get).files path).mapError .config))
  | .openLoader source keptAs => return .space (← openLoader source keptAs)
  | .openRegistry title limits keptAs => return .space (← openRegistry title limits keptAs)
  | .makeInvoker name limits keptAs => do
    let i : Invoker := ⟨(← space name).2.id, limits⟩
    modify fun s => { s with invokers := s.invokers.put keptAs i }
    return .invoker i
  | .register registry typeName methods keptAs => register registry typeName methods keptAs
  | .resolve name typeName keptAs => resolve name typeName keptAs
  | .showSpace name => return .space (← space name).2
  | .has name typeName => return .flag ((← space name).2.has typeName)
  | .pathFor name typeName => return .text (← pathFor name typeName)
  | .countDefinitions => return .count ((← get).spaces.foldr (·.defined + ·) 0)
  | .makeHandle type selector granted keptAs => do
    let t ← known type (·.types)
    let h ← check (Handle.select t selector)
    return .handle (← keepHandle keptAs (if granted then h.grant else h))
  | .grant name => do
    let h ← known name (·.handles)
    return .handle (← keepHandle name h.grant)
  | .describe type method => do
    return .text (← check ((← known type (·.types)).describe method))
  | .inspect subject => return .text (← inspect subject)
  | .invokeRow caller handle args => return .value (← invokeRow fuel caller handle args)
  | .invokeAll caller handle batch keptAs =>
    return .values (← invokeAll fuel caller handle batch keptAs)
  | .invokeInto caller handle batch outputs keptAs =>
    invokeInto fuel caller handle batch outputs keptAs
  | .unbox name target => return .unboxed (← check (target.unbox (← known name (·.results))))

/-- Make one step after the other; a refusal stops none of the later ones. -/
def run (fuel : Nat) : List Step → Session → List (Except Refusal Answer) × Session
  | [], s => ([], s)
  | step :: rest, s =>
    match (perform fuel step).run s with
    | .ok answer s =>
      let later := run fuel rest s
      (.ok answer :: later.1, later.2)
    | .error refusal s =>
      let later := run fuel rest s
      (.error refusal :: later.1, later.2)

end Rowwise.Session
