import Rowwise.Batch
import Rowwise.Machine.State
import Rowwise.Space.Type

/-! Calling a method once for every row of a batch. All calls are given the same number of steps;
there is no answer if one of them needs more. -/
namespace Rowwise

structure Invoker where
  space : SpaceId
  limits : Limits := {}
  deriving DecidableEq, Repr

namespace Invoker

/-- Handles of other namespaces are refused, and so are methods that are not accessible. -/
def check (i : Invoker) (h : Handle) : Except Error Unit :=
  if h.owner.space ≠ i.space then .error (.foreignHandle i.space h.owner.space)
  else if !h.isAccessible then .error (.accessDenied h.qualifiedName)
  else .ok ()

def checkArity (h : Handle) (found : Nat) : Except Error Unit :=
  if found ≠ h.arity then .error (.arityMismatch h.qualifiedName h.arity found) else .ok ()

def call (i : Invoker) (fuel : Nat) (h : Handle) (args : List Value) :
    Option (Except Fault Value) :=
  match h.owner.body with
  | .bytecode c => c.invoke i.limits fuel h.index args
  | .native bodies =>
    match bodies[h.index.val]? with
    | none => some (.error (.invalidCallTarget (UInt32.ofNat h.index)))
    | some body => some (body args >>= coerceReturn h.method.returns)

def invokeRow (i : Invoker) (fuel : Nat) (h : Handle) (args : List Value) :
    Option (Except Error Value) :=
  match i.check h with
  | .error e => some (.error e)
  | .ok () =>
    match checkArity h args.length with
    | .error e => some (.error e)
    | .ok () => (i.call fuel h args).map (·.mapError (.invocationFailed h.qualifiedName none))

/-- Call the method for `left` rows from `row` on, and put the results in the place of the first
outputs. A failing row ends the batch. -/
def fill (i : Invoker) (fuel : Nat) (h : Handle) (b : Batch) (row : Nat) :
    Nat → List Value → Option (List Value × Except Error Unit)
  | 0, outputs => some (outputs, .ok ())
  | _, [] => some ([], .ok ())
  | left + 1, output :: outputs =>
    match b.row row with
    | .error e => some (output :: outputs, .error e)
    | .ok args =>
      match i.call fuel h args with
      | none => none
      | some (.error fault) =>
        some (output :: outputs, .error (.invocationFailed h.qualifiedName (some row) fault))
      | some (.ok result) =>
        (fill i fuel h b (row + 1) left outputs).map fun rest => (result :: rest.1, rest.2)

/-- Overwrite the first outputs with the results of the rows. All checks come before the first
row; an error leaves the outputs of the failing row and of those after it as they are. -/
def invokeInto (i : Invoker) (fuel : Nat) (h : Handle) (outputs : List Value) (b : Batch) :
    Option (List Value × Except Error Unit) :=
  match i.check h with
  | .error e => some (outputs, .error e)
  | .ok () =>
    match checkArity h b.width with
    | .error e => some (outputs, .error e)
    | .ok () =>
      if outputs.length < b.rows then
        some (outputs, .error (.lengthMismatch .output b.rows outputs.length))
      else
        i.fill fuel h b 0 b.rows outputs

def invokeAll (i : Invoker) (fuel : Nat) (h : Handle) (b : Batch) :
    Option (Except Error (List Value)) :=
  (i.invokeInto fuel h (List.replicate b.rows .null) b).map fun (outputs, verdict) =>
    verdict.map fun () => outputs

end Invoker

end Rowwise
