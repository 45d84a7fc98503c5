import Rowwise.Space.Type
import Rowwise.Value.Basic

/-! Ready-made native bodies. -/
namespace Rowwise.Native

def constant (v : Value) : Native := fun _ => .ok v

def argument (i : Nat) : Native := fun args =>
  match args[i]? with
  | some v => .ok v
  | none => .error (.native s!"no argument {i}")

def arguments : Native := fun args => .ok (.array args)

def display : Native := fun args => .ok (.string (Value.array args).text)

def intArgument (i : Nat) (args : List Value) : Except Fault Int32 :=
  match args[i]?.bind Value.asInt? with
  | some n => .ok n
  | none => .error (.native s!"argument {i} is not an int")

/-- The sum of the first two arguments. It wraps around. -/
def add : Native := fun args => do
  let a ← intArgument 0 args
  let b ← intArgument 1 args
  return .int (a + b)

def length : Native := fun args =>
  match args[0]?.bind Value.asString? with
  | some s => .ok (.int (Int32.ofNat s.length))
  | none => .error (.thrown "null string")

def fail (fault : Fault) : Native := fun _ => .error fault

end Rowwise.Native
