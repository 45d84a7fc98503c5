import Rowwise.Class.Basic
import Rowwise.Verify.Depth

/-! Verification of classes. Methods are checked in order, and within a method the signature
comes before the code. -/
namespace Rowwise

def maxLocals : Nat := 65536

namespace Method

def verifyParams : List String → Except MethodDefect Unit
  | [] => .ok ()
  | param :: rest =>
    match TypeName.parse? param with
    | none => .error (.invalidTypeName param)
    | some t => if t.isVoid then .error (.invalidTypeName param) else verifyParams rest

def verifySignature (m : Method) : Except MethodDefect Unit := do
  verifyParams m.params
  if (TypeName.parse? m.returns).isNone then throw (.invalidTypeName m.returns)
  if maxLocals < m.locals then throw (.tooManyLocals m.locals maxLocals)
  if m.locals < m.arity then throw (.tooFewLocals m.locals m.arity)

def instructions (m : Method) : Except MethodDefect (List Placed) :=
  match listing 0 m.code with
  | .ok code => .ok code
  | .error (.invalidOpcode byte offset) => .error (.invalidOpcode byte offset)
  | .error e => .error (.malformed e)

end Method

namespace Placed

def verifyConstant (constants : Pool) (p : Placed) : Except MethodDefect Unit :=
  match p.instruction with
  | .constText index =>
    if index.toNat < constants.strings.length then .ok ()
    else .error (.invalidConstant index p.offset)
  | .constLong index =>
    if index.toNat < constants.integers.length then .ok ()
    else .error (.invalidConstant index p.offset)
  | _ => .ok ()

def verifyLocal (locals : Nat) (p : Placed) : Except MethodDefect Unit :=
  match p.instruction.slot? with
  | some slot => if slot < locals then .ok () else .error (.invalidLocal slot locals p.offset)
  | none => .ok ()

def verifyCall (methods : List Method) (p : Placed) : Except MethodDefect Unit :=
  match p.instruction with
  | .call index args =>
    match methods[index.toNat]? with
    | none => .error (.invalidCallTarget index p.offset)
    | some target =>
      if target.arity = args.toNat then .ok ()
      else .error (.callArity target.arity args.toNat p.offset)
  | _ => .ok ()

end Placed

/-- One kind of check is made on the whole code before the next kind begins. -/
def Method.verify (c : Class) (m : Method) : Except MethodDefect Unit := do
  m.verifySignature
  let code ← m.instructions
  code.forM (·.verifyConstant c.constants)
  code.forM (·.verifyLocal m.locals)
  code.forM (·.verifyCall c.methods)
  let _ ← stackDepths code

namespace Class

/-- Check the methods that follow those in `earlier`. No two methods have the same name and
the same parameter types. -/
def verifyFrom (c : Class) (earlier : List Method) : List Method → Except ClassDefect Unit
  | [] => .ok ()
  | m :: later =>
    if earlier.any fun e => e.name == m.name && e.params == m.params then
      .error (.duplicateMethod m.name)
    else
      match m.verify c with
      | .error defect => .error (.inMethod m.name defect)
      | .ok () => verifyFrom c (earlier ++ [m]) later

def verify (c : Class) : Except ClassDefect Unit := c.verifyFrom [] c.methods

end Class

end Rowwise
