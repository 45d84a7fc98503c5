import Rowwise.Bytes.Cursor

/-! The instruction set. Every opcode has one entry: its byte, its name, the widths of its
operand fields and its effect on the operand stack. All other facts are read off the entry
or off the opcode's family. -/
namespace Rowwise

inductive Arithmetic where
  | add | sub | mul | div | rem
  deriving DecidableEq, Repr

inductive DoubleArithmetic where
  | add | sub | mul | div
  deriving DecidableEq, Repr

inductive Comparison where
  | eq | ne | lt | le | gt | ge
  deriving DecidableEq, Repr

inductive Conversion where
  | intToLong | intToDouble | longToInt | longToDouble | doubleToInt | doubleToLong
  deriving DecidableEq, Repr

/-- Operations on the operand stack alone. They have no operands in the code. -/
inductive Operation where
  | nop | pop | dup | swap
  | null | boolean (value : Bool)
  | int (op : Arithmetic) | negateInt
  | long (op : Arithmetic) | negateLong
  | double (op : DoubleArithmetic) | negateDouble
  | convert (conversion : Conversion)
  | compareInt (op : Comparison) | orderLong | compareDouble (op : Comparison)
  | equal | notEqual | not | and | or
  | concat | length | equalText | toText
  | element | arrayLength
  deriving DecidableEq, Repr

inductive Condition where
  | always | ifFalse | ifTrue | ifNull | ifNotNull
  deriving DecidableEq, Repr

inductive Opcode where
  | stack (op : Operation)
  | constInt | constDouble | constText | constLong
  | load | store
  | loadFixed (slot : Fin 2) | storeFixed (slot : Fin 2)
  | jump (condition : Condition)
  | call
  | returnValue | returnVoid
  | throw | trap
  deriving DecidableEq, Repr

namespace Opcode

structure Entry where
  byte : UInt8
  name : String
  pops : Nat
  pushes : Nat
  /-- Widths in bytes of the operand fields that follow the opcode. -/
  fields : List Nat := []

def intEntry : Arithmetic → Entry
  | .add => ⟨0x20, "IADD", 2, 1, []⟩
  | .sub => ⟨0x21, "ISUB", 2, 1, []⟩
  | .mul => ⟨0x22, "IMUL", 2, 1, []⟩
  | .div => ⟨0x23, "IDIV", 2, 1, []⟩
  | .rem => ⟨0x24, "IMOD", 2, 1, []⟩

def longEntry : Arithmetic → Entry
  | .add => ⟨0x28, "LADD", 2, 1, []⟩
  | .sub => ⟨0x29, "LSUB", 2, 1, []⟩
  | .mul => ⟨0x2A, "LMUL", 2, 1, []⟩
  | .div => ⟨0x2B, "LDIV", 2, 1, []⟩
  | .rem => ⟨0x2C, "LMOD", 2, 1, []⟩

def doubleEntry : DoubleArithmetic → Entry
  | .add => ⟨0x30, "FADD", 2, 1, []⟩
  | .sub => ⟨0x31, "FSUB", 2, 1, []⟩
  | .mul => ⟨0x32, "FMUL", 2, 1, []⟩
  | .div => ⟨0x33, "FDIV", 2, 1, []⟩

def conversionEntry : Conversion → Entry
  | .intToLong => ⟨0x40, "I2L", 1, 1, []⟩
  | .intToDouble => ⟨0x41, "I2D", 1, 1, []⟩
  | .longToInt => ⟨0x42, "L2I", 1, 1, []⟩
  | .longToDouble => ⟨0x43, "L2D", 1, 1, []⟩
  | .doubleToInt => ⟨0x44, "D2I", 1, 1, []⟩
  | .doubleToLong => ⟨0x45, "D2L", 1, 1, []⟩

def compareIntEntry : Comparison → Entry
  | .eq => ⟨0x50, "IEQ", 2, 1, []⟩
  | .ne => ⟨0x51, "INE", 2, 1, []⟩
  | .lt => ⟨0x52, "ILT", 2, 1, []⟩
  | .le => ⟨0x53, "ILE", 2, 1, []⟩
  | .gt => ⟨0x54, "IGT", 2, 1, []⟩
  | .ge => ⟨0x55, "IGE", 2, 1, []⟩

def compareDoubleEntry : Comparison → Entry
  | .eq => ⟨0x60, "FEQ", 2, 1, []⟩
  | .ne => ⟨0x61, "FNE", 2, 1, []⟩
  | .lt => ⟨0x62, "FLT", 2, 1, []⟩
  | .le => ⟨0x63, "FLE", 2, 1, []⟩
  | .gt => ⟨0x64, "FGT", 2, 1, []⟩
  | .ge => ⟨0x65, "FGE", 2, 1, []⟩

def operationEntry : Operation → Entry
  | .nop => ⟨0x00, "NOP", 0, 0, []⟩
  | .pop => ⟨0x01, "POP", 1, 0, []⟩
  | .dup => ⟨0x02, "DUP", 1, 2, []⟩
  | .swap => ⟨0x03, "SWAP", 2, 2, []⟩
  | .null => ⟨0x04, "CONST_NULL", 0, 1, []⟩
  | .boolean true => ⟨0x05, "CONST_TRUE", 0, 1, []⟩
  | .boolean false => ⟨0x06, "CONST_FALSE", 0, 1, []⟩
  | .int op => intEntry op
  | .negateInt => ⟨0x25, "INEG", 1, 1, []⟩
  | .long op => longEntry op
  | .negateLong => ⟨0x2D, "LNEG", 1, 1, []⟩
  | .double op => doubleEntry op
  | .negateDouble => ⟨0x34, "FNEG", 1, 1, []⟩
  | .convert conversion => conversionEntry conversion
  | .compareInt op => compareIntEntry op
  | .orderLong => ⟨0x56, "LCMP", 2, 1, []⟩
  | .compareDouble op => compareDoubleEntry op
  | .equal => ⟨0x70, "EQ", 2, 1, []⟩
  | .notEqual => ⟨0x71, "NE", 2, 1, []⟩
  | .not => ⟨0x74, "NOT", 1, 1, []⟩
  | .and => ⟨0x75, "AND", 2, 1, []⟩
  | .or => ⟨0x76, "OR", 2, 1, []⟩
  | .concat => ⟨0x80, "SCONCAT", 2, 1, []⟩
  | .length => ⟨0x81, "SLEN", 1, 1, []⟩
  | .equalText => ⟨0x82, "SEQ", 2, 1, []⟩
  | .toText => ⟨0x88, "TO_STRING", 1, 1, []⟩
  | .element => ⟨0xC1, "LOAD_ELEM", 2, 1, []⟩
  | .arrayLength => ⟨0xC3, "ARRAY_LEN", 1, 1, []⟩

def jumpEntry : Condition → Entry
  | .always => ⟨0x90, "JMP", 0, 0, [4]⟩
  | .ifFalse => ⟨0x91, "JMP_IF_FALSE", 1, 0, [4]⟩
  | .ifTrue => ⟨0x92, "JMP_IF_TRUE", 1, 0, [4]⟩
  | .ifNull => ⟨0x93, "JMP_IF_NULL", 1, 0, [4]⟩
  | .ifNotNull => ⟨0x94, "JMP_IF_NOT_NULL", 1, 0, [4]⟩

/-- The entry of an opcode. A call pops the number of arguments in its operand, not the
number given here. -/
def entry : Opcode → Entry
  | .stack op => operationEntry op
  | .constInt => ⟨0x07, "CONST_I32", 0, 1, [4]⟩
  | .constDouble => ⟨0x08, "CONST_F64", 0, 1, [8]⟩
  | .constText => ⟨0x09, "CONST_STR", 0, 1, [4]⟩
  | .constLong => ⟨0x0A, "CONST_I64", 0, 1, [4]⟩
  | .load => ⟨0x10, "LOAD_LOCAL", 0, 1, [2]⟩
  | .store => ⟨0x11, "STORE_LOCAL", 1, 0, [2]⟩
  | .loadFixed 0 => ⟨0x12, "LOAD_LOCAL_0", 0, 1, []⟩
  | .loadFixed 1 => ⟨0x13, "LOAD_LOCAL_1", 0, 1, []⟩
  | .storeFixed 0 => ⟨0x14, "STORE_LOCAL_0", 1, 0, []⟩
  | .storeFixed 1 => ⟨0x15, "STORE_LOCAL_1", 1, 0, []⟩
  | .jump condition => jumpEntry condition
  | .call => ⟨0xA6, "CALL_STATIC", 0, 1, [4, 2]⟩
  | .returnValue => ⟨0xA2, "RETURN", 1, 0, []⟩
  | .returnVoid => ⟨0xA3, "RETURN_VOID", 0, 0, []⟩
  | .throw => ⟨0xE3, "THROW", 1, 0, []⟩
  | .trap => ⟨0xE4, "TRAP", 0, 0, [2]⟩

def byte (op : Opcode) : UInt8 := op.entry.byte
def name (op : Opcode) : String := op.entry.name
def fields (op : Opcode) : List Nat := op.entry.fields

def width (op : Opcode) : Nat := op.fields.foldr (· + ·) 0

def isJump : Opcode → Bool
  | .jump _ => true
  | _ => false

def isCall : Opcode → Bool
  | .call => true
  | _ => false

def isReturn : Opcode → Bool
  | .returnValue | .returnVoid => true
  | _ => false

/-- Jumps, returns and failures end a straight run of code. -/
def isTerminator : Opcode → Bool
  | .jump _ | .returnValue | .returnVoid | .throw | .trap => true
  | _ => false

def fallsThrough : Opcode → Bool
  | .jump .always | .returnValue | .returnVoid | .throw | .trap => false
  | _ => true

def arithmetics : List Arithmetic := [.add, .sub, .mul, .div, .rem]
def doubleArithmetics : List DoubleArithmetic := [.add, .sub, .mul, .div]
def comparisons : List Comparison := [.eq, .ne, .lt, .le, .gt, .ge]

def conversions : List Conversion :=
  [.intToLong, .intToDouble, .longToInt, .longToDouble, .doubleToInt, .doubleToLong]

/-- The operations that do not belong to a family. -/
def singles : List Operation :=
  [.nop, .pop, .dup, .swap, .null, .boolean true, .boolean false, .negateInt, .negateLong,
   .negateDouble, .orderLong, .equal, .notEqual, .not, .and, .or, .concat, .length, .equalText,
   .toText, .element, .arrayLength]

def operations : List Operation :=
  List.flatten
    [singles, arithmetics.map .int, arithmetics.map .long, doubleArithmetics.map .double,
     conversions.map .convert, comparisons.map .compareInt, comparisons.map .compareDouble]

def all : List Opcode :=
  List.append (operations.map .stack)
    [.constInt, .constDouble, .constText, .constLong, .load, .store,
     .loadFixed 0, .loadFixed 1, .storeFixed 0, .storeFixed 1,
     .jump .always, .jump .ifFalse, .jump .ifTrue, .jump .ifNull, .jump .ifNotNull,
     .call, .returnValue, .returnVoid, .throw, .trap]

def ofByte? (b : UInt8) : Option Opcode := all.find? (·.byte == b)

theorem ofByte?_byte (op : Opcode) : ofByte? op.byte = some op := by
  rcases op with op | _ | _ | _ | _ | _ | _ | slot | slot | condition | _ | _ | _ | _ | _
  case stack =>
    cases op with
    | boolean value => cases value <;> decide +kernel
    | int op | long op | double op | convert op | compareInt op | compareDouble op =>
      cases op <;> decide +kernel
    | _ => decide +kernel
  case loadFixed => revert slot; decide +kernel
  case storeFixed => revert slot; decide +kernel
  case jump => cases condition <;> decide +kernel
  all_goals decide +kernel

theorem byte_of_ofByte? {b : UInt8} {op : Opcode} (h : ofByte? b = some op) : op.byte = b := by
  simpa using List.find?_some h

end Opcode

/-- The next byte as an opcode. A byte that is none is consumed. -/
def Reader.opcode : Reader Opcode := do
  let offset ← Reader.position
  let byte ← Reader.word8
  match Opcode.ofByte? byte with
  | some op => return op
  | none => throw (.invalidOpcode byte offset)

end Rowwise
