import JvmAssembler.Listing.Reader

/-!
# JvmAssembler.Listing.Instruction

Instructions as listings write them: a mnemonic and its operands.

Each shape of operands has its own syntax, but how many bytes an operand takes is left to the assembler. A local
variable that is part of the mnemonic becomes an operand, and `wide` in front of an instruction that names a
local variable says nothing.
-/

namespace JvmAssembler.Listing

/-- Whether `wide` may stand in front of an instruction. -/
def isWidenable {L : Type} : Instruction L → Bool
  | .var .. | .iinc .. => true
  | _ => false

namespace Reader

def primitiveWord : BaseType → String
  | .boolean => "boolean"
  | .char => "char"
  | .float => "float"
  | .double => "double"
  | .byte => "byte"
  | .short => "short"
  | .int => "int"
  | .long => "long"

def primitive? (w : String) : Option BaseType :=
  [BaseType.boolean, .char, .float, .double, .byte, .short, .int, .long].find? (primitiveWord · == w)

@[simp] theorem primitive?_primitiveWord (type : BaseType) :
    primitive? (primitiveWord type) = some type := by
  cases type <;> decide

def elementType : Reader BaseType := do
  let w ← word "an array element type"
  match primitive? w with
  | some type => return type
  | none => throw (.notPrimitive w)

def label : Reader String := word "a label"

def fallback : Reader String := do
  expect "default"
  label

/-- A case of a `lookupswitch`: a key and a label with a colon between them. -/
def switchCase : Reader (Int32 × String) := do
  let w ← word "`key:label`"
  match w.toList.span (· != ':') with
  | (_, []) => throw (.notAPair w)
  | (key, _ :: target) =>
    match int32? (String.ofList key) with
    | some n => return (n, String.ofList target)
    | none => throw (.invalidNumber (String.ofList key) "key")

def member (name descriptor : String) : Reader MemberRef :=
  return ⟨← word "an owner class", ← word name, ← word descriptor⟩

/-- A method, and whether its owner is an interface. -/
def method (op : Opcode) : Reader (Instruction String) := do
  let isInterface ← keyword "interface"
  let m ← member "a method name" "a method descriptor"
  return .method op m (isInterface || op == Opcode.invokeinterface)

/-- A `tableswitch`: the low key, the labels from there on, the fallback. -/
def tableSwitch : Reader (Instruction String) := do
  let low ← i32 "low key"
  let targets ← manyBefore "default" label
  return .tableSwitch low (low + Int32.ofNat targets.length - 1) (← fallback) targets

/-- A `lookupswitch`: the cases, the fallback. -/
def lookupSwitch : Reader (Instruction String) := do
  let cases ← manyBefore "default" switchCase
  return .lookupSwitch (← fallback) (cases.map (·.1)) (cases.map (·.2))

/-- An `invokedynamic`: name, descriptor, bootstrap method and its arguments. -/
def invokeDynamic : Reader (Instruction String) := do
  let name ← word "a method name"
  let descriptor ← word "a method descriptor"
  let bootstrap ← handle
  return .invokeDynamic name descriptor bootstrap (← many constant)

def operands (op : Opcode) : Reader (Instruction String) :=
  match op.shape with
  | .plain => return .plain op
  | .implicitVar => return .var op.explicitForm.1 op.explicitForm.2
  | .var => return .var op (← u16 "local variable index")
  | .byte => do
    if op = Opcode.newarray then return .int op (Int32.ofNat (← elementType).arrayCode)
    else return .int op (← i8 "byte")
  | .short => return .int op (← i16 "short").toInt32
  | .ldc | .ldcWide => return .ldc (← constant)
  | .fieldOrMethod => do
    if op.isFieldAccess then return .field op (← member "a field name" "a field descriptor")
    else method op
  | .interfaceMethod => method op
  | .invokeDynamic => invokeDynamic
  | .type => return .type op (← word "a class name")
  | .iinc => return .iinc (← u16 "local variable index") (← i16 "increment")
  | .jump | .wideJump => return .jump op (← label)
  | .tableSwitch => tableSwitch
  | .lookupSwitch => lookupSwitch
  | .multiNewArray =>
    return .multiNewArray (← word "an array descriptor") (← u8 "dimension count")
  | .wide | .oversizedJump | .invalid => throw (.notWritable op.mnemonic)

/-- The rest of a line that starts with a mnemonic, up to the last operand. -/
def instruction (mnemonic : String) (tokens : List Token) :
    Except Fault (Instruction String × List Token) :=
  match Opcode.ofMnemonic? mnemonic with
  | none => .error (.unknownInstruction mnemonic)
  | some op =>
    if op = Opcode.wide then
      match tokens with
      | .word widened :: rest =>
        match instruction widened rest with
        | .error fault => .error fault
        | .ok (i, rest) => if isWidenable i then .ok (i, rest) else .error (.notWidenable widened)
      | .quoted _ :: _ => .error (.foundString "an instruction")
      | [] => .error (.expected "an instruction")
    else operands op tokens

end Reader

end JvmAssembler.Listing
