/-!
# JvmAssembler.Opcode

The instruction set: for every opcode its mnemonic, the layout of its operands (`Shape`) and what it
does to the operand stack and the locals (`Effect`).

* `table` holds one row per real opcode, in order of the opcode. Everything else is read off it.
* Two families of bytes past the table matter while a method is written: the *markers* stand for a jump
  whose offset does not fit in 16 bits, and the rest are no instructions at all.
* Heights count slots, so a `long` or `double` counts twice.
-/

namespace JvmAssembler

/-- The first byte of an instruction. Any byte can be asked for; only some are instructions. -/
abbrev Opcode := UInt8

/-- The operand layout of an instruction. -/
inductive Shape
  /-- No operand. -/
  | plain
  /-- The local variable is part of the opcode, as in `iload_2`. -/
  | implicitVar
  /-- A one-byte local variable. -/
  | var
  /-- A byte: the number of `bipush` or the element type of `newarray`. -/
  | byte
  /-- The two-byte number of `sipush`. -/
  | short
  /-- A one-byte constant. -/
  | ldc
  /-- A two-byte constant. -/
  | ldcWide
  /-- A field or method. -/
  | fieldOrMethod
  /-- A method, the number of argument slots and a zero byte. -/
  | interfaceMethod
  /-- A call site and two zero bytes. -/
  | invokeDynamic
  /-- A class. -/
  | type
  /-- A one-byte local variable and a signed byte. -/
  | iinc
  /-- A signed 16-bit offset. -/
  | jump
  /-- A marked jump: an unsigned 16-bit offset. -/
  | oversizedJump
  /-- A signed 32-bit offset. -/
  | wideJump
  | tableSwitch
  | lookupSwitch
  /-- The prefix for two-byte local variables. -/
  | wide
  /-- A class and a number of dimensions. -/
  | multiNewArray
  /-- Not an instruction. -/
  | invalid
  deriving DecidableEq

/-- The values that an instruction can push whatever its operand is. -/
inductive Value
  | int | float | long | double | null
  deriving DecidableEq

/-- Slots taken by a value. -/
def Value.width : Value → Nat
  | .long | .double => 2
  | _ => 1

/-- What an instruction does to the operand stack and the locals. -/
inductive Effect
  /-- Pop some slots, then push some values, the last one on top. -/
  | stack (pops : Nat) (pushes : List Value)
  /-- Pop some slots and push copies of them back, each given by its number, the former top being
  number one. -/
  | shuffle (pops : Nat) (pushes : List Nat)
  /-- Push a constant of the pool. -/
  | constant (width : Nat)
  /-- Push whatever reference a local holds. -/
  | loadReference
  /-- Pop an index and an array, push the element. -/
  | element
  /-- Pop a value of one slot or of two into a local. -/
  | store (wide : Bool)
  /-- Add to an `int` local. -/
  | increment
  /-- Enter or leave a subroutine. -/
  | subroutine (delta : Int)
  /-- Read or write a field, static or of an object. -/
  | field (onObject writes : Bool)
  /-- Call a method, with or without a receiver. -/
  | invoke (receiver : Bool)
  | invokeDynamic
  /-- Push an object whose constructor has yet to run. -/
  | newObject
  /-- Replace a length by an array of primitives. -/
  | newArray
  /-- Replace a length by an array of references. -/
  | newReferenceArray
  /-- Replace a reference by one of the named class. -/
  | cast
  /-- Replace several lengths by an array of arrays. -/
  | newMultiArray
  /-- No effect of its own. -/
  | unknown
  deriving DecidableEq

/-- By how many slots an effect changes the stack height, where that hangs on the opcode alone. -/
def Effect.delta? : Effect → Option Int
  | stack pops pushes => some (((pushes.map Value.width).foldr (· + ·) 0 : Nat) - pops)
  | shuffle pops pushes => some (pushes.length - pops)
  | constant width => some width
  | loadReference => some 1
  | element => some (-1)
  | store wide => some (if wide then -2 else -1)
  | increment => some 0
  | subroutine delta => some delta
  | newObject => some 1
  | newArray | newReferenceArray | cast => some 0
  | field .. | invoke .. | invokeDynamic | newMultiArray | unknown => none

namespace Opcode

/-- What is known of one opcode. -/
structure Row where
  mnemonic : String
  shape : Shape
  effect : Effect

/-- The instruction set, in order of the opcode. -/
def table : Array Row := #[
  ⟨"nop", .plain, .stack 0 []⟩, ⟨"aconst_null", .plain, .stack 0 [.null]⟩,
  ⟨"iconst_m1", .plain, .stack 0 [.int]⟩, ⟨"iconst_0", .plain, .stack 0 [.int]⟩,
  ⟨"iconst_1", .plain, .stack 0 [.int]⟩, ⟨"iconst_2", .plain, .stack 0 [.int]⟩,
  ⟨"iconst_3", .plain, .stack 0 [.int]⟩, ⟨"iconst_4", .plain, .stack 0 [.int]⟩,
  ⟨"iconst_5", .plain, .stack 0 [.int]⟩, ⟨"lconst_0", .plain, .stack 0 [.long]⟩,
  ⟨"lconst_1", .plain, .stack 0 [.long]⟩, ⟨"fconst_0", .plain, .stack 0 [.float]⟩,
  ⟨"fconst_1", .plain, .stack 0 [.float]⟩, ⟨"fconst_2", .plain, .stack 0 [.float]⟩,
  ⟨"dconst_0", .plain, .stack 0 [.double]⟩, ⟨"dconst_1", .plain, .stack 0 [.double]⟩,
  ⟨"bipush", .byte, .stack 0 [.int]⟩, ⟨"sipush", .short, .stack 0 [.int]⟩,
  ⟨"ldc", .ldc, .constant 1⟩, ⟨"ldc_w", .ldcWide, .constant 1⟩, ⟨"ldc2_w", .ldcWide, .constant 2⟩,
  ⟨"iload", .var, .stack 0 [.int]⟩, ⟨"lload", .var, .stack 0 [.long]⟩,
  ⟨"fload", .var, .stack 0 [.float]⟩, ⟨"dload", .var, .stack 0 [.double]⟩,
  ⟨"aload", .var, .loadReference⟩, ⟨"iload_0", .implicitVar, .stack 0 [.int]⟩,
  ⟨"iload_1", .implicitVar, .stack 0 [.int]⟩, ⟨"iload_2", .implicitVar, .stack 0 [.int]⟩,
  ⟨"iload_3", .implicitVar, .stack 0 [.int]⟩, ⟨"lload_0", .implicitVar, .stack 0 [.long]⟩,
  ⟨"lload_1", .implicitVar, .stack 0 [.long]⟩, ⟨"lload_2", .implicitVar, .stack 0 [.long]⟩,
  ⟨"lload_3", .implicitVar, .stack 0 [.long]⟩, ⟨"fload_0", .implicitVar, .stack 0 [.float]⟩,
  ⟨"fload_1", .implicitVar, .stack 0 [.float]⟩, ⟨"fload_2", .implicitVar, .stack 0 [.float]⟩,
  ⟨"fload_3", .implicitVar, .stack 0 [.float]⟩, ⟨"dload_0", .implicitVar, .stack 0 [.double]⟩,
  ⟨"dload_1", .implicitVar, .stack 0 [.double]⟩, ⟨"dload_2", .implicitVar, .stack 0 [.double]⟩,
  ⟨"dload_3", .implicitVar, .stack 0 [.double]⟩, ⟨"aload_0", .implicitVar, .loadReference⟩,
  ⟨"aload_1", .implicitVar, .loadReference⟩, ⟨"aload_2", .implicitVar, .loadReference⟩,
  ⟨"aload_3", .implicitVar, .loadReference⟩, ⟨"iaload", .plain, .stack 2 [.int]⟩,
  ⟨"laload", .plain, .stack 2 [.long]⟩, ⟨"faload", .plain, .stack 2 [.float]⟩,
  ⟨"daload", .plain, .stack 2 [.double]⟩, ⟨"aaload", .plain, .element⟩,
  ⟨"baload", .plain, .stack 2 [.int]⟩, ⟨"caload", .plain, .stack 2 [.int]⟩,
  ⟨"saload", .plain, .stack 2 [.int]⟩, ⟨"istore", .var, .store false⟩,
  ⟨"lstore", .var, .store true⟩, ⟨"fstore", .var, .store false⟩, ⟨"dstore", .var, .store true⟩,
  ⟨"astore", .var, .store false⟩, ⟨"istore_0", .implicitVar, .store false⟩,
  ⟨"istore_1", .implicitVar, .store false⟩, ⟨"istore_2", .implicitVar, .store false⟩,
  ⟨"istore_3", .implicitVar, .store false⟩, ⟨"lstore_0", .implicitVar, .store true⟩,
  ⟨"lstore_1", .implicitVar, .store true⟩, ⟨"lstore_2", .implicitVar, .store true⟩,
  ⟨"lstore_3", .implicitVar, .store true⟩, ⟨"fstore_0", .implicitVar, .store false⟩,
  ⟨"fstore_1", .implicitVar, .store false⟩, ⟨"fstore_2", .implicitVar, .store false⟩,
  ⟨"fstore_3", .implicitVar, .store false⟩, ⟨"dstore_0", .implicitVar, .store true⟩,
  ⟨"dstore_1", .implicitVar, .store true⟩, ⟨"dstore_2", .implicitVar, .store true⟩,
  ⟨"dstore_3", .implicitVar, .store true⟩, ⟨"astore_0", .implicitVar, .store false⟩,
  ⟨"astore_1", .implicitVar, .store false⟩, ⟨"astore_2", .implicitVar, .store false⟩,
  ⟨"astore_3", .implicitVar, .store false⟩, ⟨"iastore", .plain, .stack 3 []⟩,
  ⟨"lastore", .plain, .stack 4 []⟩, ⟨"fastore", .plain, .stack 3 []⟩,
  ⟨"dastore", .plain, .stack 4 []⟩, ⟨"aastore", .plain, .stack 3 []⟩,
  ⟨"bastore", .plain, .stack 3 []⟩, ⟨"castore", .plain, .stack 3 []⟩,
  ⟨"sastore", .plain, .stack 3 []⟩, ⟨"pop", .plain, .stack 1 []⟩, ⟨"pop2", .plain, .stack 2 []⟩,
  ⟨"dup", .plain, .shuffle 1 [1, 1]⟩, ⟨"dup_x1", .plain, .shuffle 2 [1, 2, 1]⟩,
  ⟨"dup_x2", .plain, .shuffle 3 [1, 3, 2, 1]⟩, ⟨"dup2", .plain, .shuffle 2 [2, 1, 2, 1]⟩,
  ⟨"dup2_x1", .plain, .shuffle 3 [2, 1, 3, 2, 1]⟩,
  ⟨"dup2_x2", .plain, .shuffle 4 [2, 1, 4, 3, 2, 1]⟩, ⟨"swap", .plain, .shuffle 2 [1, 2]⟩,
  ⟨"iadd", .plain, .stack 2 [.int]⟩, ⟨"ladd", .plain, .stack 4 [.long]⟩,
  ⟨"fadd", .plain, .stack 2 [.float]⟩, ⟨"dadd", .plain, .stack 4 [.double]⟩,
  ⟨"isub", .plain, .stack 2 [.int]⟩, ⟨"lsub", .plain, .stack 4 [.long]⟩,
  ⟨"fsub", .plain, .stack 2 [.float]⟩, ⟨"dsub", .plain, .stack 4 [.double]⟩,
  ⟨"imul", .plain, .stack 2 [.int]⟩, ⟨"lmul", .plain, .stack 4 [.long]⟩,
  ⟨"fmul", .plain, .stack 2 [.float]⟩, ⟨"dmul", .plain, .stack 4 [.double]⟩,
  ⟨"idiv", .plain, .stack 2 [.int]⟩, ⟨"ldiv", .plain, .stack 4 [.long]⟩,
  ⟨"fdiv", .plain, .stack 2 [.float]⟩, ⟨"ddiv", .plain, .stack 4 [.double]⟩,
  ⟨"irem", .plain, .stack 2 [.int]⟩, ⟨"lrem", .plain, .stack 4 [.long]⟩,
  ⟨"frem", .plain, .stack 2 [.float]⟩, ⟨"drem", .plain, .stack 4 [.double]⟩,
  ⟨"ineg", .plain, .stack 0 []⟩, ⟨"lneg", .plain, .stack 0 []⟩, ⟨"fneg", .plain, .stack 0 []⟩,
  ⟨"dneg", .plain, .stack 0 []⟩, ⟨"ishl", .plain, .stack 2 [.int]⟩,
  ⟨"lshl", .plain, .stack 3 [.long]⟩, ⟨"ishr", .plain, .stack 2 [.int]⟩,
  ⟨"lshr", .plain, .stack 3 [.long]⟩, ⟨"iushr", .plain, .stack 2 [.int]⟩,
  ⟨"lushr", .plain, .stack 3 [.long]⟩, ⟨"iand", .plain, .stack 2 [.int]⟩,
  ⟨"land", .plain, .stack 4 [.long]⟩, ⟨"ior", .plain, .stack 2 [.int]⟩,
  ⟨"lor", .plain, .stack 4 [.long]⟩, ⟨"ixor", .plain, .stack 2 [.int]⟩,
  ⟨"lxor", .plain, .stack 4 [.long]⟩, ⟨"iinc", .iinc, .increment⟩,
  ⟨"i2l", .plain, .stack 1 [.long]⟩, ⟨"i2f", .plain, .stack 1 [.float]⟩,
  ⟨"i2d", .plain, .stack 1 [.double]⟩, ⟨"l2i", .plain, .stack 2 [.int]⟩,
  ⟨"l2f", .plain, .stack 2 [.float]⟩, ⟨"l2d", .plain, .stack 2 [.double]⟩,
  ⟨"f2i", .plain, .stack 1 [.int]⟩, ⟨"f2l", .plain, .stack 1 [.long]⟩,
  ⟨"f2d", .plain, .stack 1 [.double]⟩, ⟨"d2i", .plain, .stack 2 [.int]⟩,
  ⟨"d2l", .plain, .stack 2 [.long]⟩, ⟨"d2f", .plain, .stack 2 [.float]⟩,
  ⟨"i2b", .plain, .stack 0 []⟩, ⟨"i2c", .plain, .stack 0 []⟩, ⟨"i2s", .plain, .stack 0 []⟩,
  ⟨"lcmp", .plain, .stack 4 [.int]⟩, ⟨"fcmpl", .plain, .stack 2 [.int]⟩,
  ⟨"fcmpg", .plain, .stack 2 [.int]⟩, ⟨"dcmpl", .plain, .stack 4 [.int]⟩,
  ⟨"dcmpg", .plain, .stack 4 [.int]⟩, ⟨"ifeq", .jump, .stack 1 []⟩, ⟨"ifne", .jump, .stack 1 []⟩,
  ⟨"iflt", .jump, .stack 1 []⟩, ⟨"ifge", .jump, .stack 1 []⟩, ⟨"ifgt", .jump, .stack 1 []⟩,
  ⟨"ifle", .jump, .stack 1 []⟩, ⟨"if_icmpeq", .jump, .stack 2 []⟩,
  ⟨"if_icmpne", .jump, .stack 2 []⟩, ⟨"if_icmplt", .jump, .stack 2 []⟩,
  ⟨"if_icmpge", .jump, .stack 2 []⟩, ⟨"if_icmpgt", .jump, .stack 2 []⟩,
  ⟨"if_icmple", .jump, .stack 2 []⟩, ⟨"if_acmpeq", .jump, .stack 2 []⟩,
  ⟨"if_acmpne", .jump, .stack 2 []⟩, ⟨"goto", .jump, .stack 0 []⟩, ⟨"jsr", .jump, .subroutine 1⟩,
  ⟨"ret", .var, .subroutine 0⟩, ⟨"tableswitch", .tableSwitch, .stack 1 []⟩,
  ⟨"lookupswitch", .lookupSwitch, .stack 1 []⟩, ⟨"ireturn", .plain, .stack 1 []⟩,
  ⟨"lreturn", .plain, .stack 2 []⟩, ⟨"freturn", .plain, .stack 1 []⟩,
  ⟨"dreturn", .plain, .stack 2 []⟩, ⟨"areturn", .plain, .stack 1 []⟩,
  ⟨"return", .plain, .stack 0 []⟩, ⟨"getstatic", .fieldOrMethod, .field false false⟩,
  ⟨"putstatic", .fieldOrMethod, .field false true⟩,
  ⟨"getfield", .fieldOrMethod, .field true false⟩, ⟨"putfield", .fieldOrMethod, .field true true⟩,
  ⟨"invokevirtual", .fieldOrMethod, .invoke true⟩,
  ⟨"invokespecial", .fieldOrMethod, .invoke true⟩,
  ⟨"invokestatic", .fieldOrMethod, .invoke false⟩,
  ⟨"invokeinterface", .interfaceMethod, .invoke true⟩,
  ⟨"invokedynamic", .invokeDynamic, .invokeDynamic⟩, ⟨"new", .type, .newObject⟩,
  ⟨"newarray", .byte, .newArray⟩, ⟨"anewarray", .type, .newReferenceArray⟩,
  ⟨"arraylength", .plain, .stack 1 [.int]⟩, ⟨"athrow", .plain, .stack 1 []⟩,
  ⟨"checkcast", .type, .cast⟩, ⟨"instanceof", .type, .stack 1 [.int]⟩,
  ⟨"monitorenter", .plain, .stack 1 []⟩, ⟨"monitorexit", .plain, .stack 1 []⟩,
  ⟨"wide", .wide, .unknown⟩, ⟨"multianewarray", .multiNewArray, .newMultiArray⟩,
  ⟨"ifnull", .jump, .stack 1 []⟩, ⟨"ifnonnull", .jump, .stack 1 []⟩,
  ⟨"goto_w", .wideJump, .stack 0 []⟩, ⟨"jsr_w", .wideJump, .subroutine 1⟩]

/-! ### Opcodes by name -/

abbrev nop : Opcode := 0
abbrev bipush : Opcode := 16
abbrev sipush : Opcode := 17
abbrev ldc : Opcode := 18
abbrev ldcW : Opcode := 19
abbrev ldc2W : Opcode := 20
abbrev iload : Opcode := 21
abbrev lload : Opcode := 22
abbrev dload : Opcode := 24
abbrev aload : Opcode := 25
abbrev iload0 : Opcode := 26
abbrev istore : Opcode := 54
abbrev lstore : Opcode := 55
abbrev dstore : Opcode := 57
abbrev astore : Opcode := 58
abbrev istore0 : Opcode := 59
abbrev iinc : Opcode := 132
abbrev ifeq : Opcode := 153
abbrev ifAcmpne : Opcode := 166
abbrev goto : Opcode := 167
abbrev jsr : Opcode := 168
abbrev ret : Opcode := 169
abbrev tableSwitch : Opcode := 170
abbrev lookupSwitch : Opcode := 171
abbrev ireturn : Opcode := 172
abbrev voidReturn : Opcode := 177
abbrev getstatic : Opcode := 178
abbrev putfield : Opcode := 181
abbrev invokevirtual : Opcode := 182
abbrev invokespecial : Opcode := 183
abbrev invokestatic : Opcode := 184
abbrev invokeinterface : Opcode := 185
abbrev invokedynamic : Opcode := 186
abbrev newObject : Opcode := 187
abbrev newarray : Opcode := 188
abbrev anewarray : Opcode := 189
abbrev athrow : Opcode := 191
abbrev checkcast : Opcode := 192
abbrev instanceof : Opcode := 193
abbrev wide : Opcode := 196
abbrev multianewarray : Opcode := 197
abbrev ifnull : Opcode := 198
abbrev ifnonnull : Opcode := 199
abbrev gotoW : Opcode := 200
abbrev jsrW : Opcode := 201

/-! ### Reading the table -/

def row? (op : Opcode) : Option Row := table[op.toNat]?

/-- The first and last marker of an oversized jump. -/
def isMarker (op : Opcode) : Bool := 202 ≤ op && op ≤ 219

def shape (op : Opcode) : Shape :=
  match op.row? with
  | some row => row.shape
  | none => if op.isMarker then .oversizedJump else .invalid

/-- The effect on stack and locals. -/
def effect (op : Opcode) : Effect :=
  match op.row? with
  | some row => row.effect
  | none => .unknown

/-- The change of the stack height, where the opcode alone decides it. -/
def delta? (op : Opcode) : Option Int := op.effect.delta?

/-- The change of the stack height of an instruction without operands that matter for it. -/
def delta (op : Opcode) : Int := op.delta?.getD 0

/-- The mnemonic, also of bytes that are no instruction. -/
def mnemonic (op : Opcode) : String :=
  match op.row? with
  | some row => row.mnemonic
  | none => "<invalid>"

def ofMnemonic? (name : String) : Option Opcode :=
  (table.findIdx? (·.mnemonic == name)).map UInt8.ofNat

/-- The conditional jump on the opposite condition. Opposite conditions are neighbours: the odd one
comes first up to `if_acmpne`, the even one after it. -/
def invert (op : Opcode) : Opcode :=
  if op ≤ ifAcmpne then ((op + 1) ^^^ 1) - 1 else op ^^^ 1

/-- The marker of a jump whose offset does not fit in 16 bits. -/
def marker (op : Opcode) : Opcode := if op ≤ jsr then op + 49 else op + 20

/-- The jump that a marker stands for. -/
def unmark (op : Opcode) : Opcode := if op < 218 then op - 49 else op - 20

/-- Instructions that leave the method: the returns and `athrow`. -/
def isExit (op : Opcode) : Bool := (ireturn ≤ op && op ≤ voidReturn) || op == athrow

/-- Loads and stores of a local that name it in an operand. -/
def isLocalAccess (op : Opcode) : Bool := (iload ≤ op && op ≤ aload) || (istore ≤ op && op ≤ astore)

/-- Loads and stores of a `long` or `double`. -/
def isWideAccess (op : Opcode) : Bool := op == lload || op == dload || op == lstore || op == dstore

def isFieldAccess (op : Opcode) : Bool := getstatic ≤ op && op ≤ putfield

/-- Method calls that name a method. -/
def isInvocation (op : Opcode) : Bool := invokevirtual ≤ op && op ≤ invokeinterface

/-- The jumps with a 16-bit offset. -/
def isShortJump (op : Opcode) : Bool := (ifeq ≤ op && op ≤ jsr) || op == ifnull || op == ifnonnull

/-- The opcode that holds one of the first four locals in itself. -/
def implicitForm (op : Opcode) (var : Nat) : Opcode :=
  if op < istore then iload0 + ((op - iload) <<< 2) + UInt8.ofNat var
  else istore0 + ((op - istore) <<< 2) + UInt8.ofNat var

/-- The opcode and the local that an implicit form stands for. -/
def explicitForm (op : Opcode) : Opcode × UInt16 :=
  let (base, first) := if op < istore0 then (iload, iload0) else (istore, istore0)
  let offset := op - first
  (base + (offset >>> 2), (offset &&& 3).toUInt16)

end Opcode

end JvmAssembler
