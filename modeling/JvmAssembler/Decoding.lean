import JvmAssembler.Instruction
import JvmAssembler.Pool

/-!
# JvmAssembler.Decoding

Reading assembled code back into instructions.

Constants are looked up in the pool that the code was written against, the short and wide forms of an
instruction read alike, and jump targets become absolute positions.
-/

namespace JvmAssembler

namespace Decoding

open Bytes

def fault {α : Type} (position : Nat) (fault : CodeFault) : Except Error α :=
  .error (.malformedCode position fault)

def require (code : Bytes) (position length : Nat) : Except Error Unit :=
  if position + length ≤ code.size then .ok () else fault position .pastEnd

def u16 (code : Bytes) (position : Nat) : Except Error Nat := do
  require code position 2
  return code.u16At position

def i32 (code : Bytes) (position : Nat) : Except Error Int := do
  require code position 4
  return code.i32At position

def signedByte (code : Bytes) (position : Nat) : Int := (code.byteAt position).toInt8.toInt

/-- The target of a jump; the end of the code is one. -/
def target (code : Bytes) (position : Nat) (offset : Int) : Except Error Nat :=
  let target := position + offset
  if target < 0 ∨ code.size < target then fault position (.targetOutOfBounds target)
  else .ok target.toNat

/-! ### Constants -/

def entry (pool : Pool) (position index : Nat) : Except Error Entry :=
  match pool.entry? index with
  | some entry => .ok entry
  | none => fault position (.noConstant index)

def cls (pool : Pool) (position index : Nat) : Except Error String := do
  match ← entry pool position index with
  | .cls name => return name
  | other => fault position (.notAClass other)

def loadable (pool : Pool) (position index : Nat) : Except Error Loadable := do
  match ← entry pool position index with
  | .integer value => return .int value
  | .float bits => return .float bits
  | .long value => return .long value
  | .double bits => return .double bits
  | .string text => return .string text
  | .cls name => return .cls name
  | .methodType descriptor => return .methodType descriptor
  | .methodHandle handle => return .methodHandle handle
  | other => fault position (.notLoadable other)

/-- The instruction on a field or method. -/
def member (pool : Pool) (position : Nat) (op : Opcode) (index : Nat) :
    Except Error (Instruction Nat) := do
  let found ← entry pool position index
  let wrong := fault position (.badMember op found)
  match found with
  | .fieldRef m => if op.isFieldAccess then return .field op m else wrong
  | .methodRef m => if op.isInvocation then return .method op m false else wrong
  | .interfaceMethodRef m => if op.isInvocation then return .method op m true else wrong
  | _ => wrong

def callSite (pool : Pool) (position index : Nat) : Except Error (Instruction Nat) := do
  match ← entry pool position index with
  | .invokeDynamic bootstrap name descriptor =>
    match pool.bootstrap? bootstrap with
    | some row => return .invokeDynamic name descriptor row.handle row.arguments
    | none => fault position (.noBootstrapMethod bootstrap)
  | other => fault position (.badMember Opcode.invokedynamic other)

/-! ### Instructions -/

def targets (code : Bytes) (position start count : Nat) : Except Error (List Nat) :=
  (List.range count).mapM fun i => target code position (code.i32At (start + 4 * i))

/-- The keys and targets of a lookup switch. -/
def pairs (code : Bytes) (position start count : Nat) : Except Error (List (Int32 × Nat)) :=
  (List.range count).mapM fun i => do
    let key := code.i32At (start + 8 * i)
    let target ← target code position (code.i32At (start + 8 * i + 4))
    return (Int32.ofInt key, target)

def tableSwitch (code : Bytes) (position : Nat) : Except Error (Instruction Nat × Nat) := do
  let operands := (position + 4) / 4 * 4
  let fallback ← target code position (← i32 code operands)
  let low ← i32 code (operands + 4)
  let high ← i32 code (operands + 8)
  if high < low then fault position .boundsReversed
  let count := (high - low + 1).toNat
  require code (operands + 12) (4 * count)
  let targets ← targets code position (operands + 12) count
  return (.tableSwitch (.ofInt low) (.ofInt high) fallback targets,
    operands + 12 + 4 * count - position)

def lookupSwitch (code : Bytes) (position : Nat) : Except Error (Instruction Nat × Nat) := do
  let operands := (position + 4) / 4 * 4
  let fallback ← target code position (← i32 code operands)
  let count ← i32 code (operands + 4)
  if count < 0 then fault position .negativePairCount
  let count := count.toNat
  require code (operands + 8) (8 * count)
  let pairs ← pairs code position (operands + 8) count
  return (.lookupSwitch fallback (pairs.map (·.1)) (pairs.map (·.2)),
    operands + 8 + 8 * count - position)

/-- An instruction behind `wide`, and its length. -/
def wideForm (code : Bytes) (position : Nat) : Except Error (Instruction Nat × Nat) := do
  require code position 4
  let op : Opcode := code.byteAt (position + 1)
  let var := UInt16.ofNat (code.u16At (position + 2))
  if op == Opcode.iinc then
    require code position 6
    return (.iinc var (.ofInt (code.i16At (position + 4))), 6)
  else if op.shape = .var then return (.var op var, 4)
  else fault position (.cannotBeWide op)

def instruction (pool : Pool) (code : Bytes) (position : Nat) :
    Except Error (Instruction Nat × Nat) :=
  let op : Opcode := code.byteAt position
  let operand := (code.byteAt (position + 1)).toNat
  match op.shape with
  | .plain => .ok (.plain op, 1)
  | .implicitVar =>
    let (base, var) := op.explicitForm
    .ok (.var base var, 1)
  | .var => do
    require code position 2
    return (.var op (.ofNat operand), 2)
  | .byte => do
    require code position 2
    let value : Int := if op == Opcode.bipush then signedByte code (position + 1) else operand
    return (.int op (.ofInt value), 2)
  | .short => do
    require code position 3
    return (.int op (.ofInt (code.i16At (position + 1))), 3)
  | .ldc => do
    require code position 2
    return (.ldc (← loadable pool position operand), 2)
  | .ldcWide => do
    let index ← u16 code (position + 1)
    return (.ldc (← loadable pool position index), 3)
  | .fieldOrMethod => do
    let index ← u16 code (position + 1)
    return (← member pool position op index, 3)
  | .interfaceMethod => do
    require code position 5
    return (← member pool position op (code.u16At (position + 1)), 5)
  | .invokeDynamic => do
    require code position 5
    return (← callSite pool position (code.u16At (position + 1)), 5)
  | .type => do
    let index ← u16 code (position + 1)
    return (.type op (← cls pool position index), 3)
  | .iinc => do
    require code position 3
    return (.iinc (.ofNat operand) (.ofInt (signedByte code (position + 2))), 3)
  | .jump => do
    require code position 3
    return (.jump op (← target code position (code.i16At (position + 1))), 3)
  | .wideJump => do
    let offset ← i32 code (position + 1)
    return (.jump op (← target code position offset), 5)
  | .tableSwitch => tableSwitch code position
  | .lookupSwitch => lookupSwitch code position
  | .wide => wideForm code position
  | .multiNewArray => do
    require code position 4
    let name ← cls pool position (code.u16At (position + 1))
    return (.multiNewArray name (code.byteAt (position + 3)), 4)
  | .oversizedJump => fault position .neverWidened
  | .invalid => fault position (.unknownOpcode op)

/-- The instructions from a position on, each with its position. Every instruction takes at least a byte,
so the size of the code is fuel enough. -/
def decodeFrom (pool : Pool) (code : Bytes) :
    Nat → Nat → Array (Nat × Instruction Nat) → Except Error (Array (Nat × Instruction Nat))
  | 0, _, done => .ok done
  | fuel + 1, position, done =>
    if position < code.size then do
      let (instruction, length) ← instruction pool code position
      decodeFrom pool code fuel (position + length) (done.push (position, instruction))
    else .ok done

def decode (pool : Pool) (code : Bytes) : Except Error (List (Nat × Instruction Nat)) := do
  let done ← decodeFrom pool code code.size 0 #[]
  return done.toList

end Decoding

end JvmAssembler
