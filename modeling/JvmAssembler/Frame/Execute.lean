import JvmAssembler.Frame.Basic

/-!
# JvmAssembler.Frame.Execute

The abstract interpreter: what one instruction does to the summary of its block.

The effect of most instructions is a row of the opcode table. The rest need the operand, which is given as far
as types are concerned. An instruction that is rejected half way keeps what it has popped.
-/

namespace JvmAssembler

/-- The operand of an instruction, as far as types are concerned. -/
inductive Operand
  | none
  /-- A class by its name, or an array type by its descriptor. -/
  | cls (name : String)
  /-- A field, by its descriptor. -/
  | field (descriptor : String)
  | method (name descriptor : String)
  /-- A call site, by its method descriptor. -/
  | invokeDynamic (descriptor : String)
  | constant (value : Loadable)
  deriving DecidableEq

/-- A block under interpretation, with the pool whose type table it refers to. -/
structure Interpreter where
  frame : Frame
  pool : Pool

abbrev FrameM := EStateM Error Interpreter

namespace Interpreter

def update (f : Frame → Frame) : FrameM Unit :=
  modify fun s => { s with frame := f s.frame }

def pop : FrameM FrameType :=
  modifyGet fun s =>
    let (t, frame) := s.frame.pop
    (t, { s with frame := frame })

def fromPool {α : Type} (action : PoolM α) : FrameM α := fun s =>
  match action s.pool with
  | .ok a pool => .ok a { s with pool := pool }
  | .error e pool => .error e { s with pool := pool }

def pushFrom (type : PoolM FrameType) : FrameM Unit := do
  let t ← fromPool type
  update (·.pushValue t)

/-- Push a reference to an array or object: one slot, whatever its type. -/
def pushReference (type : PoolM FrameType) : FrameM Unit := do
  let t ← fromPool type
  update (·.push t)

def pushReturned : Option FieldType → FrameM Unit
  | none => pure ()
  | some t => pushFrom (FrameType.ofFieldType t)

/-- An operand is missing, or of another kind than the instruction needs. -/
def missing {α : Type} (op : Opcode) : FrameM α := throw (.invalidArgument (.missingOperand op))

def accessField (onObject writes : Bool) (type : FieldType) : FrameM Unit := do
  let receiver := if onObject then 1 else 0
  if writes then update (·.popN (type.width + receiver))
  else
    update (·.popN receiver)
    pushFrom (FrameType.ofFieldType type)

/-- A call. A constructor, whose name starts with an angle bracket, initialises its receiver. -/
def call (op : Opcode) (receiver : Bool) (name : String) (descriptor : MethodDescriptor) :
    FrameM Unit := do
  update (·.popN (descriptor.parameterLength false))
  if receiver then
    let t ← pop
    if op == Opcode.invokespecial && name.toList.head? == some '<' then
      update fun f => { f with initialized := f.initialized.push t }
  pushReturned descriptor.returnType

/-- A field or method descriptor that has to be well formed. -/
def checked {α : Type} (result : Except Error α) : FrameM α :=
  match result with
  | .ok a => pure a
  | .error e => throw e

/-- Interpret an instruction. The number `arg` is the local for loads and stores, the type code for
`newarray`, the dimensions for `multianewarray`, and the offset of the instruction for all others. -/
def execute (op : Opcode) (arg : Nat) (operand : Operand) : FrameM Unit :=
  if op.shape = .implicitVar then throw (.invalidOpcode op "frame computation")
  else
    match op.effect, operand with
    | .stack pops pushes, _ =>
      update fun f => pushes.foldl (fun f v => f.pushValue (.ofValue v)) (f.popN pops)
    | .shuffle pops order, _ => update (·.shuffle pops order)
    | .constant _, .constant value => pushFrom (FrameType.ofLoadable value)
    | .loadReference, _ =>
      update fun f =>
        let (t, f) := f.load arg
        f.push t
    | .element, _ => do
      update (·.popN 1)
      let t ← pop
      update (·.push t.element)
    | .store wide, _ => do
      if wide then update (·.popN 1)
      let t ← pop
      update fun f =>
        let f := f.store arg t
        let f := if wide then f.store (arg + 1) .top else f
        f.breakBefore arg
    | .increment, _ => update (·.store arg .int)
    | .subroutine _, _ => throw (.unsupportedSubroutine op arg)
    | .field onObject writes, .field descriptor => do
      let type ← checked (FieldType.ofDescriptor descriptor)
      accessField onObject writes type
    | .invoke receiver, .method name descriptor => do
      let descriptor ← checked (MethodDescriptor.ofDescriptor descriptor)
      call op receiver name descriptor
    | .invokeDynamic, .invokeDynamic descriptor => do
      let descriptor ← checked (MethodDescriptor.ofDescriptor descriptor)
      call op false "" descriptor
    | .newObject, .cls name => do
      let row ← fromPool (Pool.addUninitialized name arg)
      update (·.push (.ofKind (.uninitialized row)))
    | .newArray, _ => do
      update (·.popN 1)
      match BaseType.ofArrayCode? (arg % 256) with
      | some b => update (·.push (FrameType.ofKind (FrameType.elementKind b)).arrayOf)
      | none => throw (.invalidArgument (.arrayCode arg))
    | .newReferenceArray, .cls name => do
      update (·.popN 1)
      pushReference do return (← FrameType.ofClassName name).arrayOf
    | .cast, .cls name => do
      update (·.popN 1)
      pushReference (FrameType.ofClassName name)
    | .newMultiArray, .cls name => do
      update (·.popN arg)
      pushReference (FrameType.ofClassName name)
    | .unknown, _ => throw (.invalidOpcode op "frame computation")
    | _, _ => missing op

end Interpreter

end JvmAssembler
