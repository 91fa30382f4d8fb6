import JvmAssembler.Frame.Execute
import JvmAssembler.Instruction
import JvmAssembler.Method.Label

/-!
# JvmAssembler.Method.Writer

The state of a method that is being written, and how its code grows.

* Instructions are encoded as they arrive. A jump to a label that is not placed yet reserves room for its
  offset, which is filled in when the label is placed; if it does not fit, the jump is marked, to be widened
  at the end.
* Depending on `Compute` the code is also divided into basic blocks. For sizing, a block tracks how high the
  stack gets, and every edge the height at the jump. For frames, a block interprets its instructions.
* A rejected event leaves what it did before it failed.
-/

namespace JvmAssembler

open Bytes

/-- How much of the stack size, the number of locals and the frames is computed. -/
inductive Compute
  /-- Everything is taken from the caller. -/
  | asGiven
  /-- The sizes are computed, frames are taken from the caller. -/
  | maxs
  /-- Everything is computed. -/
  | frames
  deriving DecidableEq

/-- What the methods of a class share. -/
structure ClassContext where
  /-- What is known of classes, the one being written included. -/
  hierarchy : Hierarchy
  thisClass : String
  version : Version

/-- The header of a method. -/
structure Declaration where
  flags : AccessFlags .ofMethod
  name : String
  descriptor : String
  signature : Option String
  exceptions : List String
  deriving DecidableEq

def Declaration.describe (d : Declaration) : String := d.name ++ d.descriptor

/-- How far a method has got. -/
inductive Stage
  | declared
  /-- The body is being written. -/
  | open
  /-- The body is complete. -/
  | sealed
  | ended
  deriving DecidableEq

def Stage.moment : Stage → Moment
  | .declared => .beforeCode
  | .open => .whileWriting
  | .sealed => .afterMaxs
  | .ended => .afterEnd

/-- A method that is being written, with the parts of the class that it adds to. -/
structure MethodWriter where
  pool : Pool
  /-- The finished methods of the class. -/
  methods : Array (Member .ofMethod)
  context : ClassContext
  compute : Compute
  declaration : Declaration
  descriptor : MethodDescriptor
  stage : Stage := .declared
  code : Bytes := #[]
  labels : LabelTable := #[]
  /-- The labels that head blocks, in code order, the entry first; empty if nothing is computed. -/
  blocks : Array Label := #[]
  /-- The block that the next instruction belongs to; none behind an unconditional jump. -/
  current : Option Label := none
  /-- The stack height relative to the entry of the current block, for sizing. -/
  height : Int := 0
  /-- The largest such height in the current block. -/
  peak : Int := 0
  hasSubroutines : Bool := false
  maxStack : Nat := 0
  maxLocals : Nat := 0
  handlers : Array (Handler Label) := #[]
  lines : Array (Label × UInt16) := #[]
  locals : Array (LocalScope Label) := #[]
  /-- The frames, computed or supplied. -/
  stackMap : Option StackMap.Builder := none
  /-- The locals of the last frame that the caller supplied. -/
  callerLocals : List (FrameItem Label) := []
  /-- Some jump is marked. -/
  hasOversized : Bool := false

abbrev MethodM := EStateM Error MethodWriter

namespace MethodWriter

/-! ### Access to the state -/

def fromPool {α : Type} (action : PoolM α) : MethodM α := fun w =>
  let pool := w.pool
  let w := { w with pool := .empty }
  match action pool with
  | .ok a pool => .ok a { w with pool := pool }
  | .error e pool => .error e { w with pool := pool }

def checked {α : Type} (result : Except Error α) : MethodM α :=
  match result with
  | .ok a => pure a
  | .error e => throw e

def updateLabels (f : LabelTable → LabelTable) : MethodM Unit :=
  modify fun w => { w with labels := f w.labels }

/-- Change what is known of the current block. -/
def updateCurrent (f : LabelTable → Label → LabelTable) : MethodM Unit :=
  modify fun w =>
    match w.current with
    | none => w
    | some block => { w with labels := f w.labels block }

/-- The position of the next instruction. -/
def position : MethodM Nat := return (← get).code.size

def emit (bytes : List UInt8) : MethodM Unit :=
  modify fun w => { w with code := w.code.write bytes }

/-- Append an opcode with a two-byte operand. -/
def emitShort (op : Opcode) (operand : Nat) : MethodM Unit := emit (op :: u2 operand)

def useLocals (count : Nat) : MethodM Unit :=
  modify fun w =>
    if w.compute = .asGiven then w else { w with maxLocals := max w.maxLocals count }

/-- Interpret an instruction in the current block, where frames are computed. -/
def interpret (op : Opcode) (arg : Nat) (operand : Operand) : MethodM Unit := fun w =>
  match w.compute, w.current with
  | .frames, some block =>
    match (w.labels.info block).typed.frame with
    | none => .ok () w
    | some frame =>
      let setFrame (frame : Option Frame) (labels : LabelTable) : LabelTable :=
        labels.updateTyped block fun b => { b with frame := frame }
      let pool := w.pool
      let w := { w with labels := setFrame none w.labels, pool := .empty }
      match Interpreter.execute op arg operand ⟨frame, pool⟩ with
      | .ok _ s => .ok () { w with labels := setFrame (some s.frame) w.labels, pool := s.pool }
      | .error e s => .error e { w with labels := setFrame (some s.frame) w.labels, pool := s.pool }
  | _, _ => .ok () w

/-- Track the stack height in the current block, where sizes are computed. -/
def growStack (delta : Int) : MethodM Unit :=
  modify fun w =>
    if w.compute = .maxs ∧ w.current.isSome then
      { w with height := w.height + delta, peak := max w.peak (w.height + delta) }
    else w

/-! ### Labels -/

def newLabel : MethodM Label :=
  modifyGet fun w => (w.labels.size, { w with labels := w.labels.push {} })

def checkLabel (label : Label) : MethodM Unit := do
  if (← get).labels.size ≤ label then throw (.invalidArgument (.foreignLabel label))

def checkLabels : List Label → MethodM Unit
  | [] => pure ()
  | label :: labels => do
    checkLabel label
    checkLabels labels

/-- Fill in an offset. If it does not fit in two bytes, the opcode before it becomes a marker. -/
def patchReference (position : Nat) (w : MethodWriter) (r : ForwardRef) : MethodWriter :=
  let offset : Int := position - r.source
  if r.wide then { w with code := w.code.patch r.site (i4 offset) }
  else if -32768 ≤ offset ∧ offset ≤ 32767 then { w with code := w.code.patch r.site (i2 offset) }
  else
    let op : Opcode := w.code.byteAt (r.site - 1)
    { w with code := w.code.patch (r.site - 1) (op.marker :: i2 offset), hasOversized := true }

/-- Fix the position of a label and fill in the offsets that wait for it. -/
def resolve (label : Label) : MethodM Unit := do
  if (← get).labels.isPlaced label then throw (.labelPlacedTwice label)
  modify fun w =>
    let position := w.code.size
    let waiting := (w.labels.info label).waiting
    let labels := w.labels.update label fun info =>
      { info with position := some position, waiting := #[] }
    waiting.toList.foldl (patchReference position) { w with labels := labels }

/-- Write the offset of a label from a position, or reserve room for it. -/
def emitReference (label : Label) (source : Nat) (wide : Bool) : MethodM Unit := do
  let field (offset : Int) : List UInt8 := if wide then i4 offset else i2 offset
  match (← get).labels.position? label with
  | some position => emit (field (position - source))
  | none =>
    let site ← position
    updateLabels fun labels =>
      labels.update label fun info => { info with waiting := info.waiting.push ⟨source, site, wide⟩ }
    emit (field (-1))

def emitReferences (source : Nat) : List Label → MethodM Unit
  | [] => pure ()
  | label :: labels => do
    emitReference label source true
    emitReferences source labels

/-- Where frames are computed, a label that is placed where a block already starts becomes part of it. -/
def collapse (label block : Label) : MethodM Unit :=
  updateLabels fun labels =>
    let isTarget := (labels.info label).typed.isTarget
    let labels := labels.update label fun info =>
      { info with canonical := some block, typed := { info.typed with frame := none } }
    labels.updateTyped block fun b => { b with isTarget := b.isTarget || isTarget }

def pushBlock (label : Label) : MethodM Unit :=
  modify fun w => { w with blocks := w.blocks.push label }

/-- Give a label the frame of a block that does nothing yet. -/
def startFrame (label : Label) : MethodM Unit :=
  updateLabels fun labels => labels.updateTyped label fun b => { b with frame := some {} }

/-- What becomes of a label that is placed, where frames are computed. -/
inductive Placement
  /-- It joins the current block, which starts here. -/
  | joinCurrent (block : Label)
  /-- It joins the last block, which starts here and becomes the current one. -/
  | joinLast (block : Label)
  /-- It heads a block. -/
  | head
  deriving DecidableEq

/-- What becomes of a label that is placed now. -/
def placement (w : MethodWriter) : Placement :=
  let startsHere (block : Label) : Bool := w.labels.position? block = some w.code.size
  match w.current.filter startsHere, w.blocks.back?.filter startsHere with
  | some block, _ => .joinCurrent block
  | none, some block => .joinLast block
  | none, none => .head

/-- Start a block at a label, where frames are computed. -/
def placeTyped (label : Label) : MethodM Unit := do
  match (← get).placement with
  | .joinCurrent block => collapse label block
  | .joinLast block =>
    updateCurrent fun labels current => labels.addTypeEdge current .normal label
    collapse label block
    modify fun w => { w with current := some block }
  | .head =>
    updateCurrent fun labels current => labels.addTypeEdge current .normal label
    startFrame label
    pushBlock label
    modify fun w => { w with current := some label }

/-- Start a block at a label, where sizes are computed. -/
def placeSized (label : Label) : MethodM Unit := do
  modify fun w =>
    match w.current with
    | none => w
    | some block =>
      let labels := w.labels.updateSized block fun b =>
        let edge : HeightEdge := if b.calls then .returnSite w.height else .flow w.height
        { b with peak := w.peak, edges := b.edges.push (edge, label) }
      { w with labels := labels }
  modify fun w => { w with current := some label, height := 0, peak := 0 }
  pushBlock label

def placeLabel (label : Label) : MethodM Unit := do
  checkLabel label
  resolve label
  match (← get).compute with
  | .frames => placeTyped label
  | .maxs => placeSized label
  | .asGiven => pure ()

/-- End the current block without falling through. Where frames are computed, what follows is a block of
its own, even if nothing leads to it. -/
def endBlock : MethodM Unit := do
  match (← get).compute with
  | .frames =>
    let label ← newLabel
    resolve label
    startFrame label
    pushBlock label
  | .maxs =>
    modify fun w =>
      match w.current with
      | none => w
      | some block => { w with labels := w.labels.updateSized block fun b => { b with peak := w.peak } }
  | .asGiven => pure ()
  modify fun w => { w with current := none }

/-! ### Instructions -/

def rejectOpcode {α : Type} (op : Opcode) (event : String) : MethodM α :=
  throw (.invalidOpcode op event)

/-- The number that `bipush`, `sipush` and `newarray` accept. -/
def intRange? (op : Opcode) : Option (Int × Int) :=
  if op = Opcode.bipush then some (-128, 127)
  else if op = Opcode.sipush then some (-32768, 32767)
  else if op = Opcode.newarray then some (4, 11)
  else none

/-- An instruction without operands. -/
def writePlain (op : Opcode) : MethodM Unit := do
  if op.shape ≠ .plain then rejectOpcode op "visit_insn"
  interpret op (← position) .none
  growStack op.delta
  emit [op]
  if op.isExit && (← get).current.isSome then endBlock

def writeInt (op : Opcode) (operand : Int) : MethodM Unit := do
  match intRange? op with
  | none => rejectOpcode op "visit_int_insn"
  | some (low, high) =>
    if operand < low ∨ high < operand then
      throw (.invalidArgument (.operandRange op operand))
    interpret op operand.toNat .none
    growStack op.delta
    emit (op :: if op = Opcode.sipush then i2 operand else u1 (operand % 256).toNat)

def localForm (op : Opcode) (var : Nat) : List UInt8 :=
  if var < 4 ∧ op ≠ Opcode.ret then [op.implicitForm var]
  else if 256 ≤ var then Opcode.wide :: op :: u2 var
  else op :: u1 var

/-- A load or store, or `ret`. Exception handlers see the locals as they are after each store, so a store ends its
block where frames are computed. -/
def writeVar (op : Opcode) (var : Nat) : MethodM Unit := do
  if !(op.isLocalAccess || op = Opcode.ret) then rejectOpcode op "visit_var_insn"
  let w ← get
  if op = Opcode.ret ∧ w.compute = .frames then
    throw (.unsupportedSubroutine op w.code.size)
  if op = Opcode.ret ∧ w.compute = .maxs ∧ w.current.isSome then
    let height := w.height
    updateCurrent fun labels block =>
      labels.updateSized block fun b => { b with returnHeight := some height }
    endBlock
  else
    interpret op var .none
    growStack op.delta
  useLocals (var + if op.isWideAccess then 2 else 1)
  emit (localForm op var)
  if Opcode.istore ≤ op ∧ (← get).compute = .frames then placeLabel (← newLabel)

def writeIinc (var : Nat) (increment : Int) : MethodM Unit := do
  interpret Opcode.iinc var .none
  useLocals (var + 1)
  if 255 < var ∨ increment < -128 ∨ 127 < increment then
    emit (Opcode.wide :: Opcode.iinc :: u2 var ++ i2 increment)
  else emit (Opcode.iinc :: u1 var ++ u1 (increment % 256).toNat)

def writeType (op : Opcode) (name : String) : MethodM Unit := do
  if op.shape ≠ .type then rejectOpcode op "visit_type_insn"
  let index ← fromPool (Pool.cls name)
  interpret op (← position) (.cls name)
  growStack op.delta
  emitShort op index

/-- By how much a field access changes the stack height. -/
def fieldDelta (effect : Effect) (width : Nat) : Int :=
  match effect with
  | .field onObject writes => (if writes then -(width : Int) else width) - (if onObject then 1 else 0)
  | _ => 0

def writeField (op : Opcode) (m : MemberRef) : MethodM Unit := do
  if !op.isFieldAccess then rejectOpcode op "visit_field_insn"
  let type ← checked (FieldType.ofDescriptor m.descriptor)
  let index ← fromPool (Pool.fieldRef m.owner m.name m.descriptor)
  interpret op (← position) (.field m.descriptor)
  growStack (fieldDelta op.effect type.width)
  emitShort op index

def writeMethod (op : Opcode) (m : MemberRef) (isInterface : Bool) : MethodM Unit := do
  if !op.isInvocation then rejectOpcode op "visit_method_insn"
  let descriptor ← checked (MethodDescriptor.ofDescriptor m.descriptor)
  let onInterface := op == Opcode.invokeinterface
  let index ← fromPool (Pool.methodRef m.owner m.name m.descriptor (isInterface || onInterface))
  interpret op (← position) (.method m.name m.descriptor)
  growStack (descriptor.returnLength - descriptor.parameterLength (op != Opcode.invokestatic))
  emitShort op index
  if onInterface then emit (u1 (descriptor.parameterLength true) ++ u1 0)

def writeInvokeDynamic (name text : String) (bootstrap : Handle) (arguments : List Loadable) :
    MethodM Unit := do
  let descriptor ← checked (MethodDescriptor.ofDescriptor text)
  let index ← fromPool (Pool.invokeDynamic name text bootstrap arguments)
  interpret Opcode.invokedynamic (← position) (.invokeDynamic text)
  growStack (descriptor.returnLength - descriptor.parameterLength false)
  emitShort Opcode.invokedynamic index
  emit (u2 0)

/-- A constant, by the shortest instruction that reaches it. -/
def writeLdc (constant : Loadable) : MethodM Unit := do
  let index ← fromPool (Pool.loadable constant)
  interpret Opcode.ldc (← position) (.constant constant)
  growStack constant.width
  if constant.isWide then emitShort Opcode.ldc2W index
  else if 256 ≤ index then emitShort Opcode.ldcW index
  else emit (Opcode.ldc :: u1 index)

def writeMultiNewArray (descriptor : String) (dimensions : Nat) : MethodM Unit := do
  if dimensions = 0 then throw (.invalidArgument .noDimensions)
  let index ← fromPool (Pool.cls descriptor)
  interpret Opcode.multianewarray dimensions (.cls descriptor)
  growStack (1 - dimensions)
  emitShort Opcode.multianewarray index
  emit (u1 dimensions)

/-! ### Jumps -/

/-- The short jump that an opcode stands for, and whether it is the wide form. -/
def jumpForm? (op : Opcode) : Option (Opcode × Bool) :=
  if op = Opcode.gotoW then some (Opcode.goto, true)
  else if op = Opcode.jsrW then some (Opcode.jsr, true)
  else if op.isShortJump then some (op, false)
  else none

/-- Record a jump in the current block. Gives the label of the next instruction, if that starts a block. -/
def recordJump (op base : Opcode) (label : Label) : MethodM (Option Label) := do
  let w ← get
  match w.compute, w.current with
  | .frames, some block =>
    interpret op w.code.size .none
    updateLabels fun labels =>
      (labels.markTarget (labels.first label)).addTypeEdge block .normal label
    if base = Opcode.goto then return none
    else return some (← newLabel)
  | .maxs, some block =>
    if base = Opcode.jsr then
      let height := w.height + 1
      updateLabels fun labels =>
        (labels.updateSized block fun b => { b with calls := true }).addHeightEdge block
          (.call height) label
      modify fun w => { w with hasSubroutines := true }
      return some (← newLabel)
    else
      let height := w.height + base.delta
      modify fun w => { w with height := height }
      updateLabels fun labels => labels.addHeightEdge block (.flow height) label
      return none
  | _, _ => return none

/-- Encode a jump. A backward jump that is out of range is written in its wide form at once; a conditional one
then jumps on the opposite condition over a wide jump, which makes the next instruction a target. -/
def emitJump (op base : Opcode) (wide : Bool) (label : Label) (next : Option Label) :
    MethodM Unit := do
  let here ← position
  let isFar : Bool :=
    match (← get).labels.position? label with
    | some target => (target : Int) - here < -32768
    | none => false
  if wide then
    emit [op]
    emitReference label here true
  else if !isFar then
    emit [op]
    emitReference label here false
  else if base = Opcode.goto then
    emit [Opcode.gotoW]
    emitReference label here true
  else if base = Opcode.jsr then
    emit [Opcode.jsrW]
    emitReference label here true
  else
    match next with
    | some next => updateLabels (·.markTarget next)
    | none => pure ()
    emitShort base.invert 8
    emit [Opcode.gotoW]
    emitReference label (here + 3) true

def writeJump (op : Opcode) (label : Label) : MethodM Unit := do
  checkLabel label
  match jumpForm? op with
  | none => rejectOpcode op "visit_jump_insn"
  | some (base, wide) =>
    let w ← get
    if base = Opcode.jsr ∧ w.compute = .frames then
      throw (.unsupportedSubroutine op w.code.size)
    let next ← recordJump op base label
    emitJump op base wide label next
    if (← get).current.isSome then
      match next with
      | some next => placeLabel next
      | none => pure ()
      if base = Opcode.goto then endBlock

def recordSwitch (targets : List Label) : MethodM Unit := do
  let w ← get
  match w.compute, w.current with
  | _, none => pure ()
  | .frames, some block =>
    interpret Opcode.lookupSwitch 0 .none
    updateLabels fun labels =>
      targets.foldl
        (fun labels label =>
          (labels.markTarget (labels.first label)).addTypeEdge block .normal label)
        labels
    endBlock
  | .maxs, some block =>
    let height := w.height - 1
    modify fun w => { w with height := height }
    updateLabels fun labels =>
      targets.foldl (fun labels label => labels.addHeightEdge block (.flow height) label) labels
    endBlock
  | .asGiven, some _ => endBlock

/-- Append the opcode of a switch and pad to a multiple of four. -/
def emitSwitch (op : Opcode) : MethodM Unit := do
  emit [op]
  let size ← position
  emit (List.replicate ((4 - size % 4) % 4) 0)

/-- A switch over a range of numbers. -/
def writeTableSwitch (low high : Int) (fallback : Label) (targets : List Label) : MethodM Unit := do
  if high < low ∨ high - low + 1 ≠ targets.length then
    throw (.invalidArgument (.tableSwitchBounds low high targets.length))
  checkLabels (fallback :: targets)
  let source ← position
  emitSwitch Opcode.tableSwitch
  emitReference fallback source true
  emit (i4 low ++ i4 high)
  emitReferences source targets
  recordSwitch (fallback :: targets)

/-- Numbers that increase strictly. -/
def isIncreasing : List Int32 → Bool
  | a :: b :: rest => a < b && isIncreasing (b :: rest)
  | _ => true

/-- Append keys with the offsets of their labels. -/
def emitPairs (source : Nat) : List (Int32 × Label) → MethodM Unit
  | [] => pure ()
  | (key, label) :: pairs => do
    emit (i4 key.toInt)
    emitReference label source true
    emitPairs source pairs

def writeLookupSwitch (fallback : Label) (keys : List Int32) (targets : List Label) :
    MethodM Unit := do
  if keys.length ≠ targets.length then
    throw (.invalidArgument (.lookupSwitchCounts keys.length targets.length))
  if !isIncreasing keys then throw (.invalidArgument .lookupSwitchOrder)
  checkLabels (fallback :: targets)
  let source ← position
  emitSwitch Opcode.lookupSwitch
  emitReference fallback source true
  emit (i4 keys.length)
  emitPairs source (keys.zip targets)
  recordSwitch (fallback :: targets)

def write : Instruction Label → MethodM Unit
  | .plain op => writePlain op
  | .int op operand => writeInt op operand.toInt
  | .var op index => writeVar op index.toNat
  | .iinc index increment => writeIinc index.toNat increment.toInt
  | .type op name => writeType op name
  | .field op member => writeField op member
  | .method op member isInterface => writeMethod op member isInterface
  | .invokeDynamic name descriptor bootstrap arguments =>
    writeInvokeDynamic name descriptor bootstrap arguments
  | .jump op target => writeJump op target
  | .ldc constant => writeLdc constant
  | .tableSwitch low high fallback targets => writeTableSwitch low.toInt high.toInt fallback targets
  | .lookupSwitch fallback keys targets => writeLookupSwitch fallback keys targets
  | .multiNewArray descriptor dimensions => writeMultiNewArray descriptor dimensions.toNat

end MethodWriter

end JvmAssembler
