import JvmAssembler.Decoding
import JvmAssembler.Method.Body
import JvmAssembler.Replay
import JvmAssembler.Widening

/-!
# JvmAssembler.Method

Writing a method from its header to its row in the class.

When a method is finished its marked jumps are widened. That moves code, so frames no longer fit: a method with
frames is then decoded from its own widened code and written once more, with all frames computed.
-/

namespace JvmAssembler

namespace MethodWriter

/-! ### The start -/

/-- Put what the header of a method needs into the pool. -/
def declare (d : Declaration) : PoolM MethodDescriptor := do
  match MethodDescriptor.ofDescriptor d.descriptor with
  | .error e => throw e
  | .ok descriptor =>
    let _ ← Pool.utf8 d.name
    let _ ← Pool.utf8 d.descriptor
    d.exceptions.forM fun name => do
      let _ ← Pool.cls name
    return descriptor

/-- A method that is declared. Where something is computed it needs room for its receiver and parameters. -/
def start (context : ClassContext) (compute : Compute) (d : Declaration) (descriptor : MethodDescriptor)
    (pool : Pool) (methods : Array (Member .ofMethod)) : MethodWriter :=
  { pool, methods, context, compute, declaration := d, descriptor
    maxLocals := if compute = .asGiven then 0 else descriptor.parameterLength (!d.flags.isStatic) }

/-! ### Attributes -/

def labelPosition (label : Label) : MethodM Nat := do
  match (← get).labels.position? label with
  | some position => return position
  | none => throw (.unresolvedLabel label)

def exceptionRow (h : Handler Label) : MethodM ExceptionRow := do
  let catchType ←
    match h.catchType with
    | none => pure none
    | some name => some <$> fromPool (Pool.cls name)
  return ⟨← labelPosition h.start, ← labelPosition h.stop, ← labelPosition h.handler, catchType⟩

/-- The rows of a local variable: by its descriptor, and by its signature if it has one. -/
def localRows (s : LocalScope Label) : MethodM (LocalRow × Option LocalRow) := do
  let start ← labelPosition s.start
  let stop ← labelPosition s.stop
  let name ← fromPool (Pool.utf8 s.name)
  let descriptor ← fromPool (Pool.utf8 s.descriptor)
  let row : LocalRow := ⟨start, stop - start, name, descriptor, s.index⟩
  match s.signature with
  | none => return (row, none)
  | some signature =>
    let signature ← fromPool (Pool.utf8 signature)
    return (row, some { row with descriptor := signature })

def lineRow (line : Label × UInt16) : MethodM LineRow := do
  return ⟨← labelPosition line.1, line.2⟩

def tableAttribute {α : Type} (name : String) (row : α → List UInt8) (rows : List α) :
    MethodM (List Attribute) := do
  if rows.isEmpty then return []
  else
    let a ← fromPool (Pool.namedAttribute name (Bytes.table row rows))
    return [a]

/-- The stack map as an attribute, unless it is empty or the class is too old to have one. -/
def stackMapAttribute : MethodM (List Attribute) := do
  let w ← get
  match w.stackMap with
  | none => return []
  | some map =>
    if map.frames.isEmpty || !Version.stackMaps.le w.context.version then return []
    else
      let name ← fromPool (Pool.utf8 "StackMapTable")
      match StackMap.tableBytes map.frames.toList with
      | .ok bytes => return [⟨name, bytes⟩]
      | .error fault => throw (.unwritableFrame fault)

/-- Sizes are 16-bit numbers. -/
def checkSlots : MethodM Unit := do
  let w ← get
  if 65535 < w.maxStack then
    throw (.methodSlotsOverflow w.declaration.describe .stack w.maxStack)
  if 65535 < w.maxLocals then
    throw (.methodSlotsOverflow w.declaration.describe .locals w.maxLocals)

def codeAttribute : MethodM Attribute := do
  checkSlots
  let exceptions ← (← get).handlers.toList.mapM exceptionRow
  let locals ← (← get).locals.toList.mapM localRows
  let scopes ← tableAttribute "LocalVariableTable" LocalRow.bytes (locals.map (·.1))
  let types ← tableAttribute "LocalVariableTypeTable" LocalRow.bytes (locals.filterMap (·.2))
  let lines ← (← get).lines.toList.mapM lineRow
  let lines ← tableAttribute "LineNumberTable" LineRow.bytes lines
  let stackMap ← stackMapAttribute
  let w ← get
  let body : CodeBody :=
    ⟨w.maxStack, w.maxLocals, w.code.toList, exceptions, scopes ++ types ++ lines ++ stackMap⟩
  fromPool (Pool.namedAttribute "Code" body.bytes)

def signatureAttribute : Option String → PoolM (List Attribute)
  | none => return []
  | some signature => do
    let index ← Pool.utf8 signature
    let a ← Pool.namedAttribute "Signature" (Bytes.u2 index)
    return [a]

def exceptionsAttribute : List String → PoolM (List Attribute)
  | [] => return []
  | names => do
    let indices ← names.mapM Pool.cls
    let a ← Pool.namedAttribute "Exceptions" (Bytes.table Bytes.u2 indices)
    return [a]

def appendMethod (hasCode : Bool) : MethodM Unit := do
  let code ← if hasCode then do pure [← codeAttribute] else pure []
  let d := (← get).declaration
  let exceptions ← fromPool (exceptionsAttribute d.exceptions)
  let signature ← fromPool (signatureAttribute d.signature)
  let name ← fromPool (Pool.utf8 d.name)
  let descriptor ← fromPool (Pool.utf8 d.descriptor)
  let method : Member .ofMethod := ⟨d.flags, name, descriptor, code ++ exceptions ++ signature⟩
  modify fun w => { w with methods := w.methods.push method }

/-! ### The end -/

def checkCodeLength : MethodM Unit := do
  let w ← get
  if 65535 < w.code.size then throw (.methodCodeOverflow w.declaration.describe w.code.size)

/-- End the method. Gives whether it has a body. -/
def endStage : MethodM Bool :=
  modifyGet fun w => (w.stage = .sealed, { w with stage := .ended })

def finishOnce : MethodM Unit := do
  let hasCode ← endStage
  if hasCode then
    if (← get).hasOversized then throw (.malformedCode 0 .stillOversized)
    checkCodeLength
  appendMethod hasCode

/-- Widen the marked jumps, and move every label with the code. -/
def widenJumps : MethodM Unit := do
  checkCodeLength
  let widened ← checked (Widening.widen (← get).code)
  modify fun w =>
    let move (info : LabelInfo) : LabelInfo :=
      { info with position := info.position.map widened.layout.newPosition }
    { w with labels := w.labels.map move, code := widened.code, hasOversized := false }
  checkCodeLength

/-- The method in terms of positions. -/
def placedMethod : MethodM Replay.Method := do
  let handlers ← (← get).handlers.toList.mapM fun h => do
    return (⟨← labelPosition h.start, ← labelPosition h.stop, ← labelPosition h.handler, h.catchType⟩ :
      Handler Nat)
  let lines ← (← get).lines.toList.mapM fun (label, line) => do
    return (← labelPosition label, line)
  let locals ← (← get).locals.toList.mapM fun s => do
    let start ← labelPosition s.start
    let stop ← labelPosition s.stop
    return { s with start := start, stop := stop }
  let w ← get
  let instructions ← checked (Decoding.decode w.pool w.code)
  return { instructions, codeLength := w.code.size, handlers, lines, locals }

def newLabels : Nat → MethodM Unit
  | 0 => pure ()
  | n + 1 => do
    let _ ← newLabel
    newLabels n

def writeReplayed (r : Replay.Result) : MethodM Unit := do
  newLabels r.labels
  r.events.forM (dispatch finishOnce)
  match r.error with
  | some e => throw e
  | none => pure ()
  dispatch finishOnce (.maxs 0 0)
  dispatch finishOnce .finish

/-- Write the method anew from its events, into the same class. -/
def writeAnew (descriptor : MethodDescriptor) (r : Replay.Result) : MethodM Unit := fun w =>
  let fresh := start w.context .frames w.declaration descriptor w.pool w.methods
  let w := { w with pool := .empty, methods := #[] }
  match writeReplayed r fresh with
  | .ok _ f => .ok () { w with pool := f.pool, methods := f.methods }
  | .error e f => .error e { w with pool := f.pool, methods := f.methods }

/-- Write the method once more from its own code, with all frames computed. -/
def rederive : MethodM Unit := do
  let method ← placedMethod
  let descriptor ← fromPool (declare (← get).declaration)
  writeAnew descriptor (Replay.run method)

/-- Whether the method has frames that widening would invalidate. -/
def hasFrames (w : MethodWriter) : Bool :=
  (w.compute == .frames || (w.stackMap.map (!·.frames.isEmpty)).getD false) &&
    Version.stackMaps.le w.context.version

def finish : MethodM Unit := do
  let hasCode ← endStage
  if hasCode && (← get).hasOversized then
    widenJumps
    if (← get).hasFrames then rederive
    else appendMethod true
  else
    if hasCode then checkCodeLength
    appendMethod hasCode

def send (event : MethodEvent Label) : MethodM Unit := dispatch finish event

end MethodWriter

end JvmAssembler
