import JvmAssembler.Method.Inference
import JvmAssembler.Method.Sizing

/-!
# JvmAssembler.Method.Body

The events of a method: which of them may come when, and what each of them does.

What the last event, `finish`, does is a parameter here, since it may have to write the method anew.
-/

namespace JvmAssembler

def Instruction.eventName {L : Type} : Instruction L → String
  | .plain _ => "visit_insn"
  | .int .. => "visit_int_insn"
  | .var .. => "visit_var_insn"
  | .iinc .. => "visit_iinc_insn"
  | .type .. => "visit_type_insn"
  | .field .. => "visit_field_insn"
  | .method .. => "visit_method_insn"
  | .invokeDynamic .. => "visit_invoke_dynamic_insn"
  | .jump .. => "visit_jump_insn"
  | .ldc _ => "visit_ldc_insn"
  | .tableSwitch .. => "visit_table_switch_insn"
  | .lookupSwitch .. => "visit_lookup_switch_insn"
  | .multiNewArray .. => "visit_multi_anew_array_insn"

namespace MethodEvent

def name {L : Type} : MethodEvent L → String
  | .code => "visit_code"
  | .frame _ => "visit_frame"
  | .instruction i => i.eventName
  | .label _ => "visit_label"
  | .tryCatch _ => "visit_try_catch_block"
  | .localVariable _ => "visit_local_variable"
  | .lineNumber .. => "visit_line_number"
  | .maxs .. => "visit_maxs"
  | .finish => "visit_end"

def isAllowed {L : Type} : MethodEvent L → Stage → Bool
  | .code, stage => stage = .declared
  | .finish, stage => stage = .declared ∨ stage = .sealed
  | _, stage => stage = .open

end MethodEvent

/-- Slots taken by a type in a frame that a caller supplies. -/
def FrameItem.width {L : Type} : FrameItem L → Nat
  | .long | .double => 2
  | _ => 1

namespace MethodWriter

/-! ### The body -/

/-- Open the body. Where something is computed, it starts with a block of its own. -/
def openCode : MethodM Unit := do
  modify fun w => { w with stage := .open }
  if (← get).compute ≠ .asGiven then placeLabel (← newLabel)

def itemType : FrameItem Label → MethodM VerificationType
  | .top => return .top
  | .int => return .int
  | .float => return .float
  | .long => return .long
  | .double => return .double
  | .null => return .null
  | .uninitializedThis => return .uninitializedThis
  | .object name => return .object (← fromPool (Pool.cls name))
  | .uninitialized label => do
    checkLabel label
    match (← get).labels.position? label with
    | some position => return .uninitialized (position % 65536)
    | none => throw (.unresolvedLabel label)

/-- Change the locals of the last frame that the caller supplied. -/
def updateCallerLocals (f : List (FrameItem Label) → List (FrameItem Label)) : MethodM Unit :=
  modify fun w => { w with callerLocals := f w.callerLocals }

def callerShape : ExplicitFrame Label → MethodM (FrameShape VerificationType)
  | .same => return .same
  | .sameOne item => return .sameOne (← itemType item)
  | .append items => do
    if items.isEmpty ∨ 3 < items.length then
      throw (.invalidArgument (.appendCount items.length))
    let types ← items.mapM itemType
    updateCallerLocals (· ++ items)
    return .append types
  | .chop count => do
    if count = 0 ∨ 3 < count then throw (.invalidArgument (.chopCount count))
    updateCallerLocals fun locals => locals.take (locals.length - count)
    return .chop count
  | .full locals stack => do
    let localTypes ← locals.mapM itemType
    let stackTypes ← stack.mapM itemType
    updateCallerLocals fun _ => locals
    return .full localTypes stackTypes

/-- A frame that the caller supplies for this position. It is ignored where frames are computed. -/
def writeFrame (frame : ExplicitFrame Label) : MethodM Unit := do
  if (← get).compute = .frames then return
  let offset ← position
  let shape ← callerShape frame
  useLocals (((← get).callerLocals.map FrameItem.width).foldr (· + ·) 0)
  let map := (← get).stackMap.getD (.start [])
  modify fun w => { w with stackMap := none }
  match map.pushShape offset shape with
  | .ok map => modify fun w => { w with stackMap := some map }
  | .error e =>
    modify fun w => { w with stackMap := some map }
    throw e

def writeHandler (h : Handler Label) : MethodM Unit := do
  checkLabels [h.start, h.stop, h.handler]
  match h.catchType with
  | none => pure ()
  | some name => let _ ← fromPool (Pool.cls name)
  modify fun w => { w with handlers := w.handlers.push h }

def writeLocal (s : LocalScope Label) : MethodM Unit := do
  checkLabels [s.start, s.stop]
  let _ ← fromPool (Pool.utf8 s.name)
  let _ ← fromPool (Pool.utf8 s.descriptor)
  match s.signature with
  | none => pure ()
  | some signature => let _ ← fromPool (Pool.utf8 signature)
  let first := s.descriptor.toList.head?
  useLocals (s.index.toNat + if first = some 'J' ∨ first = some 'D' then 2 else 1)
  modify fun w => { w with locals := w.locals.push s }

def writeLine (line : UInt16) (start : Label) : MethodM Unit := do
  checkLabel start
  modify fun w => { w with lines := w.lines.push (start, line) }

def requirePlaced : List Label → MethodM Unit
  | [] => pure ()
  | label :: labels => do
    if !(← get).labels.isPlaced label then throw (.unresolvedLabel label)
    requirePlaced labels

def computeSizes : MethodM Unit :=
  modify fun w =>
    let labels := match w.current with
      | none => w.labels
      | some block => w.labels.updateSized block fun b => { b with peak := w.peak }
    { w with
      labels := labels
      maxStack := Sizing.maxStack labels w.blocks w.handlers.toList w.hasSubroutines }

/-- Close the body: every label that a jump or a handler refers to is placed, and what is to be computed is
computed. -/
def closeCode (stack locals : Nat) : MethodM Unit := do
  let w ← get
  match w.labels.findIdx? (!·.waiting.isEmpty) with
  | some label => throw (.unresolvedLabel label)
  | none => pure ()
  w.handlers.toList.forM fun h => requirePlaced [h.start, h.stop, h.handler]
  match w.compute with
  | .asGiven => modify fun w => { w with maxStack := stack, maxLocals := locals }
  | .maxs => computeSizes
  | .frames => inferFrames
  modify fun w => { w with stage := .sealed }

def dispatch (finish : MethodM Unit) (event : MethodEvent Label) : MethodM Unit := do
  let stage := (← get).stage
  if !event.isAllowed stage then throw (.invalidState event.name stage.moment)
  match event with
  | .code => openCode
  | .frame frame => writeFrame frame
  | .instruction i => write i
  | .label label => placeLabel label
  | .tryCatch h => writeHandler h
  | .localVariable s => writeLocal s
  | .lineNumber line start => writeLine line start
  | .maxs stack locals => closeCode stack.toNat locals.toNat
  | .finish => finish

end MethodWriter

end JvmAssembler
