import JvmAssembler.Frame.Verification
import JvmAssembler.Method.Writer

/-!
# JvmAssembler.Method.Inference

The frames of a method, found by iterating over its control flow graph.

* Every block of a protected range may jump to its handler. The input of the entry comes from the parameters;
  then blocks whose input has changed are merged into their successors until nothing changes.
* A frame is stored for every reachable block that something jumps to. Code that cannot be reached is
  replaced by one that throws, since it has no frame.
* The iteration ends because a slot only ever moves up an order of bounded height. `stepBound` counts these
  moves; running out of them would be the error `divergence`.
* An inference that fails keeps what it has found, and the block at which it failed has lost its frame.
-/

namespace JvmAssembler

namespace MethodWriter

/-- A block that should have a frame has none. -/
def missingFrame : Error := .malformedCode 0 .blockWithoutFrame

/-- Let the blocks of a protected range lead to its handler. -/
def addCatchEdges (h : Handler Label) : MethodM Unit := do
  let row ← fromPool (Pool.addType (h.catchType.getD "java/lang/Throwable"))
  modify fun w =>
    let handler := w.labels.first h.handler
    let range := blockRange w.blocks (w.labels.first h.start) (w.labels.first h.stop)
    let labels := w.labels.markTarget handler
    { w with labels := range.foldl (fun labels b => labels.addTypeEdge b (.caught row) handler) labels }

/-- Set the input of the entry from the parameters. Gives the locals of the frame that is implicit there. -/
def startEntry (entry : Label) : MethodM (List VerificationType) := do
  let w ← get
  if (w.labels.info entry).typed.frame.isNone then throw missingFrame
  let d := w.declaration
  let input ← fromPool (FrameInput.ofMethod w.context.thisClass d.flags.isStatic (d.name = "<init>")
    w.descriptor w.maxLocals)
  updateLabels fun labels =>
    labels.updateTyped entry fun b =>
      { b with frame := b.frame.map fun f => { f with input := some input } }
  let (locals, _) ← fromPool input.verificationTypes
  return locals

/-! ### The iteration -/

/-- Note that a block is visited, and take its frame away from it. -/
def markVisited (block : Label) (labels : LabelTable) : LabelTable :=
  labels.updateTyped block fun b =>
    { b with
      isQueued := false
      isStored := b.isStored || b.isTarget
      isReachable := true
      frame := none }

def visitBlock (block : Label) : MethodM Frame := fun w =>
  match (w.labels.info block).typed.frame with
  | some frame => .ok frame { w with labels := markVisited block w.labels }
  | none => .error missingFrame { w with labels := markVisited block w.labels }

def mergeSelf (frame : Frame) (edge : Frame.Edge) (position : Nat) : MethodM (Frame × Bool) := fun w =>
  let pool := w.pool
  let w := { w with pool := .empty }
  match frame.merge ⟨w.context.hierarchy, w.context.thisClass⟩ edge position ⟨frame.input, pool⟩ with
  | .ok changed t => .ok ({ frame with input := t.input }, changed) { w with pool := t.pool }
  | .error e t => .error e { w with pool := t.pool }

/-- Merge a block into another one. -/
def mergeOther (frame : Frame) (edge : Frame.Edge) (successor : Label) (position : Nat) :
    MethodM Bool := fun w =>
  match (w.labels.info successor).typed.frame with
  | none => .error missingFrame w
  | some target =>
    let setFrame (frame : Option Frame) (labels : LabelTable) : LabelTable :=
      labels.updateTyped successor fun b => { b with frame := frame }
    let pool := w.pool
    let w := { w with labels := setFrame none w.labels, pool := .empty }
    let input := target.input
    let target := { target with input := none }
    match frame.merge ⟨w.context.hierarchy, w.context.thisClass⟩ edge position ⟨input, pool⟩ with
    | .ok changed t =>
      .ok changed
        { w with labels := setFrame (some { target with input := t.input }) w.labels, pool := t.pool }
    | .error e t =>
      .error e
        { w with labels := setFrame (some { target with input := t.input }) w.labels, pool := t.pool }

/-- Put a block on top of the queue, unless it is already in it. -/
def enqueue (block : Label) (queue : List Label) : MethodM (List Label) := do
  if ((← get).labels.info block).typed.isQueued then return queue
  else
    updateLabels fun labels => labels.updateTyped block fun b => { b with isQueued := true }
    return block :: queue

/-- Merge a block into its successors. -/
def flow (block : Label) :
    List (Frame.Edge × Label) → Frame → List Label → MethodM (Frame × List Label)
  | [], frame, queue => return (frame, queue)
  | (edge, label) :: edges, frame, queue => do
    let successor := (← get).labels.first label
    let position := (← get).labels.position successor
    let (frame, changed) ←
      if successor = block then mergeSelf frame edge position
      else do
        let changed ← mergeOther frame edge successor position
        pure (frame, changed)
    let queue ← if changed then enqueue successor queue else pure queue
    flow block edges frame queue

/-- Visit queued blocks until none is left. Gives the largest stack height. -/
def iterate : Nat → List Label → Nat → MethodM Nat
  | _, [], largest => return largest
  | 0, _ :: _, _ => throw .divergence
  | fuel + 1, block :: queue, largest => do
    let frame ← visitBlock block
    let height := (frame.input.map (·.stack.size)).getD 0
    let largest := max largest (height + frame.peak)
    let edges := ((← get).labels.info block).typed.edges
    let (frame, queue) ← flow block edges.toList frame queue
    updateLabels fun labels => labels.updateTyped block fun b => { b with frame := some frame }
    iterate fuel queue largest

/-- The slots that a block brings in: what it pushes, and what an earlier inference left on its entry. -/
def ownSlots (f : Frame) : Nat :=
  f.stack.size + (f.input.map fun input => input.locals.size + input.stack.size).getD 0

/-- A bound on the number of visits. A block is queued again only if one of its slots moves up: from not reached
to `null`, to a class, through its super classes to the root, to unusable. -/
def stepBound (w : MethodWriter) : Nat :=
  let own := w.labels.foldl (fun n info => n + (info.typed.frame.map ownSlots).getD 0) 0
  let slots := w.maxLocals + own + 1
  2 + w.blocks.size * (3 + slots * (w.context.hierarchy.size + 10))

/-! ### Results -/

def storeFrame (block : Label) (map : StackMap.Builder) : MethodM StackMap.Builder := do
  let w ← get
  let typed := (w.labels.info block).typed
  if !typed.isStored then return map
  else
    match typed.frame.bind (·.input) with
    | none => throw missingFrame
    | some input =>
      let start := w.labels.position block
      let (locals, stack) ← fromPool input.verificationTypes
      checked (map.pushExpanded start locals stack)

/-- Replace a block that cannot be reached by one that throws, without handlers. -/
def voidBlock (block : Label) (next : Option Label) (map : StackMap.Builder) :
    MethodM (StackMap.Builder × Bool) := do
  let w ← get
  let start := w.labels.position block
  let stop := (next.map w.labels.position).getD w.code.size
  if (w.labels.info block).typed.isReachable || stop ≤ start then return (map, false)
  else
    modify fun w =>
      let filler := List.replicate (stop - start - 1) Opcode.nop ++ [Opcode.athrow]
      { w with code := w.code.patch start filler }
    let throwable ← fromPool (Pool.cls "java/lang/Throwable")
    let map ← checked (map.pushExpanded start [] [.object throwable])
    modify fun w =>
      let handlers := Handler.remove w.labels.position block next w.handlers.toList
      { w with handlers := handlers.toArray }
    return (map, true)

/-- Store frames and void what cannot be reached, in code order. A voided block needs one stack slot. -/
def storeFrames : List Label → StackMap.Builder → Nat → MethodM (StackMap.Builder × Nat)
  | [], map, largest => return (map, largest)
  | block :: rest, map, largest => do
    let map ← storeFrame block map
    let (map, voided) ← voidBlock block rest.head? map
    storeFrames rest map (if voided then max largest 1 else largest)

def inferFrames : MethodM Unit := do
  match (← get).blocks[0]? with
  | none => pure ()
  | some entry =>
    (← get).handlers.toList.forM addCatchEdges
    let locals ← startEntry entry
    updateLabels fun labels => labels.updateTyped entry fun b => { b with isQueued := true }
    let bound := stepBound (← get)
    let largest ← iterate bound [entry] 0
    let (map, largest) ← storeFrames (← get).blocks.toList (.start locals) largest
    modify fun w => { w with maxStack := largest, stackMap := some map }

end MethodWriter

end JvmAssembler
