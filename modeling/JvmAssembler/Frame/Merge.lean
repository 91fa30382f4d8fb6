import JvmAssembler.Frame.Basic

/-!
# JvmAssembler.Frame.Merge

Where paths meet: applying the summary of a block to its input, and joining the result with what is known of
the block that follows.

* `FrameType.join` is the join of two types in one slot. References of the same dimensions meet in their common
  super class, other references in the root class, and everything else becomes unusable.
* `Frame.merge` joins slot by slot. Over a normal edge locals and stack flow; over an exception edge the
  locals flow, both as they are on entry and as the block leaves them, and the stack is the exception.
* A merge that fails keeps the slots that it has already joined.
-/

namespace JvmAssembler

/-- What is needed to join types. -/
structure TypeContext where
  hierarchy : Hierarchy
  /-- The class that is being assembled. -/
  thisClass : String

namespace FrameType

/-- The coarse kind of a reference: two of the same dimensions can only meet below the root class if
they agree in it. -/
def family (t : FrameType) : Nat :=
  match t.kind with
  | .object _ => 1
  | .uninitialized _ => 2
  | _ => 0

def root : PoolM FrameType := return object (← Pool.addType objectClass)

def joinKnown (h : Hierarchy) (t current : FrameType) : PoolM FrameType :=
  if t = current then return current
  else if current.isReference then
    if t = null then return current
    else if t.dims = current.dims ∧ t.family = current.family then
      match t.kind, current.kind with
      | .object i, .object j => return { dims := t.dims, kind := .object (← Pool.mergedType h i j) }
      | _, _ => root
    else if t.isReference then root
    else return top
  else if current = null ∧ t.isReference then return t
  else return top

/-- The join of what arrives in a slot with what is there. A slot that nothing has reached takes what
arrives; if what arrives is not known, the slot cannot be used. -/
def join (h : Hierarchy) (arriving current : InputSlot) : PoolM InputSlot :=
  match arriving, current with
  | none, none => return none
  | none, some _ => return some top
  | some t, none => return some t.normalized
  | some t, some c => return some (← joinKnown h t.normalized c)

end FrameType

namespace FrameInput

/-- What a type stands for on some input. What lies outside of the input cannot be used. -/
def resolve (input : FrameInput) (t : FrameType) : FrameType :=
  let absolute (found : InputSlot) : FrameType :=
    match found with
    | none => .top
    | some r =>
      let r := { dims := r.dims + t.dims, kind := r.kind }
      if t.topIfWide && r.isWide then .top else r
  match t.kind with
  | .fromLocal i => absolute (input.locals.getD i none)
  | .fromStack depth =>
    absolute (if depth ≤ input.stack.size then input.stack.getD (input.stack.size - depth) none else none)
  | _ => t

end FrameInput

namespace Frame

/-- A type after the constructors that the block has called: what they were called on is an object now. -/
def afterConstructors (f : Frame) (context : TypeContext) (input : FrameInput) (t : InputSlot) :
    PoolM InputSlot := do
  match t with
  | none => return none
  | some t =>
    let initializedAs (name : String) : PoolM InputSlot := do
      if f.initialized.any fun receiver => input.resolve receiver = t then
        return some (.object (← Pool.addType name))
      else return some t
    if f.initialized.isEmpty || t.dims != 0 then return some t
    else
      match t.kind with
      | .uninitializedThis => initializedAs context.thisClass
      | .uninitialized row => initializedAs ((← get).typeName row)
      | _ => return some t

/-- How control gets from one block to another. -/
inductive Edge
  /-- By a jump or by falling through. -/
  | normal
  /-- By an exception of a class, a row of the type table. -/
  | caught (row : Nat)
  deriving DecidableEq

/-- A merge in progress. -/
structure Merging where
  target : FrameInput
  /-- Whether the target has changed. -/
  changed : Bool
  pool : Pool

abbrev MergeM := EStateM Error Merging

def Merging.fromPool {α : Type} (action : PoolM α) : MergeM α := fun s =>
  match action s.pool with
  | .ok a pool => .ok a { s with pool := pool }
  | .error e pool => .error e { s with pool := pool }

def Merging.joinLocal (h : Hierarchy) (i : Nat) (arriving : InputSlot) : MergeM Unit := do
  let current := (← get).target.locals.getD i none
  let joined ← fromPool (FrameType.join h arriving current)
  if joined ≠ current then
    modify fun s =>
      { s with
        target := { s.target with locals := s.target.locals.setIfInBounds i joined }
        changed := true }

def Merging.joinStack (h : Hierarchy) (i : Nat) (arriving : InputSlot) : MergeM Unit := do
  let current := (← get).target.stack.getD i none
  let joined ← fromPool (FrameType.join h arriving current)
  if joined ≠ current then
    modify fun s =>
      { s with
        target := { s.target with stack := s.target.stack.setIfInBounds i joined }
        changed := true }

/-- Do something for the numbers from `start` on. -/
def forCount (step : Nat → MergeM Unit) : Nat → Nat → MergeM Unit
  | 0, _ => pure ()
  | n + 1, start => do
    step start
    forCount step n (start + 1)

/-- The type of a local where the block ends. -/
def finalLocal (f : Frame) (input : FrameInput) (i : Nat) : InputSlot :=
  match f.locals.getD i none with
  | some t => some (input.resolve t)
  | none => input.locals.getD i none

/-- How many slots of the input stack the block leaves. -/
def kept (f : Frame) (input : FrameInput) : Nat := input.stack.size - f.popped

/-- The type of a stack slot where the block ends. -/
def finalStack (f : Frame) (input : FrameInput) (i : Nat) : InputSlot :=
  let kept := f.kept input
  if i < kept then input.stack.getD i none
  else (f.stack[i - kept]?).map input.resolve

/-- The height of the stack where the block ends. -/
def finalHeight (f : Frame) (input : FrameInput) : Nat := f.kept input + f.stack.size

def mergeLocals (f : Frame) (context : TypeContext) (input : FrameInput) : MergeM Unit :=
  forCount
    (fun i => do
      let t ← Merging.fromPool (f.afterConstructors context input (f.finalLocal input i))
      Merging.joinLocal context.hierarchy i t)
    input.locals.size 0

/-- Merge the locals as they are on entry, and the exception. -/
def mergeCaught (context : TypeContext) (input : FrameInput) (row : Nat) : MergeM Unit := do
  forCount
    (fun i => Merging.joinLocal context.hierarchy i (input.locals.getD i none))
    input.locals.size 0
  if (← get).target.stack.isEmpty then
    modify fun s => { s with target := { s.target with stack := #[none] }, changed := true }
  Merging.joinStack context.hierarchy 0 (some (.object row))

/-- Merge the stack; its height has to be that of the target, unless the target is new. -/
def mergeStack (f : Frame) (context : TypeContext) (input : FrameInput) (fresh : Bool)
    (position : Nat) : MergeM Unit := do
  let height := f.finalHeight input
  if fresh then
    modify fun s => { s with target := { s.target with stack := Array.replicate height none } }
  else
    let expected := (← get).target.stack.size
    if expected ≠ height then throw (.stackHeightMismatch position expected height)
  forCount
    (fun i => do
      let t ← Merging.fromPool (f.afterConstructors context input (f.finalStack input i))
      Merging.joinStack context.hierarchy i t)
    height 0

def mergeInto (f : Frame) (context : TypeContext) (input : FrameInput) (edge : Edge) (fresh : Bool)
    (position : Nat) : MergeM Unit := do
  modify fun s =>
    let missing := input.locals.size - s.target.locals.size
    { s with target := { s.target with locals := s.target.locals ++ Array.replicate missing none } }
  f.mergeLocals context input
  match edge with
  | .caught row => mergeCaught context input row
  | .normal => f.mergeStack context input fresh position

/-- The input of a block, which may not have been reached, with the pool that it refers to. -/
structure MergeTarget where
  input : Option FrameInput
  pool : Pool

/-- Merge a block into the input of one that follows it at a position, and say whether that has changed. A
block that has not been reached itself changes nothing. -/
def merge (f : Frame) (context : TypeContext) (edge : Edge) (position : Nat) :
    EStateM Error MergeTarget Bool := fun s =>
  match f.input with
  | none => .ok false s
  | some input =>
    let fresh := s.input.isNone
    let start : Merging := { target := s.input.getD {}, changed := fresh, pool := s.pool }
    match f.mergeInto context input edge fresh position start with
    | .ok _ m => .ok m.changed ⟨some m.target, m.pool⟩
    | .error e m => .error e ⟨some m.target, m.pool⟩

end Frame

end JvmAssembler
