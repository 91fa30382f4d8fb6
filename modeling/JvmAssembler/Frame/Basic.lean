import JvmAssembler.Pool
import JvmAssembler.StackMap

/-!
# JvmAssembler.Frame.Basic

The types that the slots of a method hold, as far as they are known while the method is written.

* A `FrameType` is a kind under some array dimensions. Inside a block it may be *relative*: "whatever was
  in local 3 on entry", "one dimension less than what was on top of the stack".
* A `FrameInput` holds the types on entry of a block, where a slot without a type has not been reached.
* A `Frame` summarises a block: what it does to the locals and to the stack, in terms of its input. The
  block is interpreted once, and the summary is applied to each input that the block turns out to have.
-/

namespace JvmAssembler

/-- What a slot holds, under its array dimensions. -/
inductive Kind
  | top
  /-- The narrow integers are only ever the elements of an array. -/
  | boolean
  | byte
  | char
  | short
  | int
  | float
  | long
  | double
  | null
  | uninitializedThis
  /-- A class or interface, as a row of the type table. -/
  | object (row : Nat)
  /-- What a `new` made, as a row of the type table, which knows the offset of the `new`. -/
  | uninitialized (row : Nat)
  /-- Whatever was in this local on entry. -/
  | fromLocal (index : Nat)
  /-- Whatever was this deep in the stack on entry, the top being 1. -/
  | fromStack (depth : Nat)
  deriving DecidableEq

/-- The type of a slot. -/
structure FrameType where
  /-- Array dimensions; of a relative type, those to add to what it stands for. -/
  dims : Int := 0
  kind : Kind
  /-- Set on a relative local when the slot behind it is overwritten: if it turns out to be a `long` or
  `double`, that value is broken. -/
  topIfWide : Bool := false
  deriving DecidableEq

namespace FrameType

/-- A type without array dimensions. -/
abbrev ofKind (kind : Kind) : FrameType := { kind := kind }

/-- Nothing that can be used. -/
abbrev top : FrameType := ofKind .top
/-- `int`, and the narrow integers outside of arrays. -/
abbrev int : FrameType := ofKind .int
abbrev float : FrameType := ofKind .float
/-- `long`, in the first of its slots. -/
abbrev long : FrameType := ofKind .long
/-- `double`, in the first of its slots. -/
abbrev double : FrameType := ofKind .double
abbrev null : FrameType := ofKind .null
abbrev object (row : Nat) : FrameType := ofKind (.object row)

def arrayOf (t : FrameType) : FrameType := { t with dims := t.dims + 1 }

def element (t : FrameType) : FrameType := { t with dims := t.dims - 1 }

/-- Values of two slots. -/
def isWide (t : FrameType) : Bool := t.dims == 0 && (t.kind == .long || t.kind == .double)

/-- Objects and arrays, but not `null` and not what is yet to be initialised. -/
def isReference (t : FrameType) : Bool :=
  t.dims != 0 ||
    match t.kind with
    | .object _ => true
    | _ => false

/-- Types that refer to the input of the block. -/
def isRelative (t : FrameType) : Bool :=
  match t.kind with
  | .fromLocal _ | .fromStack _ => true
  | _ => false

/-- `null` has no dimensions, and the element of something that is no array cannot be used. -/
def normalized (t : FrameType) : FrameType :=
  if t.kind = .null then null else if t.dims < 0 then top else t

/-- The value of an instruction that pushes the same type whatever its operand is. -/
def ofValue : Value → FrameType
  | .int => int
  | .float => float
  | .long => long
  | .double => double
  | .null => null

def elementKind : BaseType → Kind
  | .boolean => .boolean
  | .byte => .byte
  | .char => .char
  | .short => .short
  | .int => .int
  | .float => .float
  | .long => .long
  | .double => .double

/-- The kind of a primitive in a slot of its own, where all narrow integers are alike. -/
def slotKind : BaseType → Kind
  | .boolean | .byte | .char | .short | .int => .int
  | .float => .float
  | .long => .long
  | .double => .double

def ofFieldType : FieldType → PoolM FrameType
  | .base b => return ofKind (slotKind b)
  | .ref (.object c) => return object (← Pool.addType c.name)
  | .ref (.primitiveArray dims b) => return { dims := dims, kind := elementKind b }
  | .ref (.objectArray dims c) => return { dims := dims, kind := .object (← Pool.addType c.name) }

/-- The type of values of a class, or of an array type given by its descriptor. -/
def ofClassName (name : String) : PoolM FrameType :=
  if name.toList.head? = some '[' then
    match FieldType.ofDescriptor name with
    | .error e => throw e
    | .ok t => ofFieldType t
  else return object (← Pool.addType name)

def ofLoadable : Loadable → PoolM FrameType
  | .int _ => return int
  | .float _ => return float
  | .long _ => return long
  | .double _ => return double
  | .string _ => return object (← Pool.addType "java/lang/String")
  | .cls _ => return object (← Pool.addType "java/lang/Class")
  | .methodType _ => return object (← Pool.addType "java/lang/invoke/MethodType")
  | .methodHandle _ => return object (← Pool.addType "java/lang/invoke/MethodHandle")

end FrameType

abbrev InputSlot := Option FrameType

/-- The types on entry of a block. -/
structure FrameInput where
  locals : Array InputSlot := #[]
  stack : Array InputSlot := #[]
  deriving DecidableEq

/-- The input of a method: receiver and parameters, then unusable locals. -/
def FrameInput.ofMethod (thisClass : String) (isStatic isConstructor : Bool)
    (descriptor : MethodDescriptor) (maxLocals : Nat) : PoolM FrameInput := do
  let receiver ←
    if isStatic then pure []
    else if isConstructor then pure [FrameType.ofKind .uninitializedThis]
    else do
      let row ← Pool.addType thisClass
      pure [FrameType.object row]
  let parameters ← descriptor.parameters.mapM FrameType.ofFieldType
  let slots := receiver ++ parameters.flatMap fun t => if t.isWide then [t, .top] else [t]
  let slots := (slots.map some).toArray
  return { locals := slots ++ Array.replicate (maxLocals - slots.size) (some .top) }

/-- The summary of a block. -/
structure Frame where
  input : Option FrameInput := none
  /-- The locals as the block leaves them; none where it has not looked. -/
  locals : Array (Option FrameType) := #[]
  /-- What the block has pushed and left on the stack. -/
  stack : Array FrameType := #[]
  /-- How many slots of the input stack the block has popped. -/
  popped : Nat := 0
  /-- The largest height in the block, relative to that on entry. -/
  peak : Nat := 0
  /-- The receivers of constructor calls in the block. -/
  initialized : Array FrameType := #[]

namespace Frame

/-! ### Stack -/

def push (f : Frame) (t : FrameType) : Frame :=
  let stack := f.stack.push t
  { f with stack := stack, peak := max f.peak (stack.size - f.popped) }

def pushValue (f : Frame) (t : FrameType) : Frame := if t.isWide then (f.push t).push .top else f.push t

/-- Pop one slot; what the block has not pushed comes from its input. -/
def pop (f : Frame) : FrameType × Frame :=
  match f.stack.back? with
  | some t => (t, { f with stack := f.stack.pop })
  | none => (.ofKind (.fromStack (f.popped + 1)), { f with popped := f.popped + 1 })

def popN (f : Frame) (n : Nat) : Frame :=
  let size := f.stack.size
  { f with stack := f.stack.shrink (size - n), popped := f.popped + (n - size) }

/-- Pop several slots and give their types, the former top first. -/
def popList : Nat → Frame → List FrameType × Frame
  | 0, f => ([], f)
  | n + 1, f =>
    let (t, f) := f.pop
    let (ts, f) := popList n f
    (t :: ts, f)

/-- Pop several slots and push them back in an order given by their numbers, the former top being number
one. -/
def shuffle (f : Frame) (pops : Nat) (order : List Nat) : Frame :=
  let (ts, f) := popList pops f
  order.foldl (fun f i => f.push (ts.getD (i - 1) .top)) f

/-! ### Locals -/

/-- The type of a local. A slot that other locals have made room for is looked up from now on. -/
def load (f : Frame) (i : Nat) : FrameType × Frame :=
  match f.locals[i]? with
  | none => (.ofKind (.fromLocal i), f)
  | some (some t) => (t, f)
  | some none =>
    let t := FrameType.ofKind (.fromLocal i)
    (t, { f with locals := f.locals.setIfInBounds i (some t) })

def store (f : Frame) (i : Nat) (t : FrameType) : Frame :=
  let room := f.locals ++ Array.replicate (i + 1 - f.locals.size) none
  { f with locals := room.setIfInBounds i (some t) }

/-- Storing to a local breaks a `long` or `double` that starts in the local before it. -/
def breakBefore (f : Frame) (i : Nat) : Frame :=
  match i with
  | 0 => f
  | j + 1 =>
    let (before, f) := f.load j
    if before.isWide then f.store j .top
    else if before.isRelative then f.store j { before with topIfWide := true }
    else f

end Frame

end JvmAssembler
