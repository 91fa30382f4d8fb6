import JvmAssembler.Frame.Execute

/-!
# JvmAssembler.Proofs.Frame.Direct

Instructions interpreted one at a time, on the types themselves.

A `Machine` holds the types of all locals and of the whole stack. Classes are names here, and nothing is relative to the
input of a block. `step` says what one instruction does to such a machine, and fails if the stack or the locals do not
suffice: a store breaks a `long` or `double` that starts in the slot before, and the call of a constructor turns every copy
of its receiver into an object at once.
-/

namespace JvmAssembler

/-- What a slot holds under its array dimensions, apart from any table. -/
inductive SlotKind
  | top
  | boolean
  | byte
  | char
  | short
  | int
  | float
  | long
  | double
  | null
  | uninitializedThis
  | object (name : String)
  /-- What the `new` at an offset made, before its constructor ran. -/
  | uninitialized (name : String) (offset : Nat)
  deriving DecidableEq

/-- The type of a slot, apart from any table. -/
structure SlotType where
  dims : Nat := 0
  kind : SlotKind
  deriving DecidableEq

namespace SlotType

/-- Nothing that can be used. -/
abbrev top : SlotType := { kind := .top }

/-- `int`, and the narrow integers outside of arrays. -/
abbrev int : SlotType := { kind := .int }

abbrev object (name : String) : SlotType := { kind := .object name }

/-- Values of two slots. -/
def isWide (t : SlotType) : Bool := t.dims == 0 && (t.kind == .long || t.kind == .double)

/-- The elements of such an array. Those of `null` are `null`, and what is no array has no elements. -/
def element (t : SlotType) : SlotType :=
  match t.dims with
  | 0 => if t.kind = .null then t else top
  | dims + 1 => { t with dims := dims }

/-- The value of an instruction that pushes the same type whatever its operand is. -/
def ofValue : Value → SlotType
  | .int => int
  | .float => { kind := .float }
  | .long => { kind := .long }
  | .double => { kind := .double }
  | .null => { kind := .null }

def elementKind : BaseType → SlotKind
  | .boolean => .boolean
  | .byte => .byte
  | .char => .char
  | .short => .short
  | .int => .int
  | .float => .float
  | .long => .long
  | .double => .double

/-- The kind of a primitive in a slot of its own, where all narrow integers are alike. -/
def slotKind : BaseType → SlotKind
  | .boolean | .byte | .char | .short | .int => .int
  | .float => .float
  | .long => .long
  | .double => .double

def ofFieldType : FieldType → SlotType
  | .base b => { kind := slotKind b }
  | .ref (.object c) => object c.name
  | .ref (.primitiveArray dims b) => { dims := dims, kind := elementKind b }
  | .ref (.objectArray dims c) => { dims := dims, kind := .object c.name }

/-- The type of values of a class, or of an array type given by its descriptor. -/
def ofClassName? (name : String) : Option SlotType :=
  if name.toList.head? = some '[' then
    match FieldType.ofDescriptor name with
    | .ok t => some (ofFieldType t)
    | .error _ => none
  else some (object name)

def ofLoadable : Loadable → SlotType
  | .int _ => int
  | .float _ => { kind := .float }
  | .long _ => { kind := .long }
  | .double _ => { kind := .double }
  | .string _ => object "java/lang/String"
  | .cls _ => object "java/lang/Class"
  | .methodType _ => object "java/lang/invoke/MethodType"
  | .methodHandle _ => object "java/lang/invoke/MethodHandle"

/-- What becomes of a type when its constructor has run. -/
def initialized (thisClass : String) (t : SlotType) : SlotType :=
  match t.dims, t.kind with
  | 0, .uninitializedThis => object thisClass
  | 0, .uninitialized name _ => object name
  | _, _ => t

def constructed (thisClass : String) (receivers : List SlotType) (t : SlotType) : SlotType :=
  if t ∈ receivers then t.initialized thisClass else t

end SlotType

/-- An instruction as it is interpreted. What the number is depends on the instruction, as in `Interpreter.execute`. -/
structure BlockInstruction where
  op : Opcode
  arg : Nat := 0
  operand : Operand := .none
  deriving DecidableEq

/-- The types of all locals and of the stack, its top first. -/
structure Machine where
  locals : List SlotType
  stack : List SlotType
  deriving DecidableEq

namespace Machine

def push (m : Machine) (t : SlotType) : Machine := { m with stack := t :: m.stack }

def pushValue (m : Machine) (t : SlotType) : Machine := if t.isWide then (m.push t).push .top else m.push t

/-- Pop several slots. -/
def popN (m : Machine) (n : Nat) : Option Machine :=
  if n ≤ m.stack.length then some { m with stack := m.stack.drop n } else none

def pop (m : Machine) : Option (SlotType × Machine) :=
  match m.stack with
  | [] => none
  | t :: rest => some (t, { m with stack := rest })

/-- Pop several slots and give their types, the former top first. -/
def popList (m : Machine) (n : Nat) : Option (List SlotType × Machine) :=
  if n ≤ m.stack.length then some (m.stack.take n, { m with stack := m.stack.drop n }) else none

/-- Set the type of a local. -/
def store (m : Machine) (i : Nat) (t : SlotType) : Option Machine :=
  if i < m.locals.length then some { m with locals := m.locals.set i t } else none

/-- Storing to a local breaks a `long` or `double` that starts in the local before it. -/
def breakBefore (m : Machine) (i : Nat) : Machine :=
  match i with
  | 0 => m
  | j + 1 => if m.locals[j]?.any SlotType.isWide then { m with locals := m.locals.set j .top } else m

/-- A constructor is called on a receiver: every copy of it is an object now. -/
def construct (m : Machine) (thisClass : String) (receiver : SlotType) : Machine where
  locals := m.locals.map (SlotType.constructed thisClass [receiver])
  stack := m.stack.map (SlotType.constructed thisClass [receiver])

/-- Store a value of one slot or of two. -/
def assign (m : Machine) (i : Nat) (t : SlotType) (wide : Bool) : Option Machine := do
  let m ← m.store i t
  let m ← if wide then m.store (i + 1) .top else some m
  return m.breakBefore i

def pushReturned (m : Machine) : Option FieldType → Machine
  | none => m
  | some t => m.pushValue (.ofFieldType t)

def accessField (m : Machine) (onObject writes : Bool) (type : FieldType) : Option Machine := do
  let receiver := if onObject then 1 else 0
  if writes then m.popN (type.width + receiver)
  else
    let m ← m.popN receiver
    return m.pushValue (.ofFieldType type)

/-- A call. A constructor, whose name starts with an angle bracket, initialises its receiver. -/
def call (m : Machine) (thisClass : String) (op : Opcode) (receiver : Bool) (name : String) (desc : MethodDescriptor) :
    Option Machine := do
  let m ← m.popN (desc.parameterLength false)
  if receiver then
    let (t, m) ← m.pop
    let m := if op == Opcode.invokespecial && name.toList.head? == some '<' then m.construct thisClass t else m
    return m.pushReturned desc.returnType
  else return m.pushReturned desc.returnType

def step (thisClass : String) (i : BlockInstruction) (m : Machine) : Option Machine :=
  match i.op.effect, i.operand with
  | .stack pops pushes, _ => do
    let m ← m.popN pops
    return pushes.foldl (fun m v => m.pushValue (.ofValue v)) m
  | .shuffle pops order, _ => do
    let (ts, m) ← m.popList pops
    return order.foldl (fun m k => m.push (ts.getD (k - 1) .top)) m
  | .constant _, .constant value => some (m.pushValue (.ofLoadable value))
  | .loadReference, _ => do
    let t ← m.locals[i.arg]?
    return m.push t
  | .element, _ => do
    let m ← m.popN 1
    let (t, m) ← m.pop
    return m.push t.element
  | .store wide, _ => do
    let m ← if wide then m.popN 1 else some m
    let (t, m) ← m.pop
    m.assign i.arg t wide
  | .increment, _ => m.store i.arg .int
  | .field onObject writes, .field desc =>
    match FieldType.ofDescriptor desc with
    | .ok type => m.accessField onObject writes type
    | .error _ => none
  | .invoke receiver, .method name desc =>
    match MethodDescriptor.ofDescriptor desc with
    | .ok desc => m.call thisClass i.op receiver name desc
    | .error _ => none
  | .invokeDynamic, .invokeDynamic desc =>
    match MethodDescriptor.ofDescriptor desc with
    | .ok desc => m.call thisClass i.op false "" desc
    | .error _ => none
  | .newObject, .cls name => some (m.push { kind := .uninitialized name i.arg })
  | .newArray, _ => do
    let m ← m.popN 1
    let b ← BaseType.ofArrayCode? (i.arg % 256)
    return m.push { dims := 1, kind := SlotType.elementKind b }
  | .newReferenceArray, .cls name => do
    let m ← m.popN 1
    let t ← SlotType.ofClassName? name
    return m.push { t with dims := t.dims + 1 }
  | .cast, .cls name => do
    let m ← m.popN 1
    let t ← SlotType.ofClassName? name
    return m.push t
  | .newMultiArray, .cls name => do
    let m ← m.popN i.arg
    let t ← SlotType.ofClassName? name
    return m.push t
  | _, _ => none

/-- Interpret several instructions, one after the other. -/
def run (thisClass : String) : List BlockInstruction → Machine → Option Machine
  | [], m => some m
  | i :: rest, m => m.step thisClass i >>= run thisClass rest

/-- The heights of the stack before each instruction and behind the last one. -/
def heights (thisClass : String) : List BlockInstruction → Machine → List Nat
  | [], m => [m.stack.length]
  | i :: rest, m => m.stack.length :: ((m.step thisClass i).map (heights thisClass rest)).getD []

/-- Wherever the element of an array is loaded, it takes one slot. -/
def loadsNarrow (thisClass : String) : List BlockInstruction → Machine → Bool
  | [], _ => true
  | i :: rest, m =>
    (i.op.effect != .element || !m.stack[1]?.any fun t => t.element.isWide) &&
      (m.step thisClass i).all (loadsNarrow thisClass rest)

end Machine

end JvmAssembler
