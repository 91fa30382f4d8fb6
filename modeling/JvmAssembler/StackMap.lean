import JvmAssembler.ClassFile

/-!
# JvmAssembler.StackMap

The frames of a `StackMapTable`, each written relative to the one before it.

* A frame says which types the locals and the operand stack hold at an offset. `FrameShape` is how it
  differs from the frame before; it is generic in what stands for a type, because the same five shapes
  are also spoken by callers, who refer to labels and class names.
* `Builder.pushExpanded` takes a frame in full and picks the smallest shape that expresses it.
  `Builder.pushShape` takes a shape as given and only places it.
* Offsets are stored as the distance from the frame before, less one, so that no two frames share one.
-/

namespace JvmAssembler

open Bytes

/-- A type as a stack map writes it. A `long` or `double` stands for both of its slots. -/
inductive VerificationType
  | top
  | int
  | float
  | double
  | long
  | null
  /-- The receiver of a constructor that has yet to call another one. -/
  | uninitializedThis
  /-- An object of the class in a row of the pool. -/
  | object (cls : Nat)
  /-- What the `new` at an offset made, before its constructor ran. -/
  | uninitialized (offset : Nat)
  deriving DecidableEq

def VerificationType.bytes : VerificationType → List UInt8
  | top => u1 0
  | int => u1 1
  | float => u1 2
  | double => u1 3
  | long => u1 4
  | null => u1 5
  | uninitializedThis => u1 6
  | object cls => u1 7 ++ u2 cls
  | uninitialized offset => u1 8 ++ u2 offset

/-- How a frame differs from the one before it. -/
inductive FrameShape (τ : Type)
  /-- The same locals and an empty stack. -/
  | same
  /-- The same locals and one item on the stack. -/
  | sameOne (item : τ)
  /-- The last locals are gone; the stack is empty. -/
  | chop (count : Nat)
  /-- Locals are added; the stack is empty. -/
  | append (locals : List τ)
  | full (locals stack : List τ)
  deriving DecidableEq

/-- Replace what stands for types by steps with effects, the locals before the stack. -/
def FrameShape.mapM {σ τ : Type} {m : Type → Type} [Monad m] (f : σ → m τ) :
    FrameShape σ → m (FrameShape τ)
  | same => return same
  | sameOne item => return sameOne (← f item)
  | chop count => return chop count
  | append locals => return append (← locals.mapM f)
  | full locals stack => return full (← locals.mapM f) (← stack.mapM f)

/-- A frame of a stack map. -/
structure StackMapFrame where
  /-- Distance from the frame before, less one; for the first frame, its offset. -/
  delta : Nat
  shape : FrameShape VerificationType
  deriving DecidableEq

/-- The largest distance that fits in the tag of a short frame. -/
def shortDelta : Nat := 63

/-- The bytes of a frame. Only one to three locals can be chopped or appended. -/
def StackMapFrame.bytes (frame : StackMapFrame) : Except FrameFault (List UInt8) :=
  match frame.shape with
  | .same => .ok (if frame.delta ≤ shortDelta then u1 frame.delta else u1 251 ++ u2 frame.delta)
  | .sameOne item =>
    .ok ((if frame.delta ≤ shortDelta then u1 (64 + frame.delta) else u1 247 ++ u2 frame.delta) ++
      item.bytes)
  | .chop count =>
    if 1 ≤ count ∧ count ≤ 3 then .ok (u1 (251 - count) ++ u2 frame.delta)
    else .error (.chop count)
  | .append locals =>
    if 1 ≤ locals.length ∧ locals.length ≤ 3 then
      .ok (u1 (251 + locals.length) ++ u2 frame.delta ++ locals.flatMap VerificationType.bytes)
    else .error (.append locals.length)
  | .full locals stack =>
    .ok (u1 255 ++ u2 frame.delta ++ table VerificationType.bytes locals ++
      table VerificationType.bytes stack)

namespace StackMap

/-- The smallest shape by which a frame follows one with the locals `previous`. -/
def compress (previous locals stack : List VerificationType) : FrameShape VerificationType :=
  match stack with
  | [] =>
    if locals = previous then .same
    else if locals.isPrefixOf previous ∧ previous.length ≤ locals.length + 3 then
      .chop (previous.length - locals.length)
    else if previous.isPrefixOf locals ∧ locals.length ≤ previous.length + 3 then
      .append (locals.drop previous.length)
    else .full locals []
  | [item] => if locals = previous then .sameOne item else .full locals [item]
  | _ => .full locals stack

/-- The frames of a method so far. -/
structure Builder where
  frames : Array StackMapFrame := #[]
  /-- Where the last frame stands; the frame at the method entry is implicit. -/
  previousOffset : Option Nat := none
  /-- The locals of the last frame that was given in full, at first those at the method entry. -/
  previousLocals : List VerificationType := []

namespace Builder

/-- No frames yet, where a method starts with the given locals. -/
def start (locals : List VerificationType) : Builder := { previousLocals := locals }

/-- The stored distance of a frame at an offset, unless it is not past the last one or too far. -/
def delta? (b : Builder) (offset : Nat) : Option Nat :=
  match b.previousOffset with
  | none => if offset ≤ 65535 then some offset else none
  | some previous =>
    if previous < offset ∧ offset - previous - 1 ≤ 65535 then some (offset - previous - 1) else none

def pushExpanded (b : Builder) (offset : Nat) (locals stack : List VerificationType) :
    Except Error Builder :=
  match b.delta? offset with
  | none => .error (.invalidArgument (.frameOutOfOrder offset))
  | some delta =>
    .ok { frames := b.frames.push ⟨delta, compress b.previousLocals locals stack⟩
          previousOffset := some offset
          previousLocals := locals }

/-- Add a frame by its shape. A `same` frame that is not past the last one says nothing new, and is
dropped. -/
def pushShape (b : Builder) (offset : Nat) (shape : FrameShape VerificationType) :
    Except Error Builder :=
  match b.delta? offset with
  | some delta =>
    .ok { b with frames := b.frames.push ⟨delta, shape⟩, previousOffset := some offset }
  | none =>
    match shape with
    | .same => .ok b
    | _ => .error (.invalidArgument (.frameOutOfOrder offset))

end Builder

def tableBytes (frames : List StackMapFrame) : Except FrameFault (List UInt8) := do
  let bytes ← frames.mapM StackMapFrame.bytes
  return u2 frames.length ++ bytes.flatten

end StackMap

end JvmAssembler
