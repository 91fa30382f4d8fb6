import JvmAssembler.Frame.Basic

/-!
# JvmAssembler.Frame.Verification

Inputs in the form that a stack map writes: a `long` or `double` stands for both of its slots, and unusable locals
at the end are left out.
-/

namespace JvmAssembler

namespace FrameType

/-- The descriptor of an array, if its elements can be those of one. -/
def arrayDescriptor? (pool : Pool) (t : FrameType) : Option String :=
  let element : Option String :=
    match t.kind with
    | .boolean => some "Z"
    | .byte => some "B"
    | .char => some "C"
    | .short => some "S"
    | .int => some "I"
    | .float => some "F"
    | .long => some "J"
    | .double => some "D"
    | .object row => some ("L" ++ pool.typeName row ++ ";")
    | _ => none
  element.map (RefType.brackets t.dims.toNat ++ ·)

/-- The type as a stack map writes it; classes are added to the pool. -/
def verificationType (t : FrameType) : PoolM VerificationType := do
  let pool ← get
  if 0 < t.dims then
    match t.arrayDescriptor? pool with
    | some descriptor => return .object (← Pool.cls descriptor)
    | none => return .top
  else
    match t.kind with
    | .top | .fromLocal _ | .fromStack _ => return .top
    | .boolean | .byte | .char | .short | .int => return .int
    | .float => return .float
    | .long => return .long
    | .double => return .double
    | .null => return .null
    | .uninitializedThis => return .uninitializedThis
    | .object row => return .object (← Pool.cls (pool.typeName row))
    | .uninitialized row =>
      match pool.type? row with
      | some (.uninitialized _ offset) => return .uninitialized (offset % 65536)
      | _ => return .top

end FrameType

namespace FrameInput

/-- The types of some slots, without the second slots of wide values. -/
def compact (slots : Array InputSlot) : List FrameType :=
  let step := fun (state : Array FrameType × Bool) (slot : InputSlot) =>
    if state.2 then (state.1, false)
    else
      let t := slot.getD .top
      (state.1.push t, t.isWide)
  (slots.toList.foldl step (#[], false)).1.toList

/-- Leave out unusable types at the end. -/
def trimmed (types : List FrameType) : List FrameType :=
  (types.reverse.dropWhile (· = .top)).reverse

/-- The locals and the stack as a stack map writes them. -/
def verificationTypes (input : FrameInput) : PoolM (List VerificationType × List VerificationType) := do
  let locals ← (trimmed (compact input.locals)).mapM FrameType.verificationType
  let stack ← (compact input.stack).mapM FrameType.verificationType
  return (locals, stack)

end FrameInput

end JvmAssembler
