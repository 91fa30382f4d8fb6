import JvmAssembler.Constant
import JvmAssembler.Descriptor
import JvmAssembler.Opcode

/-!
# JvmAssembler.Error

Everything that can go wrong while a class is assembled, as data; `Error.message` has the wording.

* The caller broke the protocol: an event out of order, a label that was never placed, an operand out
  of range, a malformed descriptor.
* A limit of the class file is exceeded: the pool, the code of a method, its stack or locals.
* The input cannot be handled: subroutines while frames are computed, a class that the hierarchy does
  not know, paths that disagree on the stack height, code that cannot be decoded.
-/

namespace JvmAssembler

/-- A position in the code of a method, by its row in the method's label table. -/
abbrev Label := Nat

def Label.describe (label : Label) : String := s!"L{label}"

/-- What is wrong with an argument. -/
inductive ArgumentFault
  /-- A text takes more bytes than its length field can say. -/
  | textTooLong (bytes : Nat)
  /-- An instruction is interpreted without the operand it needs. -/
  | missingOperand (op : Opcode)
  | arrayCode (code : Nat)
  /-- A stack map frame is not past the one before it, or too far past it. -/
  | frameOutOfOrder (offset : Nat)
  /-- A label that is not in the label table of the method. -/
  | foreignLabel (label : Label)
  | appendCount (count : Nat)
  | chopCount (count : Nat)
  | operandRange (op : Opcode) (operand : Int)
  | tableSwitchBounds (low high : Int) (labels : Nat)
  | lookupSwitchCounts (keys labels : Nat)
  | lookupSwitchOrder
  | noDimensions
  /-- A field can only start out as a number or a text. -/
  | fieldConstant (value : Loadable) (field : String)
  deriving DecidableEq

namespace ArgumentFault

def message : ArgumentFault → String
  | textTooLong bytes => s!"string constant is {bytes} bytes long once encoded"
  | missingOperand op => "`" ++ op.mnemonic ++ "` is missing its operand"
  | arrayCode code => s!"invalid newarray type code {code}"
  | frameOutOfOrder offset => s!"frame at offset {offset} is out of order"
  | foreignLabel label => "label " ++ label.describe ++ " was not made by this method"
  | appendCount count => s!"append frame with {count} locals"
  | chopCount count => s!"chop frame removing {count} locals"
  | operandRange op operand => s!"operand {operand} out of range for `" ++ op.mnemonic ++ "`"
  | tableSwitchBounds low high labels => s!"tableswitch from {low} to {high} with {labels} labels"
  | lookupSwitchCounts keys labels => s!"lookupswitch with {keys} keys but {labels} labels"
  | lookupSwitchOrder => "lookupswitch keys must be strictly increasing"
  | noDimensions => "multianewarray needs at least one dimension"
  | fieldConstant value field =>
    value.describe ++ " cannot be the constant value of field `" ++ field ++ "`"

end ArgumentFault

/-- What is wrong with a code array. -/
inductive CodeFault
  /-- An instruction needs more bytes than there are. -/
  | pastEnd
  /-- A byte that starts no instruction, met while jumps are widened. -/
  | notAnInstruction
  /-- A byte that starts no instruction, met while code is decoded. -/
  | unknownOpcode (op : Opcode)
  | jumpBeforeStart
  | highBelowLow
  | negativeCount
  | targetOutOfBounds (target : Int)
  | noConstant (index : Nat)
  | notAClass (found : Entry)
  | notLoadable (found : Entry)
  /-- An instruction refers to a row of the wrong kind. -/
  | badMember (op : Opcode) (found : Entry)
  | noBootstrapMethod (index : Nat)
  | boundsReversed
  | negativePairCount
  | cannotBeWide (op : Opcode)
  /-- A marked jump is left in finished code. -/
  | neverWidened
  | labelPastEnd
  | labelInsideInstruction
  | blockWithoutFrame
  | stillOversized
  deriving DecidableEq

namespace CodeFault

def message : CodeFault → String
  | pastEnd => "instruction runs past the end of the code"
  | notAnInstruction => "invalid opcode"
  | unknownOpcode op => s!"invalid opcode {op.toNat}"
  | jumpBeforeStart => "jump before the start of the code"
  | highBelowLow => "tableswitch with high below low"
  | negativeCount => "lookupswitch with a negative count"
  | targetOutOfBounds target => s!"jump target {target} is out of bounds"
  | noConstant index => s!"no constant at index {index}"
  | notAClass found => "expected a class, found " ++ found.describe
  | notLoadable found => "expected a loadable constant, found " ++ found.describe
  | badMember op found => "`" ++ op.mnemonic ++ "` cannot refer to " ++ found.describe
  | noBootstrapMethod index => s!"no bootstrap method at index {index}"
  | boundsReversed => "tableswitch bounds are reversed"
  | negativePairCount => "lookupswitch has a negative pair count"
  | cannotBeWide op => "`wide` cannot prefix `" ++ op.mnemonic ++ "`"
  | neverWidened => "jump offset overflow was never widened"
  | labelPastEnd => "label is past the end of the code"
  | labelInsideInstruction => "label falls inside an instruction"
  | blockWithoutFrame => "basic block without a frame"
  | stillOversized => "jumps still overflow after frames were re-derived"

end CodeFault

/-- A compressed stack map frame that has no encoding. -/
inductive FrameFault
  | chop (count : Nat)
  | append (count : Nat)
  deriving DecidableEq

def FrameFault.message : FrameFault → String
  | chop count => s!"chop frame cannot remove {count} locals"
  | append count => s!"append frame cannot add {count} locals"

/-- When an event arrives, as far as the protocol is concerned. -/
inductive Moment
  | beforeVisit | afterVisit | beforeCode | whileWriting | afterMaxs | afterEnd
  deriving DecidableEq

def Moment.describe : Moment → String
  | beforeVisit => "before `visit`"
  | afterVisit => "after `visit`"
  | beforeCode => "before `visit_code`"
  | whileWriting => "while code is being written"
  | afterMaxs => "after `visit_maxs`"
  | afterEnd => "after `visit_end`"

/-- The two areas of a method's stack frame. -/
inductive SlotArea
  | stack | locals
  deriving DecidableEq

def SlotArea.describe : SlotArea → String
  | stack => "stack"
  | locals => "local variable"

/-- Why a class cannot be assembled. -/
inductive Error
  /-- No room in the pool for a row that would start at an index. -/
  | constantPoolOverflow (row : String) (index : Nat)
  | methodCodeOverflow (method : String) (length : Nat)
  | methodSlotsOverflow (method : String) (area : SlotArea) (count : Nat)
  /-- An event came at a moment that does not accept it. -/
  | invalidState (event : String) (moment : Moment)
  /-- A label is needed before it is placed. -/
  | unresolvedLabel (label : Label)
  | labelPlacedTwice (label : Label)
  /-- An opcode is used with an event of another operand layout. -/
  | invalidOpcode (op : Opcode) (event : String)
  | invalidArgument (fault : ArgumentFault)
  | badDescriptor (text : String) (fault : Descriptor.Fault)
  /-- The hierarchy does not know a class. -/
  | missingClass (name : String)
  /-- Subroutines cannot be interpreted over types. -/
  | unsupportedSubroutine (op : Opcode) (offset : Nat)
  | stackHeightMismatch (offset expected found : Nat)
  | malformedCode (offset : Nat) (fault : CodeFault)
  | unwritableFrame (fault : FrameFault)
  /-- Frames keep changing past every bound that a hierarchy without cycles allows. -/
  | divergence
  deriving DecidableEq

namespace Error

/-- A byte as `0x` and two hexadecimal digits. -/
def hexByte (b : UInt8) : String :=
  let digits := Nat.toDigits 16 b.toNat
  "0x" ++ String.ofList (List.replicate (2 - digits.length) '0' ++ digits)

def message : Error → String
  | constantPoolOverflow row index =>
    "constant pool overflow: no room for " ++ row ++ s!" at index {index}"
  | methodCodeOverflow method length =>
    "code of method `" ++ method ++ s!"` is {length} bytes long (at most 65535 are allowed)"
  | methodSlotsOverflow method area count =>
    "method `" ++ method ++ s!"` needs {count} " ++ area.describe ++
      " slots (at most 65535 are allowed)"
  | invalidState event moment => "`" ++ event ++ "` is not allowed " ++ moment.describe
  | unresolvedLabel label => "label " ++ label.describe ++ " is used before being placed"
  | labelPlacedTwice label => "label " ++ label.describe ++ " cannot be placed here"
  | invalidOpcode op event => "opcode " ++ hexByte op ++ " cannot be used with `" ++ event ++ "`"
  | invalidArgument fault => "invalid argument: " ++ fault.message
  | badDescriptor text fault => "invalid descriptor `" ++ text ++ "`: " ++ fault.message
  | missingClass name => "class `" ++ name ++ "` is missing from the class hierarchy"
  | unsupportedSubroutine op offset =>
    "`" ++ op.mnemonic ++ s!"` (offset {offset}) is not supported when computing frames"
  | stackHeightMismatch offset expected found =>
    s!"stack height at offset {offset} is {expected} along one path but {found} along another"
  | malformedCode offset fault => s!"malformed code at offset {offset}: " ++ fault.message
  | unwritableFrame fault => "I/O error: " ++ fault.message
  | divergence => "frames do not converge"

end Error

def FieldType.ofDescriptor (text : String) : Except Error FieldType :=
  (FieldType.parse text).mapError (.badDescriptor text)

def MethodDescriptor.ofDescriptor (text : String) : Except Error MethodDescriptor :=
  (MethodDescriptor.parse text).mapError (.badDescriptor text)

end JvmAssembler
