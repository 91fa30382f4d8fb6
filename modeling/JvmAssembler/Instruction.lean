import JvmAssembler.Handler
import JvmAssembler.StackMap

/-!
# JvmAssembler.Instruction

Instructions and the other events that describe the body of a method.

Everything here is generic in `L`, which stands for a place in the code: a name in a listing, a row of the
label table while a method is written, a position once it is decoded.
-/

namespace JvmAssembler

/-- An instruction with its operands. -/
inductive Instruction (L : Type)
  /-- No operands. -/
  | plain (op : Opcode)
  /-- A number that is part of the instruction. -/
  | int (op : Opcode) (operand : Int32)
  /-- A local variable. -/
  | var (op : Opcode) (index : UInt16)
  | iinc (index : UInt16) (increment : Int16)
  /-- A class. -/
  | type (op : Opcode) (name : String)
  | field (op : Opcode) (member : MemberRef)
  | method (op : Opcode) (member : MemberRef) (isInterface : Bool)
  | invokeDynamic (name descriptor : String) (bootstrap : Handle) (arguments : List Loadable)
  | jump (op : Opcode) (target : L)
  | ldc (constant : Loadable)
  /-- Jump by a number from `low` to `high`. -/
  | tableSwitch (low high : Int32) (fallback : L) (targets : List L)
  /-- Jump by a number among `keys`. -/
  | lookupSwitch (fallback : L) (keys : List Int32) (targets : List L)
  | multiNewArray (descriptor : String) (dimensions : UInt8)
  deriving DecidableEq

namespace Instruction

/-- Rename the places of an instruction. -/
def map {L M : Type} (f : L → M) : Instruction L → Instruction M
  | plain op => plain op
  | int op operand => int op operand
  | var op index => var op index
  | iinc index increment => iinc index increment
  | type op name => type op name
  | field op member => field op member
  | method op member isInterface => method op member isInterface
  | invokeDynamic name descriptor bootstrap arguments =>
    invokeDynamic name descriptor bootstrap arguments
  | jump op target => jump op (f target)
  | ldc constant => ldc constant
  | tableSwitch low high fallback targets => tableSwitch low high (f fallback) (targets.map f)
  | lookupSwitch fallback keys targets => lookupSwitch (f fallback) keys (targets.map f)
  | multiNewArray descriptor dimensions => multiNewArray descriptor dimensions

/-- Rename the places of an instruction by steps with effects; the fallback of a switch comes first. -/
def mapM {L M : Type} {m : Type → Type} [Monad m] (f : L → m M) : Instruction L → m (Instruction M)
  | plain op => return plain op
  | int op operand => return int op operand
  | var op index => return var op index
  | iinc index increment => return iinc index increment
  | type op name => return type op name
  | field op member => return field op member
  | method op member isInterface => return method op member isInterface
  | invokeDynamic name descriptor bootstrap arguments =>
    return invokeDynamic name descriptor bootstrap arguments
  | jump op target => return jump op (← f target)
  | ldc constant => return ldc constant
  | tableSwitch low high fallback targets =>
    return tableSwitch low high (← f fallback) (← targets.mapM f)
  | lookupSwitch fallback keys targets => return lookupSwitch (← f fallback) keys (← targets.mapM f)
  | multiNewArray descriptor dimensions => return multiNewArray descriptor dimensions

def places {L : Type} : Instruction L → List L
  | jump _ target => [target]
  | tableSwitch _ _ fallback targets => fallback :: targets
  | lookupSwitch fallback _ targets => fallback :: targets
  | _ => []

end Instruction

/-- A type in a frame that a caller supplies. -/
inductive FrameItem (L : Type)
  | top
  | int
  | float
  | long
  | double
  | null
  | uninitializedThis
  | object (name : String)
  /-- What the `new` at a place made. -/
  | uninitialized (place : L)
  deriving DecidableEq

/-- Rename the place of an item by a step with effects. -/
def FrameItem.mapM {L M : Type} {m : Type → Type} [Monad m] (f : L → m M) :
    FrameItem L → m (FrameItem M)
  | top => return top
  | int => return int
  | float => return float
  | long => return long
  | double => return double
  | null => return null
  | uninitializedThis => return uninitializedThis
  | object name => return object name
  | uninitialized place => return uninitialized (← f place)

/-- A frame that a caller supplies. -/
abbrev ExplicitFrame (L : Type) := FrameShape (FrameItem L)

/-- The scope of a local variable. -/
structure LocalScope (L : Type) where
  name : String
  descriptor : String
  /-- A generic signature. -/
  signature : Option String
  start : L
  stop : L
  index : UInt16
  deriving DecidableEq

/-- Rename the places of a scope by steps with effects. -/
def LocalScope.mapM {L M : Type} {m : Type → Type} [Monad m] (f : L → m M) (s : LocalScope L) :
    m (LocalScope M) := do
  let start ← f s.start
  let stop ← f s.stop
  return { name := s.name, descriptor := s.descriptor, signature := s.signature, start, stop, index := s.index }

/-- The events by which a method is described, in the order of their arrival: `code` and the events of the
body up to `maxs` if there is a body, then `finish`. -/
inductive MethodEvent (L : Type)
  | code
  | frame (frame : ExplicitFrame L)
  | instruction (instruction : Instruction L)
  /-- Place a label here. -/
  | label (label : L)
  | tryCatch (handler : Handler L)
  | localVariable (scope : LocalScope L)
  | lineNumber (line : UInt16) (start : L)
  /-- The end of the body; the sizes count only where nothing is computed. -/
  | maxs (stack locals : UInt16)
  | finish
  deriving DecidableEq

end JvmAssembler
