import JvmAssembler.Instruction
import Std.Data.TreeMap.Basic

/-!
# JvmAssembler.Replay

From decoded code back to the events that describe it.

Positions that something refers to become labels, numbered in the order of first mention: jumps and
switches first, then handlers, line numbers and local variables. Handlers are sent before the
instructions they protect. The events go up to below `maxs`; if the tables do not fit the code, they end
with an error.
-/

namespace JvmAssembler

namespace Replay

/-- A method in terms of positions. -/
structure Method where
  instructions : List (Nat × Instruction Nat)
  codeLength : Nat
  handlers : List (Handler Nat) := []
  /-- Positions and their lines. -/
  lines : List (Nat × UInt16) := []
  locals : List (LocalScope Nat) := []

/-- All positions that something refers to, in order of mention. -/
def Method.places (m : Method) : List Nat :=
  m.instructions.flatMap (·.2.places) ++ m.handlers.flatMap (fun h => [h.start, h.stop, h.handler]) ++
    m.lines.map (·.1) ++ m.locals.flatMap (fun s => [s.start, s.stop])

/-- The labels of positions, in order of position. -/
abbrev Labels := Std.TreeMap Nat Label

/-- Give a label to every position that has none. -/
def assign (codeLength : Nat) : List Nat → Labels → Except Error Labels
  | [], labels => .ok labels
  | place :: places, labels =>
    if codeLength < place then .error (.malformedCode place .labelPastEnd)
    else assign codeLength places (labels.insertIfNew place labels.size)

def Labels.of (labels : Labels) (place : Nat) : Label := labels.getD place 0

/-- Events sent so far. -/
abbrev Events := Array (MethodEvent Label)

/-- Place the labels before an instruction, all of which must be at its start. Returns the labels that are
still to be placed. -/
def placeBefore (position : Nat) :
    List (Nat × Label) → Events → Except (Events × Error) (List (Nat × Label) × Events)
  | [], events => .ok ([], events)
  | (place, label) :: rest, events =>
    if position < place then .ok ((place, label) :: rest, events)
    else if place < position then .error (events, .malformedCode place .labelInsideInstruction)
    else placeBefore position rest (events.push (.label label))

def sendCode (labels : Labels) : List (Nat × Instruction Nat) → List (Nat × Label) → Events →
    Except (Events × Error) (List (Nat × Label) × Events)
  | [], pending, events => .ok (pending, events)
  | (position, instruction) :: rest, pending, events => do
    let (pending, events) ← placeBefore position pending events
    sendCode labels rest pending (events.push (.instruction (instruction.map labels.of)))

/-- Place the labels behind the last instruction. -/
def placeAtEnd (codeLength : Nat) : List (Nat × Label) → Events → Except (Events × Error) Events
  | [], events => .ok events
  | (place, label) :: rest, events =>
    if place ≠ codeLength then .error (events, .malformedCode place .labelInsideInstruction)
    else placeAtEnd codeLength rest (events.push (.label label))

def handlerEvent (labels : Labels) (h : Handler Nat) : MethodEvent Label :=
  .tryCatch ⟨labels.of h.start, labels.of h.stop, labels.of h.handler, h.catchType⟩

def lineEvent (labels : Labels) (line : Nat × UInt16) : MethodEvent Label :=
  .lineNumber line.2 (labels.of line.1)

def localEvent (labels : Labels) (s : LocalScope Nat) : MethodEvent Label :=
  .localVariable { s with start := labels.of s.start, stop := labels.of s.stop }

def send (m : Method) (labels : Labels) : Except (Events × Error) Events := do
  let events := (MethodEvent.code :: m.handlers.map (handlerEvent labels)).toArray
  let (pending, events) ← sendCode labels m.instructions labels.toList events
  let events ← placeAtEnd m.codeLength pending events
  return events ++ m.lines.map (lineEvent labels) ++ m.locals.map (localEvent labels)

/-- A replayed method: how many labels it uses, its events, and the error that ended them. -/
structure Result where
  labels : Nat
  events : List (MethodEvent Label)
  error : Option Error

/-- The events that describe a method. -/
def run (m : Method) : Result :=
  match assign m.codeLength m.places .empty with
  | .error e => ⟨0, [], some e⟩
  | .ok labels =>
    match send m labels with
    | .ok events => ⟨labels.size, events.toList, none⟩
    | .error (events, e) => ⟨labels.size, events.toList, some e⟩

end Replay

end JvmAssembler
