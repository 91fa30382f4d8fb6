import JvmAssembler.Error

/-!
# JvmAssembler.Widening

Making room for jumps whose offset does not fit in 16 bits.

While a method is written, a jump reserves 16 bits for its offset. If the offset turns out too large, the
opcode is replaced by a *marker* and the whole code is laid out anew at the end of the method.

* `scan` divides the code into pieces: the jumps, the switches and everything else.
* `plan` decides which pieces grow. An unconditional jump grows by two bytes into its wide form; a
  conditional one has no wide form and grows by five, to jump on the opposite condition over a wide
  jump. Growing one may push another out of range, so the code is swept again until nothing grows. The
  padding of a switch hangs on its final position: up to then it is taken at its largest, and a last
  sweep corrects it.
* `write` copies the code with every offset mapped to the new layout.

A layout is kept as `shifts`: for every old position, the bytes inserted at or before it.
-/

namespace JvmAssembler

namespace Widening

open Bytes

/-! ### Pieces -/

/-- A word behind the padding of a switch. -/
inductive SwitchWord
  /-- A bound, a count or a key, which is copied. -/
  | number (value : Int)
  /-- The offset of a target, which is mapped. -/
  | offset (value : Int)
  deriving DecidableEq

/-- How a piece of code takes part in the layout. -/
inductive Form
  /-- Copied as it is. -/
  | fixed
  /-- A jump with a 16-bit offset; markers are already undone. -/
  | jump (op : Opcode) (target : Nat)
  | wideJump (op : Opcode) (offset : Int)
  | switch (op : Opcode) (words : List SwitchWord)
  deriving DecidableEq

/-- An instruction in its old place. -/
structure Piece where
  position : Nat
  /-- The position behind it. -/
  stop : Nat
  form : Form
  /-- Whether the plan has already let it grow. -/
  grown : Bool := false
  deriving DecidableEq

/-- Why code cannot be scanned. -/
def malformed {α : Type} (position : Nat) (fault : CodeFault) : Except Error α :=
  .error (.malformedCode position fault)

def need (code : Bytes) (position length : Nat) : Except Error Unit :=
  if position + length ≤ code.size then .ok () else malformed position .pastEnd

/-- Where the operands of a switch start, behind the padding. -/
def switchOperands (position : Nat) : Nat := position + 4 - position % 4

/-- The length of an instruction that is neither a jump nor a switch, by its operand layout. -/
def fixedLength (code : Bytes) (position : Nat) : Shape → Except Error Nat
  | .plain | .implicitVar => .ok 1
  | .var | .byte | .ldc => .ok 2
  | .short | .ldcWide | .fieldOrMethod | .type | .iinc => .ok 3
  | .multiNewArray => .ok 4
  | .interfaceMethod | .invokeDynamic => .ok 5
  | .wide => do
    need code position 2
    return if code.byteAt (position + 1) == Opcode.iinc then 6 else 4
  | _ => malformed position .notAnInstruction

def offsetsAt (code : Bytes) (start count : Nat) : List SwitchWord :=
  (List.range count).map fun i => .offset (code.i32At (start + 4 * i))

def pairsAt (code : Bytes) (start count : Nat) : List SwitchWord :=
  (List.range count).flatMap fun i =>
    [.number (code.i32At (start + 8 * i)), .offset (code.i32At (start + 8 * i + 4))]

def switchWords (code : Bytes) (position : Nat) (op : Opcode) : Except Error (List SwitchWord) := do
  let operands := switchOperands position
  need code operands 12
  if op == Opcode.tableSwitch then
    let low := code.i32At (operands + 4)
    let high := code.i32At (operands + 8)
    if high < low then malformed position .highBelowLow
    let count := (high - low + 1).toNat
    need code operands (4 * (3 + count))
    return [.offset (code.i32At operands), .number low, .number high] ++
      offsetsAt code (operands + 12) count
  else
    let pairs := code.i32At (operands + 4)
    if pairs < 0 then malformed position .negativeCount
    need code operands (4 * (2 + 2 * pairs.toNat))
    return [.offset (code.i32At operands), .number pairs] ++ pairsAt code (operands + 8) pairs.toNat

def pieceAt (code : Bytes) (position : Nat) : Except Error Piece :=
  let op : Opcode := code.byteAt position
  match op.shape with
  | .jump => do
    need code position 3
    let target := position + code.i16At (position + 1)
    if target < 0 then malformed position .jumpBeforeStart
    return ⟨position, position + 3, .jump op target.toNat, false⟩
  | .oversizedJump => do
    need code position 3
    return ⟨position, position + 3, .jump op.unmark (position + code.u16At (position + 1)), false⟩
  | .wideJump => do
    need code position 5
    return ⟨position, position + 5, .wideJump op (code.i32At (position + 1)), false⟩
  | .tableSwitch | .lookupSwitch => do
    let words ← switchWords code position op
    return ⟨position, switchOperands position + 4 * words.length, .switch op words, false⟩
  | shape => do
    let length ← fixedLength code position shape
    need code position length
    return ⟨position, position + length, .fixed, false⟩

/-- The pieces from a position on. Every piece takes at least a byte, so the size of the code is fuel
enough. -/
def scanFrom (code : Bytes) : Nat → Nat → Array Piece → Except Error (Array Piece)
  | 0, _, pieces => .ok pieces
  | fuel + 1, position, pieces =>
    if position < code.size then do
      let piece ← pieceAt code position
      scanFrom code fuel piece.stop (pieces.push piece)
    else .ok pieces

def scan (code : Bytes) : Except Error (List Piece) := do
  let pieces ← scanFrom code code.size 0 #[]
  return pieces.toList

/-! ### Layouts -/

/-- For every old position the bytes inserted at or before it. -/
structure Layout where
  shifts : Array Int

namespace Layout

/-- The layout of code of a length before anything is inserted. -/
def initial (length : Nat) : Layout := ⟨Array.replicate (length + 1) 0⟩

/-- The bytes inserted at or before a position; behind the end it is the same as at the end. -/
def shift (layout : Layout) (position : Nat) : Int :=
  layout.shifts.getD (min position (layout.shifts.size - 1)) 0

/-- The distance between two old positions in the new code. -/
def newOffset (layout : Layout) (start stop : Nat) : Int :=
  (stop + layout.shift stop) - (start + layout.shift start)

/-- Where an old position is in the new code. -/
def newPosition (layout : Layout) (position : Nat) : Nat := (position + layout.shift position).toNat

end Layout

/-! ### Planning -/

/-- The offsets that fit in 16 bits. -/
def fitsShort (offset : Int) : Bool := -32768 ≤ offset && offset ≤ 32767

/-- By how much a jump grows. -/
def growth (op : Opcode) : Int := if op == Opcode.goto || op == Opcode.jsr then 2 else 5

/-- A sweep over the code in progress. -/
structure Sweep where
  /-- The new shifts of the positions swept so far. -/
  shifts : Array Int
  /-- The bytes inserted in this sweep so far. -/
  inserted : Int := 0
  /-- Whether something has grown in this sweep. -/
  grew : Bool := false
  pieces : Array Piece

/-- Carry the shifts of the next positions over, moved by what this sweep has inserted. -/
def carry (old : Layout) (inserted : Int) : Nat → Array Int → Array Int
  | 0, shifts => shifts
  | n + 1, shifts => carry old inserted n (shifts.push (old.shifts.getD shifts.size 0 + inserted))

/-- Carry the shifts over up to below a position. -/
def Sweep.carryTo (s : Sweep) (old : Layout) (position : Nat) : Sweep :=
  { s with shifts := carry old s.inserted (position - s.shifts.size) s.shifts }

/-- The offset of a jump in the middle of a sweep. What lies ahead of it has moved with it; what lies
behind has its new place. -/
def Sweep.newOffset (s : Sweep) (old : Layout) (position target : Nat) : Int :=
  if target < position then
    (target + s.shifts.getD target 0) - (position + old.shift position + s.inserted)
  else old.newOffset position target

/-- Let a piece grow, or shrink, by some bytes, which are inserted behind it. -/
def Sweep.place (s : Sweep) (old : Layout) (piece : Piece) (bytes : Int) : Sweep :=
  let s := s.carryTo old piece.stop
  { s with inserted := s.inserted + bytes, grew := s.grew || 0 < bytes, pieces := s.pieces.push piece }

/-- Decide on one piece. In an exact sweep a switch gives back the padding it does not need; before, it
takes the most it may need, once. -/
def Sweep.decide (exact : Bool) (old : Layout) (s : Sweep) (piece : Piece) : Sweep :=
  let s := s.carryTo old piece.position
  match piece.form with
  | .jump op target =>
    if !piece.grown && !fitsShort (s.newOffset old piece.position target) then
      s.place old { piece with grown := true } (growth op)
    else s.place old piece 0
  | .switch .. =>
    if exact then
      s.place old piece (-((piece.position + old.shift piece.position + s.inserted) % 4))
    else if !piece.grown then s.place old { piece with grown := true } (piece.position % 4 : Nat)
    else s.place old piece 0
  | _ => s.place old piece 0

/-- A layout and the pieces it was made for. -/
structure Plan where
  pieces : List Piece
  layout : Layout
  /-- Whether the last sweep let something grow. -/
  grew : Bool := false

def Plan.sweep (exact : Bool) (plan : Plan) : Plan :=
  let start : Sweep := { shifts := #[], pieces := #[] }
  let s := plan.pieces.foldl (Sweep.decide exact plan.layout) start
  let s := s.carryTo plan.layout plan.layout.shifts.size
  ⟨s.pieces.toList, ⟨s.shifts⟩, s.grew⟩

/-- Sweep until nothing grows, then sweep exactly; if that lets a jump grow, start over. Whenever something
grows, a piece grows for the first time. -/
def Plan.settle : Nat → Bool → Plan → Plan
  | 0, _, plan => plan
  | fuel + 1, exact, plan =>
    let next := plan.sweep exact
    if next.grew then settle fuel false next
    else if exact then next
    else settle fuel true next

def plan (length : Nat) (pieces : List Piece) : Plan :=
  Plan.settle (2 * pieces.length + 2) false { pieces := pieces, layout := .initial length }

/-! ### Writing -/

/-- Map an absolute target; 32-bit offsets can point before the code. -/
def mappedOffset (layout : Layout) (position : Nat) (offset : Int) : Except Error Int :=
  let target := position + offset
  if target < 0 then malformed position .jumpBeforeStart
  else .ok (layout.newOffset position target.toNat)

def mappedWords (layout : Layout) (position : Nat) : List SwitchWord → Bytes → Except Error Bytes
  | [], code => .ok code
  | .number value :: words, code => mappedWords layout position words (code.write (i4 value))
  | .offset value :: words, code => do
    let offset ← mappedOffset layout position value
    mappedWords layout position words (code.write (i4 offset))

def jumpBytes (op : Opcode) (grown : Bool) (offset : Int) : List UInt8 :=
  if !grown then op :: i2 offset
  else if op == Opcode.goto then Opcode.gotoW :: i4 offset
  else if op == Opcode.jsr then Opcode.jsrW :: i4 offset
  else op.invert :: u2 8 ++ Opcode.gotoW :: i4 (offset - 3)

/-- Bytes from one position up to below another. -/
def copy (old : Bytes) (start stop : Nat) (code : Bytes) : Bytes :=
  code ++ old.extract start stop

def writePiece (old : Bytes) (layout : Layout) (code : Bytes) (piece : Piece) : Except Error Bytes :=
  match piece.form with
  | .fixed => .ok (copy old piece.position piece.stop code)
  | .jump op target =>
    .ok (code.write (jumpBytes op piece.grown (layout.newOffset piece.position target)))
  | .wideJump op offset => do
    let offset ← mappedOffset layout piece.position offset
    return code.write (op :: i4 offset)
  | .switch op words =>
    let code : Bytes := code.push op
    let padding := (4 - code.size % 4) % 4
    mappedWords layout piece.position words (code.write (List.replicate padding 0))

def writePieces (old : Bytes) (layout : Layout) : List Piece → Bytes → Except Error Bytes
  | [], code => .ok code
  | piece :: pieces, code => do
    let code ← writePiece old layout code piece
    writePieces old layout pieces code

/-- Code in its new layout. -/
structure Widened where
  code : Bytes
  layout : Layout

/-- Widen every jump that needs it. -/
def widen (code : Bytes) : Except Error Widened := do
  let pieces ← scan code
  let plan := plan code.size pieces
  let new ← writePieces code plan.layout plan.pieces #[]
  return ⟨new, plan.layout⟩

end Widening

end JvmAssembler
