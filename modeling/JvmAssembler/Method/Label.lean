import JvmAssembler.Frame.Merge

/-!
# JvmAssembler.Method.Label

What is known of the labels of a method while it is written.

A label is a row of the label table. It has a position once it is placed; until then it keeps the places in
the code where its offset is wanted. A placed label may head a basic block, and then carries what is
computed about that block: stack heights for sizing, a frame for inference. Labels at one position share a
block when frames are computed, and all but the first refer to that first one.
-/

namespace JvmAssembler

/-- A place in the code that waits for the offset of a label. -/
structure ForwardRef where
  /-- The position that the offset is relative to. -/
  source : Nat
  /-- The position of the offset itself. -/
  site : Nat
  /-- Whether four bytes are reserved for it, rather than two. -/
  wide : Bool
  deriving DecidableEq

/-- How control leaves a block, where stack heights are computed. Heights are relative to that on entry of the
block. -/
inductive HeightEdge
  /-- By a jump or by falling through. -/
  | flow (height : Int)
  /-- To an exception handler, which starts with one item. -/
  | exception
  /-- Into a subroutine, with the return address pushed. -/
  | call (height : Int)
  /-- To where a subroutine returns to. -/
  | returnSite (height : Int)
  deriving DecidableEq

/-- A block, where stack heights are computed. -/
structure SizedBlock where
  edges : Array (HeightEdge × Label) := #[]
  /-- The largest height in the block, relative to that on entry. -/
  peak : Int := 0
  /-- The relative height at the `ret` that ends the block. -/
  returnHeight : Option Int := none
  /-- The block ends by calling a subroutine. -/
  calls : Bool := false

/-- A block, where frames are computed. -/
structure TypedBlock where
  /-- Absent if the label heads no block. -/
  frame : Option Frame := none
  edges : Array (Frame.Edge × Label) := #[]
  /-- Something jumps here, so that a frame may be needed. -/
  isTarget : Bool := false
  /-- A frame is needed. -/
  isStored : Bool := false
  isReachable : Bool := false
  /-- The block waits for its successors to be updated. -/
  isQueued : Bool := false

/-- What is known of a label. -/
structure LabelInfo where
  position : Option Nat := none
  waiting : Array ForwardRef := #[]
  /-- The label whose block this one is part of, if it is not its own. -/
  canonical : Option Label := none
  sized : SizedBlock := {}
  typed : TypedBlock := {}

abbrev LabelTable := Array LabelInfo

namespace LabelTable

def info (labels : LabelTable) (label : Label) : LabelInfo := labels.getD label {}

def position? (labels : LabelTable) (label : Label) : Option Nat := (labels.info label).position

/-- The position of a label; it is zero before the label is placed. -/
def position (labels : LabelTable) (label : Label) : Nat := (labels.position? label).getD 0

def isPlaced (labels : LabelTable) (label : Label) : Bool := (labels.position? label).isSome

def first (labels : LabelTable) (label : Label) : Label := (labels.info label).canonical.getD label

/-- Change what is known of a label. -/
def update (labels : LabelTable) (label : Label) (f : LabelInfo → LabelInfo) : LabelTable :=
  labels.modify label f

/-- Change what is known of the stack heights of a block. -/
def updateSized (labels : LabelTable) (label : Label) (f : SizedBlock → SizedBlock) : LabelTable :=
  labels.modify label fun info => { info with sized := f info.sized }

def updateTyped (labels : LabelTable) (label : Label) (f : TypedBlock → TypedBlock) : LabelTable :=
  labels.modify label fun info => { info with typed := f info.typed }

def addHeightEdge (labels : LabelTable) (block : Label) (edge : HeightEdge) (successor : Label) :
    LabelTable :=
  labels.updateSized block fun b => { b with edges := b.edges.push (edge, successor) }

def addTypeEdge (labels : LabelTable) (block : Label) (edge : Frame.Edge) (successor : Label) :
    LabelTable :=
  labels.updateTyped block fun b => { b with edges := b.edges.push (edge, successor) }

def markTarget (labels : LabelTable) (block : Label) : LabelTable :=
  labels.updateTyped block fun b => { b with isTarget := true }

end LabelTable

/-- The blocks from `start` up to below `stop`, or to the last one if `stop` does not follow. -/
def blockRange (blocks : Array Label) (start stop : Label) : List Label :=
  (blocks.toList.dropWhile (· ≠ start)).takeWhile (· ≠ stop)

end JvmAssembler
