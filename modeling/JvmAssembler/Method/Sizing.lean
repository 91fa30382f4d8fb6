import JvmAssembler.Handler
import JvmAssembler.Method.Label

/-!
# JvmAssembler.Method.Sizing

The largest height of the operand stack, from the relative heights of blocks and edges.

* A walk from the entry turns relative heights into absolute ones: a block gets the height along the first
  edge that reaches it.
* A subroutine returns to wherever it was called from. So first the blocks of each subroutine are found,
  then each `ret` gets an edge to the return sites of the calls that may have led to it.
-/

namespace JvmAssembler

namespace Sizing

/-- Every block of a protected range may jump to the handler. -/
def addExceptionEdges (blocks : Array Label) (handlers : List (Handler Label)) (labels : LabelTable) :
    LabelTable :=
  handlers.foldl
    (fun labels h =>
      (blockRange blocks h.start h.stop).foldl
        (fun labels block => labels.addHeightEdge block .exception h.handler) labels)
    labels

/-! ### Subroutines -/

/-- The subroutines that each block belongs to, as sets of bits; bit 0 is the main code. -/
abbrev Membership := Array Nat

def edges (labels : LabelTable) (block : Label) : List (HeightEdge × Label) :=
  (labels.info block).sized.edges.toList

/-- The successors of a block within its subroutine, the last one first. -/
def localSuccessors (labels : LabelTable) (block : Label) : List Label :=
  (edges labels block).foldl
    (fun found (edge, successor) =>
      match edge with
      | .call _ => found
      | _ => successor :: found)
    []

def callTarget? (labels : LabelTable) (block : Label) : Option Label :=
  (edges labels block).findSome? fun (edge, successor) =>
    match edge with
    | .call _ => some successor
    | _ => none

/-- Where the subroutine that a block calls returns to. -/
def returnSite? (labels : LabelTable) (block : Label) : Option Label :=
  (edges labels block).findSome? fun (edge, successor) =>
    match edge with
    | .returnSite _ => some successor
    | _ => none

/-- The number of edges, one more for each label: a bound on the length of a walk that leaves no block twice. -/
def walkBound (labels : LabelTable) : Nat :=
  labels.foldl (fun n info => n + info.sized.edges.size + 1) 1

/-- Put the blocks that can be reached within a subroutine into its set. -/
def markFrom (labels : LabelTable) (bit : Nat) : Nat → List Label → Membership → Membership
  | 0, _, members => members
  | _, [], members => members
  | fuel + 1, block :: rest, members =>
    let set := members.getD block 0
    if set &&& bit ≠ 0 then markFrom labels bit fuel rest members
    else
      markFrom labels bit fuel (localSuccessors labels block ++ rest)
        (members.setIfInBounds block (set ||| bit))

/-- Put the blocks of a subroutine, given by its number, into its set. -/
def mark (labels : LabelTable) (start : Label) (id : Nat) (members : Membership) : Membership :=
  markFrom labels (1 <<< id) (walkBound labels) [start] members

/-- The sets of all subroutines: the main code has number 0, and the others are numbered in the order of their first
call. A subroutine whose entry is already in some set is part of that one. -/
def memberships (labels : LabelTable) (entry : Label) (blocks : List Label) : Membership :=
  let main := mark labels entry 0 (Array.replicate labels.size 0)
  let step := fun (state : Membership × Nat) (block : Label) =>
    if !(labels.info block).sized.calls then state
    else
      match callTarget? labels block with
      | none => state
      | some target =>
        if state.1.getD target 0 ≠ 0 then state
        else (mark labels target (state.2 + 1) state.1, state.2 + 1)
  (blocks.foldl step (main, 0)).1

/-- From the entry of a subroutine, give each `ret` that does not belong to the caller an edge to the return
site. -/
def linkFrom (members : Membership) (caller site : Label) :
    Nat → List Label → Array Bool → LabelTable → LabelTable
  | 0, _, _, labels => labels
  | _, [], _, labels => labels
  | fuel + 1, block :: rest, seen, labels =>
    if seen.getD block false then linkFrom members caller site fuel rest seen labels
    else
      let seen := seen.setIfInBounds block true
      let labels :=
        match (labels.info block).sized.returnHeight with
        | none => labels
        | some height =>
          if members.getD block 0 &&& members.getD caller 0 ≠ 0 then labels
          else labels.addHeightEdge block (.flow height) site
      linkFrom members caller site fuel (localSuccessors labels block ++ rest) seen labels

/-- Connect every `ret` to the return sites of the calls that may have led to it. -/
def linkSubroutines (entry : Label) (blocks : List Label) (labels : LabelTable) : LabelTable :=
  let members := memberships labels entry blocks
  blocks.foldl
    (fun labels block =>
      if !(labels.info block).sized.calls then labels
      else
        match callTarget? labels block, returnSite? labels block with
        | some target, some site =>
          linkFrom members block site (2 * walkBound labels) [target]
            (Array.replicate labels.size false) labels
        | _, _ => labels)
    labels

/-! ### Heights -/

/-- The height on entry of a successor, unless the edge does not carry one. -/
def arrival (start : Int) : HeightEdge → Option Int
  | .flow height | .call height => some (start + height)
  | .exception => some 1
  | .returnSite _ => none

/-- Give the successors that have no height yet theirs, and put them on top of the blocks to visit. -/
def reach (start : Int) :
    List (HeightEdge × Label) → List Label → Array (Option Int) → List Label × Array (Option Int)
  | [], toVisit, heights => (toVisit, heights)
  | (edge, successor) :: rest, toVisit, heights =>
    match arrival start edge, heights.getD successor none with
    | some height, none =>
      reach start rest (successor :: toVisit) (heights.setIfInBounds successor (some height))
    | _, _ => reach start rest toVisit heights

/-- The largest height in the blocks that can be reached. Every block is visited at most once. -/
def walk (labels : LabelTable) : Nat → List Label → Array (Option Int) → Int → Int
  | 0, _, _, largest => largest
  | _, [], _, largest => largest
  | fuel + 1, block :: rest, heights, largest =>
    let start := (heights.getD block none).getD 0
    let (toVisit, heights) := reach start (edges labels block) rest heights
    walk labels fuel toVisit heights (max largest (start + (labels.info block).sized.peak))

/-- The largest height of the operand stack of a method, whose first block is the entry. -/
def maxStack (labels : LabelTable) (blocks : Array Label) (handlers : List (Handler Label))
    (hasSubroutines : Bool) : Nat :=
  match blocks[0]? with
  | none => 0
  | some entry =>
    let labels := addExceptionEdges blocks handlers labels
    let labels := if hasSubroutines then linkSubroutines entry blocks.toList labels else labels
    let heights := (Array.replicate labels.size none).setIfInBounds entry (some 0)
    (walk labels (labels.size + 1) [entry] heights 0).toNat

end Sizing

end JvmAssembler
