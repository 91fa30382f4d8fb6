/-!
# JvmAssembler.Handler

The exception table of a method before it is written.

A handler protects the positions from `start` up to below `stop`. Where ranges overlap the first handler
wins, so every operation keeps their order.
-/

namespace JvmAssembler

/-- A handler; positions are given by labels, or by whatever stands for them. -/
structure Handler (L : Type) where
  start : L
  stop : L
  handler : L
  /-- The class caught; none catches everything. -/
  catchType : Option String
  deriving DecidableEq

namespace Handler

/-- Rename the places of a handler by steps with effects. -/
def mapM {L M : Type} {m : Type → Type} [Monad m] (f : L → m M) (h : Handler L) : m (Handler M) := do
  let start ← f h.start
  let stop ← f h.stop
  let handler ← f h.handler
  return { start, stop, handler, catchType := h.catchType }

/-- The position that stands for the end of the code: none lies behind it. -/
def endOfCode : Nat := 4294967295

/-- What is left of a handler when a range is cut out of it: the handler itself if the two are disjoint,
else the part before the range and the part behind it, as far as there are such. A range without a stop
reaches to the end of the code. -/
def cut {L : Type} (position : L → Nat) (start : L) (stop : Option L) (h : Handler L) :
    List (Handler L) :=
  let first := position start
  let last := (stop.map position).getD endOfCode
  if position h.stop ≤ first ∨ last ≤ position h.start then [h]
  else
    (if position h.start < first then [{ h with stop := start }] else []) ++
      match stop with
      | some stop => if last < position h.stop then [{ h with start := stop }] else []
      | none => []

/-- Cut a range out of every handler. -/
def remove {L : Type} (position : L → Nat) (start : L) (stop : Option L) (handlers : List (Handler L)) :
    List (Handler L) :=
  handlers.flatMap (cut position start stop)

end Handler

end JvmAssembler
