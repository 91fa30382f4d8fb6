import JvmAssembler.Proofs.Widening.Scan

/-!
# JvmAssembler.Proofs.Widening.Sweep

What one sweep of the planner does, as equations between the layout before it and the layout after it.

A layout is constant within a piece and changes only from one piece to the next, so it is known as soon as one knows
how much is inserted behind each piece. `outcome` says how much a sweep inserts there. It looks at the layout
before the sweep and at the part of the new layout that lies before the piece; the loop only ever appends to
the new layout, so that part can be read off the final one.
-/

namespace JvmAssembler

namespace Widening

/-! ### Layouts that fit a chain of pieces -/

/-- A layout for code of a length, in which nothing is inserted at the start or in the middle of a piece. -/
structure Layout.Fits (layout : Layout) (pieces : List Piece) (length : Nat) : Prop where
  size : layout.shifts.size = length + 1
  start : layout.shift 0 = 0
  inside : ∀ piece ∈ pieces, ∀ x, piece.position ≤ x → x < piece.stop →
    layout.shift x = layout.shift piece.position

def Layout.behind (layout : Layout) (piece : Piece) : Int :=
  layout.shift piece.stop - layout.shift piece.position

theorem Layout.shift_of_le {layout : Layout} {length x : Nat} (hsize : layout.shifts.size = length + 1)
    (hx : x ≤ length) : layout.shift x = layout.shifts.getD x 0 := by
  simp only [Layout.shift, hsize, Nat.add_sub_cancel, Nat.min_eq_left hx]

theorem Layout.shift_min (layout : Layout) {length : Nat} (hsize : layout.shifts.size = length + 1) (x : Nat) :
    layout.shift x = layout.shift (min x length) := by
  simp only [Layout.shift, hsize, Nat.add_sub_cancel, Nat.min_assoc, Nat.min_self]

/-! ### One piece -/

/-- The offset of a jump as a sweep sees it: what lies behind the jump has its new place already. -/
def sweptOffset (old new : Layout) (pos target : Nat) : Int :=
  if target < pos then new.newOffset pos target else old.newOffset pos target

/-- Whether a piece has grown after a sweep, and how much the sweep inserts behind it. -/
def outcome (exact : Bool) (old new : Layout) (piece : Piece) : Bool × Int :=
  match piece.form with
  | .jump op target =>
    if !piece.grown && !fitsShort (sweptOffset old new piece.position target) then (true, growth op)
    else (piece.grown, 0)
  | .switch .. =>
    if exact then (piece.grown, -((piece.position + new.shift piece.position) % 4))
    else if !piece.grown then (true, (piece.position % 4 : Nat))
    else (piece.grown, 0)
  | _ => (piece.grown, 0)

def sweptPiece (exact : Bool) (old new : Layout) (piece : Piece) : Piece :=
  { piece with grown := (outcome exact old new piece).1 }

/-- What a sweep does to the layout around a piece. -/
structure Swept (exact : Bool) (old new : Layout) (piece : Piece) : Prop where
  behind : new.behind piece = old.behind piece + (outcome exact old new piece).2
  inside : ∀ x, piece.position ≤ x → x < piece.stop → new.shift x = new.shift piece.position

/-! ### Appending to a layout -/

theorem size_carry (old : Layout) (inserted : Int) (n : Nat) (shifts : Array Int) :
    (carry old inserted n shifts).size = shifts.size + n := by
  induction n generalizing shifts with
  | zero => rfl
  | succ n ih => simp only [carry, ih, Array.size_push]; omega

theorem getD_carry_of_lt (old : Layout) (inserted : Int) (n : Nat) (shifts : Array Int) {x : Nat}
    (hx : x < shifts.size) : (carry old inserted n shifts).getD x 0 = shifts.getD x 0 := by
  induction n generalizing shifts with
  | zero => rfl
  | succ n ih =>
    rw [carry, ih _ (by simp; omega)]
    simp [Array.getElem?_push, Nat.ne_of_lt hx]

theorem getD_carry_of_ge (old : Layout) (inserted : Int) (n : Nat) (shifts : Array Int) {x : Nat}
    (hge : shifts.size ≤ x) (hlt : x < shifts.size + n) :
    (carry old inserted n shifts).getD x 0 = old.shifts.getD x 0 + inserted := by
  induction n generalizing shifts with
  | zero => omega
  | succ n ih =>
    rw [carry]
    by_cases hx : x = shifts.size
    · subst hx
      rw [getD_carry_of_lt _ _ _ _ (by simp)]
      simp
    · exact ih _ (by simp; omega) (by simp; omega)

/-! ### The loop -/

section Loop

variable {exact : Bool} {old new : Layout} {s : Sweep} {piece : Piece}

theorem carryTo_position (h : piece.position = s.shifts.size) : s.carryTo old piece.position = s := by
  simp [Sweep.carryTo, h, carry]

/-- Whatever is decided about a piece, the new layout is extended up to the end of the piece. -/
theorem shifts_decide (h : piece.position = s.shifts.size) :
    (Sweep.decide exact old s piece).shifts =
      carry old s.inserted (piece.stop - s.shifts.size) s.shifts := by
  unfold Sweep.decide
  rw [carryTo_position h]
  dsimp only
  split
  · split <;> rfl
  · split
    · rfl
    · split <;> rfl
  · rfl

/-- The decision on a piece is the outcome that the final layout prescribes, if the new layout so far is part of
the final one. -/
theorem decide_eq (h : piece.position = s.shifts.size) (hbeh : ∀ x < s.shifts.size, new.shift x = s.shifts.getD x 0)
    (hhere : new.shift piece.position = old.shift piece.position + s.inserted) :
    Sweep.decide exact old s piece =
      s.place old (sweptPiece exact old new piece) (outcome exact old new piece).2 := by
  have hoff : ∀ target, s.newOffset old piece.position target =
      sweptOffset old new piece.position target := by
    intro target
    unfold Sweep.newOffset sweptOffset Layout.newOffset
    split
    · rw [hbeh target (by omega), hhere, Int.add_assoc]
    · rfl
  unfold Sweep.decide sweptPiece outcome
  rw [carryTo_position h]
  obtain ⟨pos, stop, form, grown⟩ := piece
  dsimp only at hoff hhere ⊢
  cases form with
  | jump op target =>
    simp only [hoff]
    split <;> rfl
  | switch op words =>
    simp only [hhere, ← Int.add_assoc]
    split
    · rfl
    · split <;> rfl
  | _ => rfl

theorem inserted_place (bytes : Int) : (s.place old piece bytes).inserted = s.inserted + bytes := rfl

theorem grew_place (bytes : Int) : (s.place old piece bytes).grew = (s.grew || 0 < bytes) := rfl

theorem pieces_place (bytes : Int) : (s.place old piece bytes).pieces = s.pieces.push piece := rfl

/-- What the loop arrives at from a state `s`, with `pieces` still to come: the final state `e` extends the layout
of `s` to the layout `new`. -/
structure Arrives (exact : Bool) (old new : Layout) (length : Nat) (s e : Sweep) (pieces : List Piece) :
    Prop where
  shifts : new = ⟨e.shifts⟩
  size : new.shifts.size = length + 1
  behind : ∀ x < s.shifts.size, new.shift x = s.shifts.getD x 0
  here : new.shift s.shifts.size = old.shift s.shifts.size + s.inserted
  swept : ∀ piece ∈ pieces, Swept exact old new piece
  moved : e.pieces.toList = s.pieces.toList ++ pieces.map (sweptPiece exact old new)
  grew : e.grew = true ↔ s.grew = true ∨ ∃ piece ∈ pieces, 0 < (outcome exact old new piece).2

theorem arrives_nil {length : Nat} (hsize : old.shifts.size = length + 1) (hs : s.shifts.size = length) :
    Arrives exact old ⟨(s.carryTo old (length + 1)).shifts⟩ length s (s.carryTo old (length + 1)) [] := by
  have hcarry : (s.carryTo old (length + 1)).shifts = carry old s.inserted 1 s.shifts := by
    simp [Sweep.carryTo, hs]
  have hnew : (Layout.mk (carry old s.inserted 1 s.shifts)).shifts.size = length + 1 := by
    rw [size_carry, hs]
  rw [hcarry]
  constructor
  · rw [hcarry]
  · exact hnew
  · intro x hx
    rw [Layout.shift_of_le hnew (by omega)]
    exact getD_carry_of_lt _ _ _ _ hx
  · rw [Layout.shift_of_le hnew (by omega), Layout.shift_of_le hsize (by omega)]
    exact getD_carry_of_ge _ _ _ _ (Nat.le_refl _) (by omega)
  · simp
  · simp [Sweep.carryTo]
  · simp [Sweep.carryTo]

/-- One turn of the loop, given what the rest of it arrives at. -/
theorem Arrives.cons {length : Nat} {e : Sweep} {rest : List Piece} (hsize : old.shifts.size = length + 1)
    (hposition : piece.position = s.shifts.size) (hlt : piece.position < piece.stop)
    (hle : piece.stop ≤ length)
    (hinside : ∀ x, piece.position ≤ x → x < piece.stop → old.shift x = old.shift piece.position)
    (h : Arrives exact old new length (Sweep.decide exact old s piece) e rest) :
    Arrives exact old new length s e (piece :: rest) := by
  have hshifts := @shifts_decide exact old s piece hposition
  have hstop : (Sweep.decide exact old s piece).shifts.size = piece.stop := by
    rw [hshifts, size_carry]; omega
  have hbeh : ∀ x < s.shifts.size, new.shift x = s.shifts.getD x 0 := by
    intro x hx
    rw [h.behind x (by omega), hshifts, getD_carry_of_lt _ _ _ _ hx]
  have hpc : ∀ x, piece.position ≤ x → x < piece.stop →
      new.shift x = old.shift piece.position + s.inserted := by
    intro x hge hx
    rw [h.behind x (by omega), hshifts, getD_carry_of_ge _ _ _ _ (by omega) (by omega),
      ← Layout.shift_of_le hsize (by omega), hinside x hge hx]
  have hhere := hpc piece.position (Nat.le_refl _) hlt
  have hdecide := @decide_eq exact old new s piece hposition hbeh hhere
  constructor
  · exact h.shifts
  · exact h.size
  · exact hbeh
  · rw [← hposition]
    exact hhere
  · intro q hq
    rcases List.mem_cons.1 hq with rfl | hq
    · constructor
      · have hend := h.here
        rw [hstop, hdecide, inserted_place] at hend
        simp only [Layout.behind, hend, hhere]
        omega
      · intro x hge hx
        rw [hpc x hge hx, hhere]
    · exact h.swept q hq
  · rw [h.moved, hdecide, pieces_place]
    simp
  · rw [h.grew, hdecide, grew_place]
    simp [or_assoc]

end Loop

/-- The loop over a chain of pieces. -/
theorem arrives_of_chain {exact : Bool} {old : Layout} {length : Nat} {pieces : List Piece}
    (hsize : old.shifts.size = length + 1) (hpos : ∀ piece ∈ pieces, piece.position < piece.stop)
    (hinside : ∀ piece ∈ pieces, ∀ x, piece.position ≤ x → x < piece.stop →
      old.shift x = old.shift piece.position)
    (s : Sweep) (hchain : Chain s.shifts.size pieces length) :
    ∃ new e, e = (pieces.foldl (Sweep.decide exact old) s).carryTo old (length + 1) ∧
      Arrives exact old new length s e pieces := by
  induction pieces generalizing s with
  | nil => exact ⟨_, _, rfl, arrives_nil hsize hchain⟩
  | cons piece rest ih =>
    obtain ⟨hposition, hrest⟩ := hchain
    have hlt := hpos piece (by simp)
    have hstop : (Sweep.decide exact old s piece).shifts.size = piece.stop := by
      rw [shifts_decide hposition, size_carry]; omega
    have hpos' : ∀ q ∈ rest, q.position < q.stop := fun q hq => hpos q (List.mem_cons_of_mem _ hq)
    obtain ⟨new, e, he, h⟩ := ih hpos' (fun q hq => hinside q (List.mem_cons_of_mem _ hq))
      (Sweep.decide exact old s piece) (by rw [hstop]; exact hrest)
    exact ⟨new, e, he, h.cons hsize hposition hlt (hrest.le hpos') (hinside piece (by simp))⟩

/-- **One sweep.** Every piece has the outcome that the layouts before and after the sweep prescribe. -/
theorem sweep_spec {exact : Bool} {plan : Plan} {length : Nat}
    (hchain : Chain 0 plan.pieces length) (hpos : ∀ piece ∈ plan.pieces, piece.position < piece.stop)
    (hfits : plan.layout.Fits plan.pieces length) :
    (plan.sweep exact).layout.Fits plan.pieces length ∧
      (∀ piece ∈ plan.pieces, Swept exact plan.layout (plan.sweep exact).layout piece) ∧
      (plan.sweep exact).pieces =
        plan.pieces.map (sweptPiece exact plan.layout (plan.sweep exact).layout) ∧
      ((plan.sweep exact).grew = true ↔
        ∃ piece ∈ plan.pieces, 0 < (outcome exact plan.layout (plan.sweep exact).layout piece).2) := by
  obtain ⟨new, e, he, h⟩ := @arrives_of_chain exact _ _ _ hfits.size hpos hfits.inside
    { shifts := #[], pieces := #[] } hchain
  have hsweep : plan.sweep exact = ⟨e.pieces.toList, new, e.grew⟩ := by
    rw [h.shifts, he, ← hfits.size]
    rfl
  rw [hsweep]
  refine ⟨⟨h.size, ?_, fun piece hpc => (h.swept piece hpc).inside⟩, h.swept, ?_, ?_⟩
  · have hst : new.shift 0 = plan.layout.shift 0 + 0 := h.here
    rw [hst, hfits.start, Int.add_zero]
  · rw [h.moved]
    rfl
  · rw [h.grew]
    simp

end Widening

end JvmAssembler
