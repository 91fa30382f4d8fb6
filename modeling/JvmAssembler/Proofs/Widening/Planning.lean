import JvmAssembler.Proofs.Widening.Sweep

/-!
# JvmAssembler.Proofs.Widening.Planning

Where the sweeps of the planner end.

* Up to the exact sweep the layout is an *estimate*: behind a piece it inserts what the piece has grown by, with the
  padding of a switch at its largest (`Estimated`). A sweep that lets something grow leaves fewer pieces to grow, so
  the fuel suffices to reach one that does not. After that one the estimate is `Stable`.
* The exact sweep only takes padding back. What it takes back adds up along the code, so a jump that was in range
  stays in range: nothing grows, and the planner stops. The layout is then `Settled`.
-/

namespace JvmAssembler

namespace Widening

/-! ### Along a chain -/

/-- What is constant within each piece and does not fall from one piece to the next does not fall at all. Only the
pieces that end by `bound` matter. -/
theorem Chain.mono {g : Nat → Int} {pieces : List Piece} {start stop bound : Nat} (hchain : Chain start pieces stop)
    (hinside : ∀ piece ∈ pieces, ∀ x, piece.position ≤ x → x < piece.stop → g x = g piece.position)
    (hstep : ∀ piece ∈ pieces, piece.stop ≤ bound → g piece.position ≤ g piece.stop)
    {x y : Nat} (hx : start ≤ x) (hxy : x ≤ y) (hy : y ≤ stop) (hbound : y ≤ bound) : g x ≤ g y := by
  induction pieces generalizing start x with
  | nil =>
    obtain rfl : start = stop := hchain
    obtain rfl : x = y := by omega
    exact Int.le_refl _
  | cons piece rest ih =>
    obtain ⟨rfl, hrest⟩ := hchain
    have hrest' := @ih piece.stop hrest (fun q hq => hinside q (List.mem_cons_of_mem _ hq))
      (fun q hq => hstep q (List.mem_cons_of_mem _ hq))
    have hconst := hinside piece (by simp)
    by_cases hyp : y < piece.stop
    · exact Int.le_of_eq ((hconst x hx (by omega)).trans (hconst y (by omega) hyp).symm)
    · by_cases hxp : x < piece.stop
      · rw [hconst x hx hxp]
        exact Int.le_trans (hstep piece (by simp) (by omega)) (hrest' (Nat.le_refl _) (by omega))
      · exact hrest' (by omega) hxy

/-- What holds at the start of a chain and is handed on by each piece holds at every piece and at the end. -/
theorem Chain.reaches {P : Nat → Prop} {pieces : List Piece} {start stop : Nat}
    (hchain : Chain start pieces stop) (hst : P start)
    (hstep : ∀ piece ∈ pieces, P piece.position → P piece.stop) :
    P stop ∧ ∀ piece ∈ pieces, P piece.position := by
  induction pieces generalizing start with
  | nil =>
    obtain rfl : start = stop := hchain
    exact ⟨hst, by simp⟩
  | cons piece rest ih =>
    obtain ⟨rfl, hrest⟩ := hchain
    obtain ⟨hend, hall⟩ := ih hrest (hstep piece (by simp) hst)
      (fun q hq => hstep q (List.mem_cons_of_mem _ hq))
    refine ⟨hend, fun q hq => ?_⟩
    rcases List.mem_cons.1 hq with rfl | hq
    · exact hst
    · exact hall q hq

theorem Chain.map {f : Piece → Piece} {pieces : List Piece} {start stop : Nat}
    (hposition : ∀ piece, (f piece).position = piece.position) (hstop : ∀ piece, (f piece).stop = piece.stop)
    (h : Chain start pieces stop) : Chain start (pieces.map f) stop := by
  induction pieces generalizing start with
  | nil => exact h
  | cons piece rest ih =>
    obtain ⟨rfl, hrest⟩ := h
    refine ⟨hposition piece, ?_⟩
    rw [hstop piece]
    exact ih hrest

/-! ### Estimates -/

/-- What an estimate inserts behind a piece. -/
def extra (piece : Piece) : Int :=
  if piece.grown then
    match piece.form with
    | .jump op _ => growth op
    | .switch .. => (piece.position % 4 : Nat)
    | _ => 0
  else 0

/-- A plan for some code, with a layout in which nothing is inserted at the start or in the middle of a piece. -/
structure Plan.For (code : Bytes) (plan : Plan) : Prop where
  chain : Chain 0 plan.pieces code.size
  valid : ∀ piece ∈ plan.pieces, piece.Valid code
  fits : plan.layout.Fits plan.pieces code.size

/-- A plan whose layout takes the padding of each switch at its largest. -/
structure Estimated (code : Bytes) (plan : Plan) : Prop extends plan.For code where
  behind : ∀ piece ∈ plan.pieces, plan.layout.behind piece = extra piece

theorem Plan.For.pos {code : Bytes} {plan : Plan} (h : plan.For code) :
    ∀ piece ∈ plan.pieces, piece.position < piece.stop :=
  fun piece hpc => (h.valid piece hpc).bounds.1

section Sweeping

variable {code : Bytes} {plan : Plan}

theorem Plan.For.mem_sweep (h : plan.For code) {exact : Bool} {piece : Piece} :
    piece ∈ (plan.sweep exact).pieces ↔
      ∃ q ∈ plan.pieces, sweptPiece exact plan.layout (plan.sweep exact).layout q = piece := by
  obtain ⟨_, _, hpcs, _⟩ := @sweep_spec exact _ _ h.chain h.pos h.fits
  rw [hpcs, List.mem_map]

theorem Plan.For.swept (h : plan.For code) {exact : Bool} {piece : Piece} (hmem : piece ∈ plan.pieces) :
    Swept exact plan.layout (plan.sweep exact).layout piece :=
  (@sweep_spec exact _ _ h.chain h.pos h.fits).2.1 piece hmem

theorem Plan.For.grew_sweep (h : plan.For code) {exact : Bool} :
    (plan.sweep exact).grew = true ↔
      ∃ piece ∈ plan.pieces, 0 < (outcome exact plan.layout (plan.sweep exact).layout piece).2 :=
  (@sweep_spec exact _ _ h.chain h.pos h.fits).2.2.2

theorem Plan.For.sweep (h : plan.For code) (exact : Bool) : (plan.sweep exact).For code := by
  obtain ⟨hfits, _, hpcs, _⟩ := @sweep_spec exact _ _ h.chain h.pos h.fits
  refine ⟨?_, ?_, hfits.size, hfits.start, ?_⟩
  · rw [hpcs]
    exact h.chain.map (fun _ => rfl) fun _ => rfl
  · intro piece hpc
    obtain ⟨q, hq, rfl⟩ := h.mem_sweep.1 hpc
    exact (h.valid q hq).regrown _
  · intro piece hpc
    obtain ⟨q, hq, rfl⟩ := h.mem_sweep.1 hpc
    exact hfits.inside q hq

/-- In an inexact sweep, what is inserted behind a piece is what it has grown by. -/
theorem extra_sweptPiece (old new : Layout) (piece : Piece) :
    extra (sweptPiece false old new piece) = extra piece + (outcome false old new piece).2 := by
  obtain ⟨position, stop, form, grown⟩ := piece
  cases form with
  | jump op target => cases grown <;> simp [extra, sweptPiece, outcome]; split <;> simp
  | switch op words => cases grown <;> simp [extra, sweptPiece, outcome]
  | _ => exact (Int.add_zero _).symm

theorem Estimated.sweep (h : Estimated code plan) : Estimated code (plan.sweep false) := by
  refine ⟨h.toFor.sweep false, fun piece hpc => ?_⟩
  obtain ⟨q, hq, rfl⟩ := h.mem_sweep.1 hpc
  rw [extra_sweptPiece, ← h.behind q hq]
  exact (h.swept hq).behind

/-! ### Growing ends -/

def ungrown (pieces : List Piece) : Nat := pieces.countP (!·.grown)

theorem grown_sweptPiece {exact : Bool} {old new : Layout} {piece : Piece} (h : piece.grown = true) :
    (sweptPiece exact old new piece).grown = true := by
  obtain ⟨position, stop, form, grown⟩ := piece
  obtain rfl : grown = true := h
  cases form with
  | switch op words => cases exact <;> rfl
  | _ => rfl

theorem grown_of_outcome_pos {old new : Layout} {piece : Piece} (h : 0 < (outcome false old new piece).2) :
    piece.grown = false ∧ (sweptPiece false old new piece).grown = true := by
  obtain ⟨position, stop, form, grown⟩ := piece
  cases form with
  | jump op target => cases grown <;> simp_all [sweptPiece, outcome]; split at h <;> simp_all
  | switch op words => cases grown <;> simp_all [sweptPiece, outcome]
  | _ => simp [outcome] at h

theorem ungrown_map_le {f : Piece → Piece} (hkeep : ∀ piece, piece.grown = true → (f piece).grown = true)
    (pieces : List Piece) : ungrown (pieces.map f) ≤ ungrown pieces := by
  unfold ungrown
  rw [List.countP_map]
  apply List.countP_mono_left
  intro q _ hq
  cases hgr : q.grown with
  | false => rfl
  | true => simp [hkeep q hgr] at hq

/-- Where something grows, a piece grows for the first time. -/
theorem ungrown_map_lt {f : Piece → Piece} {pieces : List Piece}
    (hkeep : ∀ piece, piece.grown = true → (f piece).grown = true) {piece : Piece} (hmem : piece ∈ pieces)
    (hold : piece.grown = false) (hnew : (f piece).grown = true) :
    ungrown (pieces.map f) < ungrown pieces := by
  obtain ⟨before, after, rfl⟩ := List.append_of_mem hmem
  have hbef := ungrown_map_le hkeep before
  have haft := ungrown_map_le hkeep after
  simp only [ungrown, List.map_append, List.map_cons, List.countP_append, List.countP_cons, hold, hnew]
    at hbef haft ⊢
  simp only [Bool.not_true, Bool.not_false, Bool.false_eq_true, if_false, if_true]
  omega

theorem Plan.For.ungrown_sweep_le (h : plan.For code) :
    ungrown (plan.sweep false).pieces ≤ ungrown plan.pieces := by
  rw [(@sweep_spec false _ _ h.chain h.pos h.fits).2.2.1]
  exact ungrown_map_le (fun _ => grown_sweptPiece) _

theorem Plan.For.ungrown_sweep (h : plan.For code) (hgrew : (plan.sweep false).grew = true) :
    ungrown (plan.sweep false).pieces < ungrown plan.pieces := by
  obtain ⟨piece, hmem, hpos⟩ := h.grew_sweep.1 hgrew
  obtain ⟨hold, hnew⟩ := grown_of_outcome_pos hpos
  rw [(@sweep_spec false _ _ h.chain h.pos h.fits).2.2.1]
  exact ungrown_map_lt (fun _ => grown_sweptPiece) hmem hold hnew

/-! ### Stable estimates -/

/-- An estimate from which nothing grows any more: every switch has taken its padding, and every jump that has not
grown is in range. -/
structure Stable (code : Bytes) (plan : Plan) : Prop extends Estimated code plan where
  switches : ∀ piece ∈ plan.pieces, ∀ op words, piece.form = .switch op words → piece.grown = true
  short : ∀ piece ∈ plan.pieces, ∀ op target, piece.form = .jump op target → piece.grown = false →
    fitsShort (plan.layout.newOffset piece.position target) = true

/-- Two layouts that insert the same behind each piece are the same. -/
theorem Layout.Fits.shift_eq {old new : Layout} {pieces : List Piece} {length : Nat}
    (hchain : Chain 0 pieces length) (hold : old.Fits pieces length) (hnew : new.Fits pieces length)
    (hbeh : ∀ piece ∈ pieces, new.behind piece = old.behind piece) (x : Nat) :
    new.shift x = old.shift x := by
  -- below the end, both differences of the two layouts are monotone and zero at the start
  have hle : ∀ y ≤ length, new.shift y = old.shift y := by
    intro y hy
    have hup := @Chain.mono (fun z => new.shift z - old.shift z) pieces 0 length length hchain
      (fun q hq z hz hz' => by simp only [hnew.inside q hq z hz hz', hold.inside q hq z hz hz'])
      (fun q hq _ => by have := hbeh q hq; simp only [Layout.behind] at this; omega)
      0 y (Nat.le_refl _) (Nat.zero_le _) hy hy
    have hdown := @Chain.mono (fun z => old.shift z - new.shift z) pieces 0 length length hchain
      (fun q hq z hz hz' => by simp only [hnew.inside q hq z hz hz', hold.inside q hq z hz hz'])
      (fun q hq _ => by have := hbeh q hq; simp only [Layout.behind] at this; omega)
      0 y (Nat.le_refl _) (Nat.zero_le _) hy hy
    simp only [hold.start, hnew.start] at hup hdown
    omega
  rw [Layout.shift_min old hold.size, Layout.shift_min new hnew.size]
  exact hle _ (Nat.min_le_right _ _)

theorem outcome_nonneg (old new : Layout) (piece : Piece) : 0 ≤ (outcome false old new piece).2 := by
  obtain ⟨position, stop, form, grown⟩ := piece
  cases form with
  | jump op target =>
    simp only [outcome]
    split
    · simp only [growth]; split <;> decide
    · exact Int.le_refl _
  | switch op words =>
    cases grown with
    | false => exact Int.natCast_nonneg _
    | true => exact Int.le_refl _
  | _ => exact Int.le_refl _

theorem Estimated.stable_sweep (h : Estimated code plan) (hgrew : (plan.sweep false).grew = false) :
    Stable code (plan.sweep false) := by
  have hzero : ∀ piece ∈ plan.pieces,
      (outcome false plan.layout (plan.sweep false).layout piece).2 = 0 := by
    intro piece hmem
    have hpos := outcome_nonneg plan.layout (plan.sweep false).layout piece
    have hnot : ¬ 0 < (outcome false plan.layout (plan.sweep false).layout piece).2 := by
      intro hlt
      have hgrew' := h.grew_sweep.2 ⟨piece, hmem, hlt⟩
      simp [hgrew] at hgrew'
    omega
  have hfits := (@sweep_spec false _ _ h.chain h.pos h.fits).1
  have hshift : ∀ x, (plan.sweep false).layout.shift x = plan.layout.shift x :=
    Layout.Fits.shift_eq h.chain h.fits hfits fun piece hmem => by
      rw [(h.swept hmem).behind, hzero piece hmem, Int.add_zero]
  refine ⟨h.sweep, ?_, ?_⟩
  · intro piece hpc op words hform
    obtain ⟨q, hq, rfl⟩ := h.mem_sweep.1 hpc
    have hq' : q.form = .switch op words := hform
    cases hgr : q.grown <;> simp [sweptPiece, outcome, hq', hgr]
  · intro piece hpc op target hform hgr
    obtain ⟨q, hq, rfl⟩ := h.mem_sweep.1 hpc
    have hq' : q.form = .jump op target := hform
    simp only [sweptPiece, outcome, hq'] at hgr
    split at hgr
    · simp at hgr
    · rename_i hshort
      have hgr' : q.grown = false := hgr
      have hoff : sweptOffset plan.layout (plan.sweep false).layout q.position target =
          (plan.sweep false).layout.newOffset q.position target := by
        simp only [sweptOffset, Layout.newOffset, hshift, ite_self]
      show fitsShort ((plan.sweep false).layout.newOffset q.position target) = true
      rw [← hoff]
      simpa [hgr'] using hshort

/-! ### The exact sweep -/

theorem fitsShort_iff {offset : Int} : fitsShort offset = true ↔ -32768 ≤ offset ∧ offset ≤ 32767 := by
  simp [fitsShort]

/-- What is inserted behind a piece in the end. -/
def room (layout : Layout) (piece : Piece) : Int :=
  match piece.form with
  | .jump op _ => if piece.grown then growth op else 0
  | .switch .. => (piece.position % 4 : Nat) - (piece.position + layout.shift piece.position) % 4
  | _ => 0

/-- A plan as it is written: padding is exact, and every jump that has not grown is in range. -/
structure Settled (code : Bytes) (plan : Plan) : Prop extends plan.For code where
  behind : ∀ piece ∈ plan.pieces, plan.layout.behind piece = room plan.layout piece
  short : ∀ piece ∈ plan.pieces, ∀ op target, piece.form = .jump op target → piece.grown = false →
    fitsShort (plan.layout.newOffset piece.position target) = true

/-- Where no more than padding is taken back, the order of two positions is kept up to three bytes. -/
theorem Chain.spread {layout : Layout} {pieces : List Piece} {start stop : Nat} (hchain : Chain start pieces stop)
    (hinside : ∀ piece ∈ pieces, ∀ x, piece.position ≤ x → x < piece.stop →
      layout.shift x = layout.shift piece.position)
    (hbeh : ∀ piece ∈ pieces, piece.position < piece.stop ∧ -3 ≤ layout.behind piece ∧
      0 ≤ (piece.stop : Int) - piece.position + layout.behind piece)
    {x y : Nat} (hx : start ≤ x) (hxy : x ≤ y) (hy : y ≤ stop) :
    x + layout.shift x ≤ y + layout.shift y + 3 ∧
      (x = start → x + layout.shift x ≤ y + layout.shift y) := by
  induction pieces generalizing start x with
  | nil =>
    obtain rfl : start = stop := hchain
    obtain rfl : x = y := by omega
    omega
  | cons piece rest ih =>
    obtain ⟨rfl, hrest⟩ := hchain
    have hrest' := @ih piece.stop hrest (fun q hq => hinside q (List.mem_cons_of_mem _ hq))
      (fun q hq => hbeh q (List.mem_cons_of_mem _ hq))
    have hconst := hinside piece (by simp)
    have hpc := hbeh piece (by simp)
    simp only [Layout.behind] at hpc
    by_cases hyp : y < piece.stop
    · rw [hconst x hx (by omega), hconst y (by omega) hyp]
      omega
    · by_cases hxp : x < piece.stop
      · rw [hconst x hx hxp]
        have hnext := (hrest' (Nat.le_refl _) (by omega)).2 rfl
        omega
      · exact ⟨(@hrest' x (by omega) hxy).1, by omega⟩

/-- What the exact sweep has taken back so far does not fall along the code, as long as nothing grows. -/
theorem Plan.For.saved_mono (h : plan.For code) {bound : Nat} (hkeep : ∀ piece ∈ plan.pieces, piece.stop ≤ bound →
      (outcome true plan.layout (plan.sweep true).layout piece).2 ≤ 0)
    {x y : Nat} (hxy : x ≤ y) (hy : y ≤ code.size) (hbound : y ≤ bound) :
    plan.layout.shift x - (plan.sweep true).layout.shift x ≤
      plan.layout.shift y - (plan.sweep true).layout.shift y := by
  apply @Chain.mono (fun z => plan.layout.shift z - (plan.sweep true).layout.shift z) plan.pieces 0
    code.size bound h.chain
  · intro piece hmem z hge hlt
    simp only [h.fits.inside piece hmem z hge hlt, (h.swept hmem).inside z hge hlt]
  · intro piece hmem hstop
    have hbeh := (@Plan.For.swept code plan h true piece hmem).behind
    have := hkeep piece hmem hstop
    simp only [Layout.behind] at hbeh
    omega
  · exact Nat.zero_le _
  · exact hxy
  · exact hy
  · exact hbound

theorem Piece.Valid.switch_length {piece : Piece} (h : piece.Valid code) {op : Opcode}
    {words : List SwitchWord} (hform : piece.form = .switch op words) :
    piece.position + 12 - piece.position % 4 ≤ piece.stop := by
  cases h with
  | switch hop hnode hwords hfits =>
    simp only [ControlFlow.switchVertex?] at hnode
    split at hnode
    · split at hnode <;> simp at hnode
      simp only [ControlFlow.operandsAt]; omega
    · split at hnode <;> simp at hnode
      simp only [ControlFlow.operandsAt]; omega
  | _ => simp at hform

/-- The exact sweep takes back padding only. -/
theorem Stable.behind_exact (h : Stable code plan) {piece : Piece} (hmem : piece ∈ plan.pieces) :
    piece.position < piece.stop ∧ -3 ≤ (plan.sweep true).layout.behind piece ∧
      0 ≤ (piece.stop : Int) - piece.position + (plan.sweep true).layout.behind piece := by
  have hpos := h.pos piece hmem
  have hlen := @Piece.Valid.switch_length code piece (h.valid piece hmem)
  have hgr := h.switches piece hmem
  rw [(h.swept hmem).behind, h.behind piece hmem]
  generalize (plan.sweep true).layout = new at *
  obtain ⟨position, stop, form, grown⟩ := piece
  dsimp only at hpos hlen hgr ⊢
  cases form with
  | jump op target =>
    have hgrowth : 0 ≤ growth op := by simp only [growth]; split <;> decide
    have hextra : 0 ≤ extra ⟨position, stop, .jump op target, grown⟩ := by
      cases grown
      · exact Int.le_refl _
      · exact hgrowth
    have hout : 0 ≤ (outcome true plan.layout new ⟨position, stop, .jump op target, grown⟩).2 := by
      simp only [outcome]
      split
      · exact hgrowth
      · exact Int.le_refl _
    omega
  | switch op words =>
    have := hlen rfl
    simp only [extra, hgr op words rfl, outcome, if_true]
    omega
  | _ =>
    simp only [extra, outcome, ite_self]
    omega

/-- A jump that has not grown is in range for the exact sweep, if nothing before it has grown. -/
theorem Stable.in_range (h : Stable code plan) {piece : Piece} (hmem : piece ∈ plan.pieces) {op : Opcode}
    {target : Nat} (hform : piece.form = .jump op target) (hgr : piece.grown = false)
    (hkeep : ∀ q ∈ plan.pieces, q.stop ≤ piece.position →
      (outcome true plan.layout (plan.sweep true).layout q).2 ≤ 0) :
    fitsShort (sweptOffset plan.layout (plan.sweep true).layout piece.position target) = true := by
  have hshort := h.short piece hmem op target hform hgr
  have hbnd := (h.valid piece hmem).bounds
  unfold sweptOffset
  split
  · have hsaved := h.saved_mono hkeep (Nat.le_of_lt ‹_›) (by omega) (Nat.le_refl _)
    have hspread := (h.chain.spread (fun q hq => (h.swept hq).inside) (fun q hq => h.behind_exact hq)
      (Nat.zero_le target) (Nat.le_of_lt ‹_›) (by omega)).1
    rw [fitsShort_iff] at hshort ⊢
    simp only [Layout.newOffset] at hshort ⊢
    omega
  · exact hshort

/-- Nothing grows in the exact sweep. -/
theorem Stable.keeps (h : Stable code plan) {piece : Piece} (hmem : piece ∈ plan.pieces) :
    (outcome true plan.layout (plan.sweep true).layout piece).2 ≤ 0 := by
  -- along the code, since a jump is kept because of what lies before it
  induction hn : piece.position using Nat.strongRecOn generalizing piece with
  | ind n ih =>
    cases hform : piece.form with
    | jump op target =>
      cases hgr : piece.grown with
      | true => simp [outcome, hform, hgr]
      | false =>
        have hrng := h.in_range hmem hform hgr fun q hq hstop => by
          have := h.pos q hq
          exact ih q.position (by omega) hq rfl
        simp [outcome, hform, hrng]
    | switch op words =>
      simp only [outcome, hform, if_true]
      omega
    | _ => simp [outcome, hform]

theorem Stable.outcome_jump (h : Stable code plan) {piece : Piece} (hmem : piece ∈ plan.pieces) {op : Opcode}
    {target : Nat} (hform : piece.form = .jump op target) :
    outcome true plan.layout (plan.sweep true).layout piece = (piece.grown, 0) := by
  have hkeep := h.keeps hmem
  simp only [outcome, hform] at hkeep ⊢
  split
  · rename_i hgrows
    have hgrowth : 0 < growth op := by simp only [growth]; split <;> decide
    rw [if_pos hgrows] at hkeep
    dsimp only at hkeep
    omega
  · rfl

theorem Stable.grew_exact (h : Stable code plan) : (plan.sweep true).grew = false := by
  rw [← Bool.not_eq_true, h.grew_sweep]
  rintro ⟨piece, hmem, hpos⟩
  have := h.keeps hmem
  omega

/-- From a stable estimate the exact sweep gives the final plan. -/
theorem Stable.settled (h : Stable code plan) : Settled code (plan.sweep true) := by
  refine ⟨h.toFor.sweep true, ?_, ?_⟩
  · intro piece hpc
    obtain ⟨q, hq, rfl⟩ := h.mem_sweep.1 hpc
    have hbeh := (@Plan.For.swept code plan h.toFor true q hq).behind
    rw [h.behind q hq] at hbeh
    refine hbeh.trans ?_
    have hgr := h.switches q hq
    have hjump := @Stable.outcome_jump code plan h q hq
    obtain ⟨position, stop, form, grown⟩ := q
    cases form with
    | jump op target => simp [room, sweptPiece, hjump rfl, extra]
    | switch op words =>
      obtain rfl : grown = true := hgr op words rfl
      exact (Int.sub_eq_add_neg).symm
    | _ => simp [room, sweptPiece, outcome, extra]
  · intro piece hpc op target hform hgr
    obtain ⟨q, hq, rfl⟩ := h.mem_sweep.1 hpc
    have hform' : q.form = .jump op target := hform
    have hgr' : q.grown = false := by
      simpa [sweptPiece, h.outcome_jump hq hform'] using hgr
    show fitsShort ((plan.sweep true).layout.newOffset q.position target) = true
    have hbnd := (h.valid q hq).bounds
    have hrng := h.in_range hq hform' hgr' fun piece hpc _ => h.keeps hpc
    unfold sweptOffset at hrng
    split at hrng
    · exact hrng
    · -- a target ahead has come nearer, and still lies ahead
      have hold := Layout.shift_min plan.layout h.fits.size target
      have hnew := Layout.shift_min (plan.sweep true).layout (h.toFor.sweep true).fits.size target
      have hsaved := @Plan.For.saved_mono code plan h.toFor code.size (fun piece hpc _ => h.keeps hpc)
        q.position (min target code.size) (by omega) (by omega) (by omega)
      have hspread := (h.chain.spread (fun q hq => (h.swept hq).inside) (fun q hq => h.behind_exact hq)
        (Nat.zero_le q.position) (show q.position ≤ min target code.size by omega) (by omega)).1
      rw [fitsShort_iff] at hrng ⊢
      simp only [Layout.newOffset] at hrng ⊢
      omega

end Sweeping

/-! ### Settling -/

/-- The sweeps of the planner, for as long as it takes. The list says which of them are exact. -/
inductive Plan.Sweeps : Bool → Plan → List Bool → Plan → Prop
  | ends {plan : Plan} (h : (plan.sweep true).grew = false) : Sweeps true plan [true] (plan.sweep true)
  | grows {exact : Bool} {plan last : Plan} {passes : List Bool} (h : (plan.sweep exact).grew = true)
      (hrest : Sweeps false (plan.sweep exact) passes last) : Sweeps exact plan (exact :: passes) last
  | rests {plan last : Plan} {passes : List Bool} (h : (plan.sweep false).grew = false)
      (hrest : Sweeps true (plan.sweep false) passes last) : Sweeps false plan (false :: passes) last

/-- The fuel suffices. There is one exact sweep, at the end, and it starts from a stable estimate. -/
theorem settle_spec {code : Bytes} {fuel : Nat} {exact : Bool} {plan : Plan} (h : Estimated code plan)
    (hexact : exact = true → Stable code plan)
    (hfuel : 2 * ungrown plan.pieces + (if exact then 1 else 2) ≤ fuel) :
    ∃ n est, Plan.Sweeps exact plan (List.replicate n false ++ [true]) (plan.settle fuel exact) ∧
      Stable code est ∧ plan.settle fuel exact = est.sweep true := by
  induction fuel generalizing exact plan with
  | zero => split at hfuel <;> omega
  | succ fuel ih =>
    unfold Plan.settle
    cases exact with
    | true =>
      have hstab := hexact rfl
      simp only [hstab.grew_exact, Bool.false_eq_true, if_false, if_true]
      exact ⟨0, plan, .ends hstab.grew_exact, hstab, rfl⟩
    | false =>
      simp only [Bool.false_eq_true, if_false] at hfuel ⊢
      split
      · have := h.ungrown_sweep ‹_›
        obtain ⟨n, est, hsweeps, hends⟩ := @ih false _ h.sweep (by simp)
          (by simp only [Bool.false_eq_true, if_false]; omega)
        exact ⟨n + 1, est, .grows ‹_› hsweeps, hends⟩
      · have hle := h.ungrown_sweep_le
        rename_i hgrew
        have hgrew := Bool.eq_false_iff.2 hgrew
        obtain ⟨n, est, hsweeps, hends⟩ := @ih true _ h.sweep (fun _ => h.stable_sweep hgrew)
          (by simp only [if_true]; omega)
        exact ⟨n + 1, est, .rests hgrew hsweeps, hends⟩

theorem shift_initial (length x : Nat) : (Layout.initial length).shift x = 0 := by
  have hx : min x length < length + 1 := by omega
  simp [Layout.initial, Layout.shift, hx]

/-- Before the first sweep nothing is inserted. -/
theorem fits_initial (pieces : List Piece) (length : Nat) : (Layout.initial length).Fits pieces length := by
  refine ⟨by simp [Layout.initial], shift_initial length 0, fun piece _ x _ _ => ?_⟩
  rw [shift_initial, shift_initial]

section Scanned

variable {code : Bytes} {pieces : List Piece} (h : scan code = .ok pieces)
include h

theorem estimated_scan : Estimated code { pieces := pieces, layout := .initial code.size } := by
  obtain ⟨hchain, hall⟩ := scan_ok h
  refine ⟨⟨hchain, fun piece hmem => (pieceAt_valid (hall piece hmem)).1, fits_initial _ _⟩, fun piece hmem => ?_⟩
  simp [Layout.behind, shift_initial, extra, (pieceAt_valid (hall piece hmem)).2.2]

theorem plan_spec : ∃ n est, Plan.Sweeps false { pieces := pieces, layout := .initial code.size }
      (List.replicate n false ++ [true]) (plan code.size pieces) ∧
    Stable code est ∧ plan code.size pieces = est.sweep true := by
  refine settle_spec (estimated_scan h) (by simp) ?_
  have := @List.countP_le_length _ (fun piece : Piece => !piece.grown) pieces
  simp only [ungrown, Bool.false_eq_true, if_false]
  omega

/-- The plan for scanned code is settled. -/
theorem plan_settled : Settled code (plan code.size pieces) := by
  obtain ⟨n, est, -, hstab, heq⟩ := plan_spec h
  rw [heq]
  exact hstab.settled

end Scanned

end Widening

end JvmAssembler
