import JvmAssembler.Proofs.Widening.Emission

/-!
# JvmAssembler.Proofs.Widening.Carried

What becomes of each instruction when code is widened (`Carried`), read off the bytes that are written.
-/

namespace JvmAssembler

namespace Widening

open Bytes ControlFlow

/-- An instruction that is not a marked jump. -/
def Finished (code : Bytes) (p : Nat) (node : Vertex) (stop : Nat) : Prop :=
  vertexAt? code p = some (node, stop) ∧ Opcode.isMarker (code.byteAt p) = false

/-- What has become of an instruction that stood from `p` to `stop`, if `move` says where positions have moved. -/
inductive Carried (new : Bytes) (move : Nat → Nat) (p stop : Nat) : Vertex → Prop
  /-- It is the same instruction, with its targets moved. -/
  | kept {node : Vertex} :
      Finished new (move p) (node.retarget fun t => move t.toNat) (move stop) → Carried new move p stop node
  | wideGoto {t : Nat} :
      Finished new (move p) (.jump Opcode.gotoW (move t)) (move stop) →
      Carried new move p stop (.jump Opcode.goto t)
  | wideCall {t : Nat} :
      Finished new (move p) (.jump Opcode.jsrW (move t)) (move stop) →
      Carried new move p stop (.jump Opcode.jsr t)
  /-- A conditional jump has become one on the opposite condition over a wide one. -/
  | inverted {op : Opcode} {t : Nat} :
      isConditional op = true →
      Finished new (move p) (.jump op.invert (move stop)) (move p + 3) →
      Finished new (move p + 3) (.jump Opcode.gotoW (move t)) (move stop) →
      Carried new move p stop (.jump op t)

/-! ### Reading what was written -/

section Reading

variable {new : Bytes} {q : Nat}

theorem finished_jump {op : Opcode} {offset : Int} (hop : op.shape = .jump)
    (hshort : fitsShort offset = true) (h : new.HoldsAt q (op :: i2 offset)) :
    Finished new q (.jump op (q + offset)) (q + 3) := by
  obtain ⟨hbyte, hoff⟩ := holdsAt_cons.1 h
  have hfits := h.le_size (by simp)
  rw [fitsShort_iff] at hshort
  refine ⟨?_, ?_⟩
  · rw [vertexAt?_jump (by rw [hbyte.byteAt, hop]) hfits, hbyte.byteAt, hoff.i16At hshort.1 hshort.2]
  · rw [hbyte.byteAt]
    exact Opcode.isMarker_eq_false _ (by rw [hop]; simp)

theorem finished_wideJump {op : Opcode} {offset : Int} (hop : op.shape = .wideJump)
    (hlow : -2147483648 ≤ offset) (hhigh : offset ≤ 2147483647) (h : new.HoldsAt q (op :: i4 offset)) :
    Finished new q (.jump op (q + offset)) (q + 5) := by
  obtain ⟨hbyte, hoff⟩ := holdsAt_cons.1 h
  have hfits := h.le_size (by simp)
  refine ⟨?_, ?_⟩
  · rw [vertexAt?_wideJump (by rw [hbyte.byteAt, hop]) hfits, hbyte.byteAt, hoff.i32At hlow hhigh]
  · rw [hbyte.byteAt]
    exact Opcode.isMarker_eq_false _ (by rw [hop]; simp)

theorem finished_straight {old : Bytes} {p length : Nat}
    (hlen : straightLength? old p (Opcode.shape (old.byteAt p)) = some length)
    (hfits : p + length ≤ old.size) (h : new.HoldsAt q (old.extract p (p + length)).toList) :
    Finished new q (.straight (old.extract p (p + length)).toList) (q + length) := by
  have hpos := straightLength?_pos hlen
  have hsize : (old.extract p (p + length)).toList.length = length := by simp; omega
  have hbs : ∀ j < length, new.byteAt (q + j) = old.byteAt (p + j) := by
    intro j hj
    rw [h.byteAt_add (by omega), (holdsAt_extract old p (p + length)).byteAt_add (by omega)]
  have hop : new.byteAt q = old.byteAt p := hbs 0 hpos
  refine ⟨?_, ?_⟩
  · have hlen' : straightLength? new q (Opcode.shape (new.byteAt q)) = some length := by
      rw [hop]
      exact straightLength?_congr hlen (hbs 1)
    have hle := h.le_size (by rw [← List.length_pos_iff]; omega)
    rw [hsize] at hle
    have hextract := h.toList_extract
    rw [hsize] at hextract
    rw [vertexAt?_straight hlen' hle, hextract]
  · rw [hop]
    apply Opcode.isMarker_eq_false
    intro hsh
    simp [hsh, straightLength?] at hlen

theorem finished_switch {old : Bytes} {layout : Layout} {p : Nat} {words : List SwitchWord} {node : Vertex} {f : Int → Int}
    (hop : Opcode.shape (old.byteAt p) = .tableSwitch ∨ Opcode.shape (old.byteAt p) = .lookupSwitch)
    (hnode : switchVertex? (old.byteAt p) p (wordAt old p) = some (node, words.length))
    (hwords : words = (List.range words.length).map
      (fun i => switchWord (old.byteAt p) i (wordAt old p i)))
    (htgt : ∀ t ∈ node.targets, layout.newOffset p t.toNat = f t - q ∧
      -2147483648 ≤ f t - q ∧ f t - q ≤ 2147483647)
    (h : new.HoldsAt q (old.byteAt p ::
      (List.replicate ((4 - (q + 1) % 4) % 4) 0 ++ words.flatMap (wordBytes layout p)))) :
    Finished new q (node.retarget f) (operandsAt q + 4 * words.length) := by
  obtain ⟨hbyte, hrest⟩ := holdsAt_cons.1 h
  have hst : q + 1 + (4 - (q + 1) % 4) % 4 = operandsAt q := by simp only [operandsAt]; omega
  have hbody := (holdsAt_append.1 hrest).2
  rw [List.length_replicate, hst] at hbody
  have hfits := h.le_size (by simp)
  simp only [List.length_cons, List.length_append, List.length_replicate, length_wordBytes] at hfits
  -- each word is read back: the numbers as they were, the offsets as the layout maps them
  have hread : ∀ i < words.length, new.i32At (operandsAt q + 4 * i) =
      if isTarget (old.byteAt p) i then f (p + wordAt old p i) - q else wordAt old p i := by
    intro i hi
    rw [hwords, List.flatMap_map] at hbody
    have hword := hbody.flatMap_getElem (n := 4)
      (fun j => by simp only [switchWord]; split <;> rfl) (by simpa using hi)
    rw [List.getElem_range] at hword
    have hold := i32At_bounds old (operandsAt p + 4 * i)
    cases htgt' : isTarget (old.byteAt p) i with
    | false =>
      simp only [switchWord, htgt', Bool.false_eq_true, if_false, wordBytes] at hword ⊢
      exact hword.i32At hold.1 hold.2
    | true =>
      obtain ⟨hoff, hlow, hhigh⟩ := htgt _ (switchVertex?_target hnode hi htgt')
      simp only [switchWord, htgt', if_true, wordBytes, hoff] at hword ⊢
      exact hword.i32At hlow hhigh
  refine ⟨?_, ?_⟩
  · apply vertexAt?_switch
    · rw [hbyte.byteAt]
      exact hop
    · rw [hbyte.byteAt]
      exact switchVertex?_retarget hnode hread
    · omega
  · rw [hbyte.byteAt]
    apply Opcode.isMarker_eq_false
    rcases hop with hop | hop <;> simp [hop]

end Reading

/-! ### Positions -/

theorem room_bounds {code : Bytes} {piece : Piece} (h : piece.Valid code) (layout : Layout) :
    0 ≤ (piece.stop : Int) - piece.position + room layout piece ∧ room layout piece ≤ 5 := by
  have hbnd := h.bounds
  have hlen := @Piece.Valid.switch_length code piece h
  obtain ⟨position, stop, form, grown⟩ := piece
  dsimp only at hbnd hlen ⊢
  cases form with
  | jump op target =>
    have hgrowth : 0 ≤ growth op ∧ growth op ≤ 5 := by simp only [growth]; split <;> decide
    simp only [room]
    split <;> omega
  | switch op words =>
    have := hlen rfl
    simp only [room]
    omega
  | _ => simp only [room]; omega

section Settled

variable {code new : Bytes} {plan : Plan}

/-- Where the instructions of the code are in the new code. -/
theorem Settled.newPosition_eq (h : Settled code plan) {x : Nat} (hx : Boundary code x) :
    (plan.layout.newPosition x : Int) = x + plan.layout.shift x ∧
      plan.layout.newPosition x ≤ 6 * code.size := by
  have hreaches := @Chain.reaches
    (fun x => x ≤ code.size ∧ 0 ≤ x + plan.layout.shift x ∧ plan.layout.shift x ≤ 5 * x) _ _ _ h.chain
    ⟨Nat.zero_le _, by rw [h.fits.start]; decide, by rw [h.fits.start]; decide⟩
    (fun piece hmem hpc => by
      have hbnd := (h.valid piece hmem).bounds
      have hroom := room_bounds (h.valid piece hmem) plan.layout
      have hbeh := h.behind piece hmem
      simp only [Layout.behind] at hbeh
      omega)
  have hx : x ≤ code.size ∧ 0 ≤ x + plan.layout.shift x ∧ plan.layout.shift x ≤ 5 * x := by
    rcases boundary_piece h.chain h.valid hx with rfl | ⟨piece, hmem, rfl⟩
    · exact hreaches.1
    · exact hreaches.2 piece hmem
  simp only [Layout.newPosition]
  omega

theorem Settled.newOffset_eq (h : Settled code plan) {x y : Nat} (hx : Boundary code x) (hy : Boundary code y) :
    plan.layout.newOffset x y = (plan.layout.newPosition y : Int) - plan.layout.newPosition x := by
  rw [(h.newPosition_eq hx).1, (h.newPosition_eq hy).1, Layout.newOffset]

/-- The end of a piece in the new code. -/
theorem Settled.newPosition_stop (h : Settled code plan) {piece : Piece} (hmem : piece ∈ plan.pieces)
    (hposition : Boundary code piece.position) :
    (plan.layout.newPosition piece.stop : Int) =
      plan.layout.newPosition piece.position + (piece.stop - piece.position) + room plan.layout piece := by
  obtain ⟨node, hnode⟩ := (h.valid piece hmem).vertexAt
  have hbeh := h.behind piece hmem
  rw [Layout.behind] at hbeh
  rw [(h.newPosition_eq hposition).1, (h.newPosition_eq (.next hposition hnode)).1]
  omega

/-- Where and how a piece is written. -/
structure Standing (code new : Bytes) (plan : Plan) (piece : Piece) : Prop where
  mem : piece ∈ plan.pieces
  boundary : Boundary code piece.position
  bytes : new.HoldsAt (plan.layout.newPosition piece.position)
    (pieceBytes code plan.layout (plan.layout.newPosition piece.position) piece)

theorem Settled.standing (h : Settled code plan) (hwr : writePieces code plan.layout plan.pieces #[] = .ok new) :
    new.size = plan.layout.newPosition code.size ∧ ∀ piece ∈ plan.pieces, Standing code new plan piece := by
  obtain ⟨hend, hall⟩ := h.chain.boundary h.valid .start
  obtain ⟨_, hsize, hpcs⟩ := writePieces_ok h.chain
    (fun piece hmem => ⟨h.valid piece hmem, h.behind piece hmem⟩) (by simp [h.fits.start]) hwr
  refine ⟨?_, fun piece hmem => ⟨hmem, hall piece hmem, ?_⟩⟩
  · have := (h.newPosition_eq hend).1
    omega
  · obtain ⟨q, hq, hbs⟩ := hpcs piece hmem
    have hq' := (h.newPosition_eq (hall piece hmem)).1
    obtain rfl : q = plan.layout.newPosition piece.position := by omega
    exact hbs

/-- A jump is kept, or it is widened. -/
theorem Settled.carried_jump (h : Settled code plan) (hsize : code.size ≤ 65535) {p t : Nat} {op : Opcode}
    {grown : Bool} (hop : op.shape = .jump) (hs : Standing code new plan ⟨p, p + 3, .jump op t, grown⟩)
    (ht : Boundary code t) : Carried new plan.layout.newPosition p (p + 3) (.jump op t) := by
  have hp : Boundary code p := hs.boundary
  have hstop := h.newPosition_stop hs.mem hp
  have hoff := h.newOffset_eq hp ht
  have hbs := hs.bytes
  have hmovep := (h.newPosition_eq hp).2
  have hmovet := (h.newPosition_eq ht).2
  have htgt : ∀ x y : Int, x + (y - x) = y := by omega
  simp only [pieceBytes, room, jumpBytes] at hbs hstop
  cases grown with
  | false =>
    have hjump := finished_jump hop (h.short _ hs.mem op t rfl rfl) hbs
    simp only [Bool.false_eq_true, if_false] at hstop
    rw [hoff, htgt] at hjump
    rw [show plan.layout.newPosition p + 3 = plan.layout.newPosition (p + 3) by omega] at hjump
    exact .kept hjump
  | true =>
    by_cases hgoto : op = Opcode.goto
    · subst hgoto
      have hjump := finished_wideJump Opcode.shape_gotoW (by omega) (by omega) hbs
      simp only [growth, beq_self_eq_true, Bool.true_or, if_true] at hstop
      rw [hoff, htgt] at hjump
      rw [show plan.layout.newPosition p + 5 = plan.layout.newPosition (p + 3) by omega] at hjump
      exact .wideGoto hjump
    · by_cases hjsr : op = Opcode.jsr
      · subst hjsr
        have hjump := finished_wideJump Opcode.shape_jsrW (by omega) (by omega) hbs
        have hgrowth : growth Opcode.jsr = 2 := rfl
        simp only [hgrowth, if_true] at hstop
        rw [hoff, htgt] at hjump
        rw [show plan.layout.newPosition p + 5 = plan.layout.newPosition (p + 3) by omega] at hjump
        exact .wideCall hjump
      · have hcond : isConditional op = true := by simp [isConditional, hop, hgoto, hjsr]
        have hgrowth : growth op = 5 := by simp [growth, hgoto, hjsr]
        simp only [hgrowth, if_true] at hstop
        simp only [Bool.not_true, Bool.false_eq_true, if_false, beq_iff_eq, hgoto, hjsr] at hbs
        obtain ⟨hover, hwide⟩ := holdsAt_append.1 hbs
        have hjump := finished_jump (shape_invert op hcond) (show fitsShort 8 = true by decide) hover
        have hgotoW := finished_wideJump Opcode.shape_gotoW (by omega) (by omega) hwide
        simp only [List.length_cons, length_u2, Nat.reduceAdd, hoff] at hgotoW
        refine .inverted hcond ?_ ?_
        · rw [show ((plan.layout.newPosition p : Int) + 8) = plan.layout.newPosition (p + 3) by omega] at hjump
          exact hjump
        · rw [show ((plan.layout.newPosition p + 3 : Nat) : Int) +
              (plan.layout.newPosition t - plan.layout.newPosition p - 3) = plan.layout.newPosition t by omega,
            show plan.layout.newPosition p + 3 + 5 = plan.layout.newPosition (p + 3) by omega] at hgotoW
          exact hgotoW

/-- Whatever stands in the code is carried over. -/
theorem Settled.carried (h : Settled code plan) (hsize : code.size ≤ 65535) (htgts : WellTargeted code)
    (hwr : writePieces code plan.layout plan.pieces #[] = .ok new) {p stop : Nat} {node : Vertex}
    (hp : Boundary code p) (hnode : vertexAt? code p = some (node, stop)) :
    Carried new plan.layout.newPosition p stop node := by
  have htgts := htgts p stop node hp hnode
  have hbnd := vertexAt?_bounds hnode
  obtain ⟨piece, hmem, rfl⟩ := (boundary_piece h.chain h.valid hp).resolve_left (by omega)
  have hs := (h.standing hwr).2 piece hmem
  have hvld := h.valid piece hmem
  have hstop := h.newPosition_stop hmem hp
  have hbs := hs.bytes
  cases hvld with
  | @fixed p length grown hlen hfits =>
    cases (vertexAt?_straight hlen hfits).symm.trans hnode
    have hstraight := finished_straight hlen hfits hbs
    simp only [room] at hstop
    rw [show plan.layout.newPosition p + length = plan.layout.newPosition (p + length) by omega]
      at hstraight
    exact .kept hstraight
  | @jump p t op grown hop hnode' hfits =>
    cases hnode'.symm.trans hnode
    obtain ⟨q, hq, ht⟩ := htgts t (by simp [Vertex.targets])
    obtain rfl : t = q := by omega
    exact h.carried_jump hsize hop hs ht
  | @wideJump p offset grown hop hoff hfits =>
    cases (vertexAt?_wideJump hop hfits).symm.trans hnode
    dsimp only at hp
    obtain ⟨t, hq, ht⟩ := htgts _ (List.mem_cons_self)
    have hmovep := (h.newPosition_eq hp).2
    have hmovet := (h.newPosition_eq ht).2
    simp only [pieceBytes, room, hoff, hq, Int.toNat_natCast, h.newOffset_eq hp ht] at hbs hstop
    have hjump := finished_wideJump hop (by omega) (by omega) hbs
    rw [show ∀ x y : Int, x + (y - x) = y by omega,
      show plan.layout.newPosition p + 5 = plan.layout.newPosition (p + 5) by omega] at hjump
    rw [hq]
    exact .kept hjump
  | @switch p words node' grown hop hnode' hwords hfits =>
    cases (vertexAt?_switch hop hnode' hfits).symm.trans hnode
    dsimp only at hp
    have hmovep := h.newPosition_eq hp
    have htgt : ∀ t ∈ node.targets,
        plan.layout.newOffset p t.toNat =
          (plan.layout.newPosition t.toNat : Int) - plan.layout.newPosition p ∧
        -2147483648 ≤ (plan.layout.newPosition t.toNat : Int) - plan.layout.newPosition p ∧
        (plan.layout.newPosition t.toNat : Int) - plan.layout.newPosition p ≤ 2147483647 := by
      intro t ht
      obtain ⟨q, rfl, hq⟩ := htgts t ht
      have hmoveq := (h.newPosition_eq hq).2
      rw [Int.toNat_natCast, h.newOffset_eq hp hq]
      exact ⟨rfl, by omega, by omega⟩
    have hswitch := @finished_switch new _ code plan.layout p words node
      (fun t => plan.layout.newPosition t.toNat) hop hnode' hwords htgt hbs
    simp only [room] at hstop
    rw [show operandsAt (plan.layout.newPosition p) + 4 * words.length =
      plan.layout.newPosition (operandsAt p + 4 * words.length) by simp only [operandsAt] at hstop ⊢; omega]
      at hswitch
    exact .kept hswitch

end Settled

end Widening

end JvmAssembler
