import JvmAssembler.Proofs.ControlFlow
import JvmAssembler.Proofs.Success
import JvmAssembler.Widening

/-!
# JvmAssembler.Proofs.Widening.Scan

What the scanner makes of code: each piece is the instruction that stands at its position (`Piece.Valid`), and the
pieces follow one another from the start of the code to its end (`Chain`).
-/

namespace JvmAssembler

open Success

namespace Widening

open ControlFlow

/-! ### Pieces -/

def switchWord (op : Opcode) (i : Nat) (value : Int) : SwitchWord :=
  if isTarget op i then .offset value else .number value

/-- The words that stand in the code for a switch at `p`. -/
def wordAt (code : Bytes) (p i : Nat) : Int := code.i32At (operandsAt p + 4 * i)

/-- A piece is the instruction that stands at its position. Whether it grows is left open. -/
inductive Piece.Valid (code : Bytes) : Piece → Prop
  | fixed {p length : Nat} {grown : Bool} :
      straightLength? code p (Opcode.shape (code.byteAt p)) = some length → p + length ≤ code.size →
      Valid code ⟨p, p + length, .fixed, grown⟩
  | jump {p target : Nat} {op : Opcode} {grown : Bool} :
      op.shape = .jump → vertexAt? code p = some (.jump op target, p + 3) → p + 3 ≤ code.size →
      Valid code ⟨p, p + 3, .jump op target, grown⟩
  | wideJump {p : Nat} {offset : Int} {grown : Bool} :
      Opcode.shape (code.byteAt p) = .wideJump → offset = code.i32At (p + 1) → p + 5 ≤ code.size →
      Valid code ⟨p, p + 5, .wideJump (code.byteAt p) offset, grown⟩
  | switch {p : Nat} {words : List SwitchWord} {node : Vertex} {grown : Bool} :
      Opcode.shape (code.byteAt p) = .tableSwitch ∨ Opcode.shape (code.byteAt p) = .lookupSwitch →
      switchVertex? (code.byteAt p) p (wordAt code p) = some (node, words.length) →
      words = (List.range words.length).map (fun i => switchWord (code.byteAt p) i (wordAt code p i)) →
      operandsAt p + 4 * words.length ≤ code.size →
      Valid code ⟨p, operandsAt p + 4 * words.length, .switch (code.byteAt p) words, grown⟩

variable {code : Bytes} {p start stop : Nat} {piece : Piece} {pieces : List Piece}

theorem need_ok {n : Nat} {u : Unit} (h : need code p n = .ok u) :
    p + n ≤ code.size := by
  unfold need at h
  split at h
  · assumption
  · simp [malformed] at h

theorem fixedLength_eq {n : Nat} {shape : Shape}
    (h : fixedLength code p shape = .ok n) : straightLength? code p shape = some n := by
  cases shape with
  | wide =>
    obtain ⟨_, _, hlen⟩ := bind_ok.1 h
    simpa [straightLength?] using pure_ok.1 hlen
  | _ => simp_all [fixedLength, straightLength?, malformed]

/-! ### Switches -/

theorem tableWords_eq (code : Bytes) (p count : Nat) :
    [.offset (code.i32At (operandsAt p)), .number (code.i32At (operandsAt p + 4)),
        .number (code.i32At (operandsAt p + 8))] ++ offsetsAt code (operandsAt p + 12) count =
      (List.range (3 + count)).map fun i => switchWord Opcode.tableSwitch i (wordAt code p i) := by
  rw [List.range_add, List.map_append, List.map_map]
  congr 1
  apply List.map_congr_left
  intro i _
  simp [switchWord, isTarget, wordAt, Nat.mul_add, Nat.add_assoc]

theorem pairWords_eq {op : Opcode} (hop : op ≠ Opcode.tableSwitch) (code : Bytes) (p count : Nat) :
    [.offset (code.i32At (operandsAt p)), .number (code.i32At (operandsAt p + 4))] ++
        pairsAt code (operandsAt p + 8) count =
      (List.range (2 + 2 * count)).map fun i => switchWord op i (wordAt code p i) := by
  induction count with
  | zero => simp [pairsAt, List.range_succ, switchWord, isTarget, wordAt, hop]
  | succ n ih =>
    have hpairs : pairsAt code (operandsAt p + 8) (n + 1) = pairsAt code (operandsAt p + 8) n ++
        [.number (wordAt code p (2 + 2 * n)), .offset (wordAt code p (3 + 2 * n))] := by
      simp [pairsAt, List.range_succ, wordAt, Nat.mul_add, Nat.add_assoc, ← Nat.mul_assoc]
      congr 2
      omega
    have hrng : List.range (2 + 2 * (n + 1)) = List.range (2 + 2 * n) ++ [2 + 2 * n, 3 + 2 * n] := by
      rw [show 2 + 2 * (n + 1) = (2 + 2 * n) + 1 + 1 by omega, List.range_succ, List.range_succ]
      simp; omega
    rw [hpairs, hrng, ← List.append_assoc, ih, List.map_append]
    congr 1
    have heven : isTarget op (2 + 2 * n) = false := by simp [isTarget, hop]
    have hodd : isTarget op (3 + 2 * n) = true := by simp [isTarget, hop]
    simp [switchWord, heven, hodd]

theorem switchWords_ok {op : Opcode} {words : List SwitchWord} (h : switchWords code p op = .ok words) :
    (∃ node, switchVertex? op p (wordAt code p) = some (node, words.length)) ∧
      words = (List.range words.length).map (fun i => switchWord op i (wordAt code p i)) ∧
      operandsAt p + 4 * words.length ≤ code.size := by
  have hword1 : wordAt code p 1 = code.i32At (operandsAt p + 4) := rfl
  have hword2 : wordAt code p 2 = code.i32At (operandsAt p + 8) := rfl
  simp only [switchWords, show switchOperands p = operandsAt p from rfl] at h
  obtain ⟨_, _, h⟩ := bind_ok.1 h
  by_cases hop : op = Opcode.tableSwitch
  · subst hop
    rw [if_pos (by simp), ← hword1, ← hword2] at h
    by_cases hbnd : wordAt code p 2 < wordAt code p 1
    · simp [hbnd, malformed, bind, Except.bind] at h
    · rw [if_neg hbnd] at h
      obtain ⟨_, hneed, h⟩ := bind_ok.1 h
      rw [pure_ok, hword1, hword2, tableWords_eq] at h
      subst h
      refine ⟨?_, by simp, by simpa [hword1, hword2] using need_ok hneed⟩
      simp [switchVertex?, hbnd, ← hword1, ← hword2]
  · rw [if_neg (by simpa using hop), ← hword1] at h
    by_cases hcnt : wordAt code p 1 < 0
    · simp [hcnt, malformed, bind, Except.bind] at h
    · rw [if_neg hcnt] at h
      obtain ⟨_, hneed, h⟩ := bind_ok.1 h
      rw [pure_ok, hword1, pairWords_eq hop] at h
      subst h
      refine ⟨?_, by simp, by simpa [hword1] using need_ok hneed⟩
      simp [switchVertex?, hop, hcnt, ← hword1]

/-- What the scanner finds at a position is the instruction that stands there. -/
theorem pieceAt_valid (h : pieceAt code p = .ok piece) :
    piece.Valid code ∧ piece.position = p ∧ piece.grown = false := by
  unfold pieceAt at h
  cases hsh : Opcode.shape (code.byteAt p) with
  | jump =>
    simp only [hsh] at h
    obtain ⟨_, hneed, h⟩ := bind_ok.1 h
    by_cases htgt : (p : Int) + code.i16At (p + 1) < 0
    · simp [htgt, malformed, bind, Except.bind] at h
    · rw [if_neg htgt, pure_ok] at h
      subst h
      refine ⟨.jump hsh ?_ (need_ok hneed), rfl, rfl⟩
      have hcast : (((p : Int) + code.i16At (p + 1)).toNat : Int) = p + code.i16At (p + 1) := by omega
      rw [hcast]
      exact vertexAt?_jump hsh (need_ok hneed)
  | oversizedJump =>
    simp only [hsh] at h
    obtain ⟨_, hneed, h⟩ := bind_ok.1 h
    rw [pure_ok] at h
    subst h
    refine ⟨.jump (Opcode.shape_unmark _ hsh) ?_ (need_ok hneed), rfl, rfl⟩
    exact vertexAt?_oversizedJump hsh (need_ok hneed)
  | wideJump =>
    simp only [hsh] at h
    obtain ⟨_, hneed, h⟩ := bind_ok.1 h
    rw [pure_ok] at h
    subst h
    exact ⟨.wideJump hsh rfl (need_ok hneed), rfl, rfl⟩
  | tableSwitch =>
    simp only [hsh] at h
    obtain ⟨words, hwords, h⟩ := bind_ok.1 h
    rw [pure_ok] at h
    subst h
    obtain ⟨⟨node, hnode⟩, heq, hfits⟩ := switchWords_ok hwords
    exact ⟨.switch (.inl hsh) hnode heq hfits, rfl, rfl⟩
  | lookupSwitch =>
    simp only [hsh] at h
    obtain ⟨words, hwords, h⟩ := bind_ok.1 h
    rw [pure_ok] at h
    subst h
    obtain ⟨⟨node, hnode⟩, heq, hfits⟩ := switchWords_ok hwords
    exact ⟨.switch (.inr hsh) hnode heq hfits, rfl, rfl⟩
  | _ =>
    simp only [hsh] at h
    obtain ⟨length, hlength, h⟩ := bind_ok.1 h
    obtain ⟨_, hneed, h⟩ := bind_ok.1 h
    rw [pure_ok] at h
    subst h
    exact ⟨.fixed (hsh ▸ fixedLength_eq hlength) (need_ok hneed), rfl, rfl⟩

theorem Piece.Valid.bounds (h : piece.Valid code) :
    piece.position < piece.stop ∧ piece.stop ≤ code.size := by
  cases h with
  | fixed hlength hfits =>
    have := straightLength?_pos hlength
    exact ⟨by dsimp only; omega, hfits⟩
  | jump _ _ hfits => exact ⟨by dsimp only; omega, hfits⟩
  | wideJump _ _ hfits => exact ⟨by dsimp only; omega, hfits⟩
  | switch _ _ _ hfits => exact ⟨by dsimp only [operandsAt]; omega, hfits⟩

/-- Growing changes nothing about the instruction that a piece is. -/
theorem Piece.Valid.regrown (h : piece.Valid code) (grown : Bool) :
    Piece.Valid code { piece with grown := grown } := by
  cases h with
  | fixed hlength hfits => exact .fixed hlength hfits
  | jump hop hnode hfits => exact .jump hop hnode hfits
  | wideJump hop hoff hfits => exact .wideJump hop hoff hfits
  | switch hop hnode hwords hfits => exact .switch hop hnode hwords hfits

theorem Piece.Valid.vertexAt (h : piece.Valid code) :
    ∃ node, vertexAt? code piece.position = some (node, piece.stop) := by
  cases h with
  | fixed hlength hfits => exact ⟨_, vertexAt?_straight hlength hfits⟩
  | jump _ hnode _ => exact ⟨_, hnode⟩
  | wideJump hop _ hfits => exact ⟨_, vertexAt?_wideJump hop hfits⟩
  | switch hop hnode _ hfits => exact ⟨_, vertexAt?_switch hop hnode hfits⟩

/-! ### Chains -/

/-- The pieces follow one another without a gap. -/
def Chain : Nat → List Piece → Nat → Prop
  | start, [], stop => start = stop
  | start, piece :: pieces, stop => piece.position = start ∧ Chain piece.stop pieces stop

theorem Chain.le (h : Chain start pieces stop) (hpos : ∀ piece ∈ pieces, piece.position < piece.stop) : start ≤ stop := by
  induction pieces generalizing start with
  | nil => exact Nat.le_of_eq h
  | cons piece rest ih =>
    obtain ⟨rfl, hrest⟩ := h
    have hpc := hpos piece (by simp)
    have := ih hrest fun q hq => hpos q (List.mem_cons_of_mem _ hq)
    omega

theorem scanFrom_ok {fuel : Nat} {done result : Array Piece}
    (hfuel : code.size ≤ p + fuel) (hp : p ≤ code.size) (h : scanFrom code fuel p done = .ok result) :
    ∃ pieces, result.toList = done.toList ++ pieces ∧ Chain p pieces code.size ∧
      ∀ piece ∈ pieces, pieceAt code piece.position = .ok piece := by
  induction fuel generalizing p done with
  | zero =>
    simp only [scanFrom, Except.ok.injEq] at h
    exact ⟨[], by simp [h], by simp only [Chain]; omega, by simp⟩
  | succ fuel ih =>
    unfold scanFrom at h
    by_cases hlt : p < code.size
    · rw [if_pos hlt] at h
      obtain ⟨piece, hpc, h⟩ := bind_ok.1 h
      obtain ⟨hvld, hposition, -⟩ := pieceAt_valid hpc
      have hbnd := hvld.bounds
      obtain ⟨pieces, heq, hchain, hall⟩ := ih (by omega) hbnd.2 h
      refine ⟨piece :: pieces, by simp [heq], ⟨hposition, hchain⟩, fun q hq => ?_⟩
      rcases List.mem_cons.1 hq with rfl | hq
      · rw [hposition]
        exact hpc
      · exact hall q hq
    · rw [if_neg hlt] at h
      simp only [Except.ok.injEq] at h
      exact ⟨[], by simp [h], by simp only [Chain]; omega, by simp⟩

/-- Scanning divides the code into the instructions that stand in it. -/
theorem scan_ok (h : scan code = .ok pieces) :
    Chain 0 pieces code.size ∧ ∀ piece ∈ pieces, pieceAt code piece.position = .ok piece := by
  obtain ⟨result, hscan, h⟩ := bind_ok.1 h
  rw [pure_ok] at h
  obtain ⟨pieces', heq, hchain, hall⟩ := scanFrom_ok (by omega) (Nat.zero_le _) hscan
  obtain rfl : pieces' = pieces := by simpa [heq] using h
  exact ⟨hchain, hall⟩

/-- Behind a piece of a chain comes another piece, or the chain ends. -/
theorem Chain.next (h : Chain start pieces stop)
    (hmem : piece ∈ pieces) : piece.stop = stop ∨ ∃ other ∈ pieces, other.position = piece.stop := by
  induction pieces generalizing start with
  | nil => simp at hmem
  | cons head rest ih =>
    obtain ⟨_, hrest⟩ := h
    rcases List.mem_cons.1 hmem with rfl | hmem
    · cases rest with
      | nil => exact .inl hrest
      | cons other rest => exact .inr ⟨other, by simp, hrest.1⟩
    · rcases ih hrest hmem with hstop | ⟨other, hoth, hposition⟩
      · exact .inl hstop
      · exact .inr ⟨other, List.mem_cons_of_mem _ hoth, hposition⟩

/-- The boundaries of scanned code are the positions of its pieces, and its end. -/
theorem boundary_piece (hchain : Chain 0 pieces code.size) (hvld : ∀ piece ∈ pieces, piece.Valid code) (h : Boundary code p) :
    p = code.size ∨ ∃ piece ∈ pieces, piece.position = p := by
  induction h with
  | start =>
    cases pieces with
    | nil => exact .inl hchain
    | cons piece rest => exact .inr ⟨piece, by simp, hchain.1⟩
  | @next p stop node _ hnode ih =>
    rcases ih with rfl | ⟨piece, hmem, rfl⟩
    · have := vertexAt?_bounds hnode
      omega
    · obtain ⟨node', hnode'⟩ := (hvld piece hmem).vertexAt
      obtain ⟨_, rfl⟩ : node = node' ∧ stop = piece.stop := by simpa [hnode] using hnode'
      rcases hchain.next hmem with hstop | hoth
      · exact .inl hstop
      · exact .inr hoth

theorem Chain.boundary (hchain : Chain start pieces stop) (hvld : ∀ piece ∈ pieces, piece.Valid code)
    (hst : Boundary code start) :
    Boundary code stop ∧ ∀ piece ∈ pieces, Boundary code piece.position := by
  induction pieces generalizing start with
  | nil =>
    obtain rfl : start = stop := hchain
    exact ⟨hst, by simp⟩
  | cons piece rest ih =>
    obtain ⟨rfl, hrest⟩ := hchain
    obtain ⟨node, hnode⟩ := (hvld piece (by simp)).vertexAt
    obtain ⟨hstop, hall⟩ := ih hrest (fun q hq => hvld q (List.mem_cons_of_mem _ hq))
      (.next hst hnode)
    refine ⟨hstop, fun q hq => ?_⟩
    rcases List.mem_cons.1 hq with rfl | hq
    · exact hst
    · exact hall q hq

end Widening

end JvmAssembler
