import JvmAssembler.Proofs.Widening.Planning

/-!
# JvmAssembler.Proofs.Widening.Emission

What the writer puts where. `pieceBytes` is the encoding of a piece in the new layout; its length is the length of
the piece with the room that the settled plan leaves behind it, so every piece is written where the layout says.
-/

namespace JvmAssembler

namespace Widening

open Bytes

def wordBytes (layout : Layout) (pos : Nat) : SwitchWord → List UInt8
  | .number value => i4 value
  | .offset value => i4 (layout.newOffset pos (pos + value).toNat)

/-- A piece in the new code, if it starts at `q` there. -/
def pieceBytes (old : Bytes) (layout : Layout) (q : Nat) (piece : Piece) : List UInt8 :=
  match piece.form with
  | .fixed => (old.extract piece.position piece.stop).toList
  | .jump op target => jumpBytes op piece.grown (layout.newOffset piece.position target)
  | .wideJump op offset => op :: i4 (layout.newOffset piece.position (piece.position + offset).toNat)
  | .switch op words =>
    op :: (List.replicate ((4 - (q + 1) % 4) % 4) 0 ++ words.flatMap (wordBytes layout piece.position))

variable {layout : Layout} {code new old : Bytes}

theorem mappedOffset_ok {pos : Nat} {value offset : Int} (h : mappedOffset layout pos value = .ok offset) :
    offset = layout.newOffset pos (pos + value).toNat := by
  unfold mappedOffset at h
  dsimp only at h
  split at h
  · simp [malformed] at h
  · simpa using h.symm

theorem mappedWords_ok {pos : Nat} {words : List SwitchWord} (h : mappedWords layout pos words code = .ok new) :
    new = code.write (words.flatMap (wordBytes layout pos)) := by
  induction words generalizing code with
  | nil => simpa [mappedWords, write] using h.symm
  | cons word words ih =>
    cases word with
    | number value =>
      rw [ih h]
      simp [wordBytes, write]
    | offset value =>
      obtain ⟨offset, hoff, h⟩ := Success.bind_ok.1 h
      rw [ih h, mappedOffset_ok hoff]
      simp [wordBytes, write]

theorem writePiece_ok {piece : Piece} (h : writePiece old layout code piece = .ok new) :
    new = code.write (pieceBytes old layout code.size piece) := by
  obtain ⟨pos, stop, form, grown⟩ := piece
  cases form with
  | fixed =>
    obtain rfl : copy old pos stop code = new := Except.ok.inj h
    rw [write_eq_append]
    rfl
  | jump op target => exact (Except.ok.inj h).symm
  | wideJump op offset =>
    obtain ⟨offset', hoff, h⟩ := Success.bind_ok.1 h
    rw [Success.pure_ok, mappedOffset_ok hoff] at h
    exact h.symm
  | switch op words =>
    rw [mappedWords_ok h, Array.size_push]
    simp [pieceBytes, write]

/-! ### Lengths -/

theorem length_wordBytes (layout : Layout) (pos : Nat) (words : List SwitchWord) :
    (words.flatMap (wordBytes layout pos)).length = 4 * words.length := by
  induction words with
  | nil => rfl
  | cons word words ih =>
    have hword : (wordBytes layout pos word).length = 4 := by cases word <;> rfl
    rw [List.flatMap_cons, List.length_append, hword, ih, List.length_cons]
    omega

theorem length_jumpBytes (op : Opcode) (grown : Bool) (offset : Int) :
    ((jumpBytes op grown offset).length : Int) = 3 + if grown then growth op else 0 := by
  unfold jumpBytes growth
  cases grown with
  | false => rfl
  | true =>
    by_cases hgoto : op = Opcode.goto
    · simp [hgoto]
    · by_cases hjsr : op = Opcode.jsr
      · subst hjsr
        rfl
      · simp [hgoto, hjsr]

/-- A piece takes its old length and the room behind it. -/
theorem length_pieceBytes {q : Nat} {piece : Piece} (h : piece.Valid old)
    (hq : (q : Int) = piece.position + layout.shift piece.position) :
    ((pieceBytes old layout q piece).length : Int) = piece.stop - piece.position + room layout piece := by
  cases h with
  | fixed hlen hfits =>
    simp only [pieceBytes, room, Array.length_toList, Array.size_extract]
    omega
  | jump hop hnode hfits =>
    simp only [pieceBytes, room, length_jumpBytes]
    omega
  | wideJump hop hoff hfits =>
    simp only [pieceBytes, room, List.length_cons, length_i4]
    omega
  | switch hop hnode hwords hfits =>
    simp only [pieceBytes, room, List.length_cons, List.length_append, List.length_replicate,
      length_wordBytes, ControlFlow.operandsAt, ← hq]
    omega

/-! ### All pieces -/

/-- Every piece stands where the layout says, and the code ends where the layout says. -/
theorem writePieces_ok {pieces : List Piece} {start stop : Nat} (hchain : Chain start pieces stop)
    (hpcs : ∀ piece ∈ pieces, piece.Valid old ∧ layout.behind piece = room layout piece)
    (hcode : (code.size : Int) = start + layout.shift start)
    (h : writePieces old layout pieces code = .ok new) :
    (∃ more, new = code ++ more) ∧ (new.size : Int) = stop + layout.shift stop ∧
      ∀ piece ∈ pieces, ∃ q : Nat, (q : Int) = piece.position + layout.shift piece.position ∧
        new.HoldsAt q (pieceBytes old layout q piece) := by
  induction pieces generalizing start code with
  | nil =>
    obtain rfl : start = stop := hchain
    obtain rfl : code = new := by simpa [writePieces] using h
    exact ⟨⟨#[], by simp⟩, hcode, by simp⟩
  | cons piece rest ih =>
    obtain ⟨rfl, hrest⟩ := hchain
    obtain ⟨next, hnext, h⟩ := Success.bind_ok.1 h
    have hnext := writePiece_ok hnext
    obtain ⟨hvld, hbeh⟩ := hpcs piece (by simp)
    have hsize : (next.size : Int) = piece.stop + layout.shift piece.stop := by
      have hlen := length_pieceBytes hvld hcode
      simp only [Layout.behind] at hbeh
      rw [hnext, size_write]
      omega
    obtain ⟨⟨more, hmore⟩, hend, hall⟩ := ih hrest (fun q hq => hpcs q (List.mem_cons_of_mem _ hq))
      hsize h
    rw [write_eq_append] at hnext
    refine ⟨⟨(pieceBytes old layout code.size piece).toArray ++ more, ?_⟩, hend, ?_⟩
    · rw [hmore, hnext, Array.append_assoc]
    · intro other hoth
      rcases List.mem_cons.1 hoth with rfl | hoth
      · refine ⟨code.size, hcode, ?_⟩
        rw [hmore, hnext]
        exact (holdsAt_size_append code _).append more
      · exact hall other hoth

end Widening

end JvmAssembler
