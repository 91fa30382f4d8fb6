import JvmAssembler.Opcode
import JvmAssembler.Bytes

/-!
# JvmAssembler.Proofs.Bytes

Reading back what was written.

All index arithmetic on byte buffers is kept here. `HoldsAt` says that some bytes stand at a position; it
splits along appended lists, and each number that `Bytes` can write is read back from where it stands, as
far as it fits in its field.
-/

namespace JvmAssembler

namespace Bytes

/-- The bytes `bs` stand in the buffer from position `i` on. -/
def HoldsAt (bytes : Bytes) (i : Nat) (bs : List UInt8) : Prop := bs <+: bytes.toList.drop i

variable {bytes : Bytes} {i n : Nat} {bs : List UInt8} {x : Int}

theorem holdsAt_append {as : List UInt8} :
    bytes.HoldsAt i (as ++ bs) ↔ bytes.HoldsAt i as ∧ bytes.HoldsAt (i + as.length) bs := by
  unfold HoldsAt
  rw [← List.drop_drop]
  constructor
  · rintro ⟨rest, h⟩
    rw [← h, List.append_assoc, List.drop_left]
    exact ⟨List.prefix_append _ _, List.prefix_append _ _⟩
  · rintro ⟨⟨rest, h⟩, h'⟩
    rw [← h, List.drop_left] at h'
    rw [← h]
    exact List.prefix_append_right_inj as |>.2 h'

theorem holdsAt_cons {b : UInt8} :
    bytes.HoldsAt i (b :: bs) ↔ bytes.HoldsAt i [b] ∧ bytes.HoldsAt (i + 1) bs :=
  @holdsAt_append bytes i bs [b]

/-- Bytes that stand somewhere lie within the buffer. -/
theorem HoldsAt.le_size (h : bytes.HoldsAt i bs) (hne : bs ≠ []) : i + bs.length ≤ bytes.size := by
  have hlen : bs.length ≤ bytes.size - i := by simpa using List.IsPrefix.length_le h
  have hpos := List.length_pos_iff.2 hne
  omega

theorem HoldsAt.byteAt {b : UInt8} (h : bytes.HoldsAt i [b]) :
    bytes.byteAt i = b := by
  have hlt : i < bytes.size := h.le_size (List.cons_ne_nil b [])
  obtain ⟨rest, h⟩ := h
  have hget : bytes.toList[i]? = some b := by
    have := congrArg (·[0]?) h
    simpa using this.symm
  rw [Array.getElem?_toList, Array.getElem?_eq_getElem hlt] at hget
  rw [Bytes.byteAt, Array.getD_eq_getD_getElem?, Array.getElem?_eq_getElem hlt, hget]
  rfl

/-- A byte in the middle of what stands somewhere. -/
theorem HoldsAt.byteAt_add {j : Nat} (h : bytes.HoldsAt i bs) (hj : j < bs.length) : bytes.byteAt (i + j) = bs.getD j 0 := by
  obtain ⟨rest, h⟩ := h
  have hget : bytes.toList[i + j]? = bs[j]? := by
    rw [← List.getElem?_drop, ← h, List.getElem?_append_left hj]
  rw [Array.getElem?_toList] at hget
  rw [Bytes.byteAt, Array.getD_eq_getD_getElem?, hget, List.getD_eq_getElem?_getD]

theorem HoldsAt.toList_extract (h : bytes.HoldsAt i bs) :
    (bytes.extract i (i + bs.length)).toList = bs := by
  rw [Array.toList_extract, List.extract_eq_take_drop, Nat.add_sub_cancel_left]
  exact (List.prefix_iff_eq_take.1 h).symm

theorem holdsAt_extract (bytes : Bytes) (i j : Nat) : bytes.HoldsAt i (bytes.extract i j).toList := by
  unfold HoldsAt
  rw [Array.toList_extract, List.extract_eq_take_drop]
  exact List.take_prefix _ _

/-- What stands somewhere stands there also when more is appended. -/
theorem HoldsAt.append (h : bytes.HoldsAt i bs) (more : Bytes) : HoldsAt (bytes ++ more) i bs := by
  unfold HoldsAt at h ⊢
  by_cases hi : i ≤ bytes.toList.length
  · rw [Array.toList_append, List.drop_append_of_le_length hi]
    exact h.trans (List.prefix_append _ _)
  · rw [List.drop_eq_nil_of_le (by omega), List.prefix_nil] at h
    rw [h]
    exact List.nil_prefix

theorem holdsAt_size_append (bytes more : Bytes) : HoldsAt (bytes ++ more) bytes.size more.toList := by
  have hdrop : (bytes ++ more).toList.drop bytes.size = more.toList := by
    rw [Array.toList_append, ← Array.length_toList, List.drop_left]
  exact ⟨[], (List.append_nil _).trans hdrop.symm⟩

theorem write_eq_append (bytes : Bytes) (bs : List UInt8) : bytes.write bs = bytes ++ bs.toArray := by
  apply Array.toList_inj.1
  simp

@[simp] theorem size_write (bytes : Bytes) (bs : List UInt8) :
    (bytes.write bs).size = bytes.size + bs.length := by
  simp [write_eq_append]

theorem length_flatMap_of_length {α : Type} {f : α → List UInt8} (hf : ∀ x, (f x).length = n)
    (xs : List α) : (xs.flatMap f).length = n * xs.length := by
  simp [List.length_flatMap, hf, List.map_const', Nat.mul_comm]

/-- One of several items of the same length. -/
theorem HoldsAt.flatMap_getElem {α : Type} {xs : List α} {f : α → List UInt8}
    (hf : ∀ x, (f x).length = n) (h : bytes.HoldsAt i (xs.flatMap f)) {j : Nat} (hj : j < xs.length) :
    bytes.HoldsAt (i + n * j) (f xs[j]) := by
  induction xs generalizing i j with
  | nil => cases hj
  | cons x xs ih =>
    rw [List.flatMap_cons, holdsAt_append, hf] at h
    cases j with
    | zero => exact h.1
    | succ j =>
      have hrest := ih h.2 (Nat.lt_of_succ_lt_succ hj)
      rw [Nat.add_assoc, Nat.add_comm n, ← Nat.mul_succ] at hrest
      exact hrest

/-! ### Numbers -/

theorem HoldsAt.u16At (h : bytes.HoldsAt i (u2 n)) :
    bytes.u16At i = n % 65536 := by
  obtain ⟨h0, h1⟩ := holdsAt_cons.1 h
  simp only [Bytes.u16At, h0.byteAt, h1.byteAt, UInt8.toNat_ofNat', Nat.shiftRight_eq_div_pow]
  omega

theorem HoldsAt.u32At (h : bytes.HoldsAt i (u4 n)) :
    bytes.u32At i = n % 4294967296 := by
  have hsplit : u4 n = u2 (n >>> 16) ++ u2 n := by
    simp [u4, u2, ← Nat.shiftRight_add]
  rw [hsplit] at h
  obtain ⟨h0, h1⟩ := holdsAt_append.1 h
  simp only [length_u2] at h1
  simp only [Bytes.u32At, h0.u16At, h1.u16At, Nat.shiftRight_eq_div_pow]
  omega

/-- A signed number that fits in a byte is read back. -/
theorem toInt_toInt8_ofNat (hlow : -128 ≤ x) (hhigh : x ≤ 127) :
    (UInt8.ofNat (x % 256).toNat).toInt8.toInt = x := by
  have hbits : (UInt8.ofNat (x % 256).toNat).toInt8.toInt = (BitVec.ofNat 8 (x % 256).toNat).toInt := rfl
  rw [hbits, BitVec.toInt_eq_toNat_bmod, BitVec.toNat_ofNat, Int.bmod]
  omega

/-- A signed number that fits in two bytes is read back. -/
theorem HoldsAt.i16At (h : bytes.HoldsAt i (i2 x)) (hlow : -32768 ≤ x) (hhigh : x ≤ 32767) : bytes.i16At i = x := by
  have hread : bytes.u16At i = (x % 65536).toNat % 65536 := HoldsAt.u16At h
  simp only [Bytes.i16At, hread]
  omega

/-- A signed number that fits in four bytes is read back. -/
theorem HoldsAt.i32At (h : bytes.HoldsAt i (i4 x)) (hlow : -2147483648 ≤ x) (hhigh : x ≤ 2147483647) : bytes.i32At i = x := by
  have hread : bytes.u32At i = (x % 4294967296).toNat % 4294967296 := HoldsAt.u32At h
  simp only [Bytes.i32At, hread]
  omega

theorem u16At_lt (bytes : Bytes) (i : Nat) : bytes.u16At i < 65536 := by
  have h0 := (bytes.byteAt i).toNat_lt
  have h1 := (bytes.byteAt (i + 1)).toNat_lt
  simp only [Bytes.u16At]
  omega

theorem i32At_bounds (bytes : Bytes) (i : Nat) :
    -2147483648 ≤ bytes.i32At i ∧ bytes.i32At i ≤ 2147483647 := by
  have h0 := u16At_lt bytes i
  have h1 := u16At_lt bytes (i + 2)
  simp only [Bytes.i32At, Bytes.u32At]
  omega

/-- Overwriting a part of a buffer with as many bytes. -/
theorem toList_patch {before old after : List UInt8} (new : List UInt8)
    (h : bytes.toList = before ++ old ++ after) (hlength : new.length = old.length) :
    (bytes.patch before.length new).toList = before ++ new ++ after := by
  induction new generalizing bytes before old with
  | nil =>
    have hold : old = [] := List.eq_nil_of_length_eq_zero hlength.symm
    rw [hold] at h
    exact h
  | cons b new ih =>
    cases old with
    | nil => cases hlength
    | cons a old =>
      have hset : (bytes.setIfInBounds before.length b).toList = (before ++ [b]) ++ old ++ after := by
        rw [Array.toList_setIfInBounds, h]
        simp
      have hrest := ih hset (by simpa using hlength)
      rw [List.length_append] at hrest
      rw [Bytes.patch]
      simpa using hrest

end Bytes

end JvmAssembler
