import JvmAssembler.Text.ModifiedUtf8
import Mathlib

/-!
# JvmAssembler.Proofs.Text

Reading texts back from their bytes. The bytes are cut into groups, one for each UTF-16 unit, and the units are joined to
characters. Every text is read back from its bytes (`decode_encode`).
-/

namespace JvmAssembler.Text

/-! ### Units -/

theorem units_lt (c : Char) : ∀ u ∈ units c, u < 65536 := by
  have hvld := c.valid
  have hlt : c.toNat < 0x110000 := by
    rcases hvld with h | h
    · show c.val.toNat < _
      omega
    · exact h.2
  intro u hu
  unfold units at hu
  dsimp only at hu
  split at hu
  · rw [List.mem_singleton.1 hu]
    assumption
  · simp only [List.mem_cons, List.not_mem_nil, or_false] at hu
    omega

theorem flatMap_units_lt (cs : List Char) : ∀ u ∈ cs.flatMap units, u < 65536 := by
  intro u hu
  obtain ⟨c, -, hc⟩ := List.mem_flatMap.1 hu
  exact units_lt c u hc

/-- A character is no surrogate. -/
theorem not_surrogate (c : Char) : isHighSurrogate c.toNat = false ∧ isLowSurrogate c.toNat = false := by
  have hvld : c.toNat < 0xD800 ∨ 0xDFFF < c.toNat ∧ c.toNat < 0x110000 := c.valid
  simp only [isHighSurrogate, isLowSurrogate, Bool.and_eq_false_iff, decide_eq_false_iff_not]
  omega

/-- The units of a character are joined to that character. -/
theorem joinUnits_units (c : Char) (done : List Char) (rest : List Nat) :
    joinUnits done (units c ++ rest) = joinUnits (c :: done) rest := by
  have hvld : c.toNat < 0xD800 ∨ 0xDFFF < c.toNat ∧ c.toNat < 0x110000 := c.valid
  unfold units
  dsimp only
  split
  · obtain ⟨hhigh, hlow⟩ := not_surrogate c
    cases rest with
    | nil => simp [joinUnits, hhigh, hlow, Char.ofNat_toNat]
    | cons v rest => simp [joinUnits, hhigh, hlow, Char.ofNat_toNat]
  · -- a pair of surrogates
    have hhigh : isHighSurrogate (0xD800 + (c.toNat - 0x10000) / 0x400) = true := by
      simp only [isHighSurrogate, Bool.and_eq_true, decide_eq_true_eq]
      omega
    have hlow : isLowSurrogate (0xDC00 + (c.toNat - 0x10000) % 0x400) = true := by
      simp only [isLowSurrogate, Bool.and_eq_true, decide_eq_true_eq]
      omega
    have hjoined : ofSurrogates (0xD800 + (c.toNat - 0x10000) / 0x400) (0xDC00 + (c.toNat - 0x10000) % 0x400) = c := by
      have hcode : 0x10000 + (0xD800 + (c.toNat - 0x10000) / 0x400 - 0xD800) * 0x400 +
          (0xDC00 + (c.toNat - 0x10000) % 0x400 - 0xDC00) = c.toNat := by omega
      rw [ofSurrogates, hcode, Char.ofNat_toNat]
    simp [joinUnits, hhigh, hlow, hjoined]

theorem ofUnits?_units (cs : List Char) : ofUnits? (cs.flatMap units) = some cs := by
  have hjoin : ∀ done, joinUnits done (cs.flatMap units) = some (done.reverse ++ cs) := by
    induction cs with
    | nil => simp [joinUnits]
    | cons c cs ih =>
      intro done
      rw [List.flatMap_cons, joinUnits_units, ih]
      simp
  exact hjoin []

namespace ModifiedUtf8

/-! ### Bytes -/

/-- Whether a byte continues a group. -/
def continues (b : UInt8) : Bool := 0x80 ≤ b.toNat && b.toNat ≤ 0xBF

/-- The UTF-16 units of some bytes: groups of one, two and three bytes, told apart by their first byte. -/
def decodeUnits : List UInt8 → Option (List Nat)
  | [] => some []
  | a :: rest =>
    if 1 ≤ a.toNat ∧ a.toNat ≤ 0x7F then (decodeUnits rest).map (a.toNat :: ·)
    else
      match rest with
      | [] => none
      | b :: rest =>
        if 0xC0 ≤ a.toNat ∧ a.toNat ≤ 0xDF ∧ continues b then
          (decodeUnits rest).map (((a.toNat - 0xC0) * 64 + (b.toNat - 0x80)) :: ·)
        else
          match rest with
          | [] => none
          | c :: rest =>
            if 0xE0 ≤ a.toNat ∧ a.toNat ≤ 0xEF ∧ continues b ∧ continues c then
              (decodeUnits rest).map (((a.toNat - 0xE0) * 4096 + (b.toNat - 0x80) * 64 + (c.toNat - 0x80)) :: ·)
            else none

def decode (bytes : List UInt8) : Option String := do
  let cs ← ofUnits? (← decodeUnits bytes)
  return String.ofList cs

theorem toNat_byte {n : Nat} (h : n < 256) : (UInt8.ofNat n).toNat = n := UInt8.toNat_ofNat_of_lt h

theorem continues_trailing (n : Nat) :
    (UInt8.ofNat (0x80 + n % 64)).toNat = 0x80 + n % 64 ∧ continues (UInt8.ofNat (0x80 + n % 64)) = true := by
  have hbyte : (UInt8.ofNat (0x80 + n % 64)).toNat = 0x80 + n % 64 := toNat_byte (by omega)
  refine ⟨hbyte, ?_⟩
  simp only [continues, hbyte, Bool.and_eq_true, decide_eq_true_eq]
  omega

theorem decodeUnits_encodeUnit {u : Nat} (hu : u < 65536) (rest : List UInt8) :
    decodeUnits (encodeUnit u ++ rest) = (decodeUnits rest).map (u :: ·) := by
  obtain ⟨hlast, hcontinues⟩ := continues_trailing u
  unfold encodeUnit
  split
  next hone =>
    have ha : (UInt8.ofNat u).toNat = u := toNat_byte (by omega)
    rw [List.singleton_append, decodeUnits.eq_def]
    dsimp only
    rw [if_pos (by rwa [ha]), ha]
  next hone =>
    split
    next htwo =>
      have ha : (UInt8.ofNat (0xC0 + u / 64)).toNat = 0xC0 + u / 64 := toNat_byte (by omega)
      have hunit : (0xC0 + u / 64 - 0xC0) * 64 + (0x80 + u % 64 - 0x80) = u := by omega
      rw [List.cons_append, List.singleton_append, decodeUnits.eq_def]
      dsimp only
      rw [if_neg (by rw [ha]; omega), if_pos ⟨by omega, by omega, hcontinues⟩, ha, hlast, hunit]
    next htwo =>
      have ha : (UInt8.ofNat (0xE0 + u / 4096)).toNat = 0xE0 + u / 4096 := toNat_byte (by omega)
      obtain ⟨hb, hcontinues'⟩ := continues_trailing (u / 64)
      have hunit : (0xE0 + u / 4096 - 0xE0) * 4096 + (0x80 + u / 64 % 64 - 0x80) * 64 + (0x80 + u % 64 - 0x80) = u := by
        omega
      rw [List.cons_append, List.cons_append, List.singleton_append, decodeUnits.eq_def]
      dsimp only
      rw [if_neg (by rw [ha]; omega), if_neg (by rw [ha]; omega), if_pos ⟨by omega, by omega, hcontinues', hcontinues⟩, ha, hb,
        hlast, hunit]

theorem decodeUnits_flatMap {us : List Nat} (hus : ∀ u ∈ us, u < 65536) : decodeUnits (us.flatMap encodeUnit) = some us := by
  induction us with
  | nil => rfl
  | cons u us ih =>
    rw [List.flatMap_cons, decodeUnits_encodeUnit (hus u List.mem_cons_self), ih fun v hv => hus v (List.mem_cons_of_mem _ hv)]
    rfl

theorem encode_eq (s : String) : encode s = (s.toList.flatMap units).flatMap encodeUnit := by
  rw [encode, encodeChars, List.flatMap_assoc]

/-- **Every text is read back** from its bytes. -/
theorem decode_encode (s : String) : decode (encode s) = some s := by
  rw [decode, encode_eq, decodeUnits_flatMap (flatMap_units_lt s.toList)]
  simp [ofUnits?_units]

theorem encode_injective : Function.Injective encode := by
  intro s t h
  have hdecoded := decode_encode s
  rw [h, decode_encode] at hdecoded
  exact (Option.some.inj hdecoded).symm

/-- No byte is zero, and none starts a group of more than three. -/
theorem bounds_encodeUnit {u : Nat} (hu : u < 65536) : ∀ b ∈ encodeUnit u, 0 < b.toNat ∧ b.toNat < 0xF0 := by
  intro b hb
  unfold encodeUnit at hb
  split at hb
  · rw [List.mem_singleton.1 hb, UInt8.toNat_ofNat']
    omega
  · split at hb <;> simp only [List.mem_cons, List.not_mem_nil, or_false] at hb
    · rcases hb with rfl | rfl <;> rw [UInt8.toNat_ofNat'] <;> omega
    · rcases hb with rfl | rfl | rfl <;> rw [UInt8.toNat_ofNat'] <;> omega

theorem bounds_encode (s : String) : ∀ b ∈ encode s, 0 < b.toNat ∧ b.toNat < 0xF0 := by
  intro b hb
  rw [encode_eq] at hb
  obtain ⟨u, hu, hb⟩ := List.mem_flatMap.1 hb
  exact bounds_encodeUnit (flatMap_units_lt s.toList u hu) b hb

theorem length_encode (s : String) : (encode s).length = ((s.toList.flatMap units).map unitWidth).sum := by
  simp [encode_eq, List.length_flatMap]

end ModifiedUtf8

end JvmAssembler.Text
