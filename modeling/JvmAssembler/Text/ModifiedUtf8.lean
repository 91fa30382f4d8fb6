import JvmAssembler.Text.Utf16

/-!
# JvmAssembler.Text.ModifiedUtf8

The text encoding of class files. A text is first cut into UTF-16 units, then each unit is written in
one to three bytes: unlike in UTF-8 there are no four-byte groups, a character outside the basic plane
takes two groups of three bytes, and the zero unit takes two bytes, so no byte is zero.
-/

namespace JvmAssembler.Text

namespace ModifiedUtf8

def encodeUnit (u : Nat) : List UInt8 :=
  if 1 ≤ u ∧ u ≤ 0x7F then [UInt8.ofNat u]
  else if u ≤ 0x7FF then [UInt8.ofNat (0xC0 + u / 64), UInt8.ofNat (0x80 + u % 64)]
  else
    [UInt8.ofNat (0xE0 + u / 4096), UInt8.ofNat (0x80 + u / 64 % 64), UInt8.ofNat (0x80 + u % 64)]

/-- The bytes of a sequence of characters. -/
def encodeChars (cs : List Char) : List UInt8 :=
  cs.flatMap fun c => (units c).flatMap encodeUnit

def encode (s : String) : List UInt8 := encodeChars s.toList

/-- The number of bytes of a unit's group. -/
def unitWidth (u : Nat) : Nat := if 1 ≤ u ∧ u ≤ 0x7F then 1 else if u ≤ 0x7FF then 2 else 3

@[simp] theorem length_encodeUnit (u : Nat) : (encodeUnit u).length = unitWidth u := by
  unfold encodeUnit unitWidth
  split
  · rfl
  · split <;> rfl

@[simp] theorem encodeChars_nil : encodeChars [] = [] := rfl

@[simp] theorem encodeChars_cons (c : Char) (cs : List Char) :
    encodeChars (c :: cs) = (units c).flatMap encodeUnit ++ encodeChars cs := rfl

end ModifiedUtf8

end JvmAssembler.Text
