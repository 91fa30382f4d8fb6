/-!
# JvmAssembler.Bytes

Big-endian numbers and length-prefixed tables, the two shapes everything in a class file is made of.

* Writing produces a `List UInt8`; a number wider than its field keeps only its low bytes.
* Reading and patching work on a `Bytes` buffer by position. Reading past the end gives zero bytes,
  so callers test the length first.
-/

namespace JvmAssembler

abbrev Bytes := Array UInt8

namespace Bytes

/-! ### Writing -/

def u1 (n : Nat) : List UInt8 := [UInt8.ofNat n]

/-- Two bytes, high byte first. -/
def u2 (n : Nat) : List UInt8 := [UInt8.ofNat (n >>> 8), UInt8.ofNat n]

/-- Four bytes, high byte first. -/
def u4 (n : Nat) : List UInt8 :=
  [UInt8.ofNat (n >>> 24), UInt8.ofNat (n >>> 16), UInt8.ofNat (n >>> 8), UInt8.ofNat n]

/-- Eight bytes, high byte first. -/
def u8 (n : Nat) : List UInt8 := u4 (n >>> 32) ++ u4 n

/-- A signed number in two's complement, two bytes. -/
def i2 (x : Int) : List UInt8 := u2 (x % 65536).toNat

/-- A signed number in two's complement, four bytes. -/
def i4 (x : Int) : List UInt8 := u4 (x % 4294967296).toNat

def table {α : Type} (row : α → List UInt8) (rows : List α) : List UInt8 :=
  u2 rows.length ++ rows.flatMap row

@[simp] theorem length_u1 (n : Nat) : (u1 n).length = 1 := rfl
@[simp] theorem length_u2 (n : Nat) : (u2 n).length = 2 := rfl
@[simp] theorem length_u4 (n : Nat) : (u4 n).length = 4 := rfl
@[simp] theorem length_u8 (n : Nat) : (u8 n).length = 8 := rfl
@[simp] theorem length_i2 (x : Int) : (i2 x).length = 2 := rfl
@[simp] theorem length_i4 (x : Int) : (i4 x).length = 4 := rfl

/-! ### Reading and patching -/

/-- The byte at a position, zero past the end. -/
def byteAt (bytes : Bytes) (i : Nat) : UInt8 := bytes.getD i 0

/-- The unsigned two-byte number at a position. -/
def u16At (bytes : Bytes) (i : Nat) : Nat :=
  (bytes.byteAt i).toNat * 256 + (bytes.byteAt (i + 1)).toNat

/-- The unsigned four-byte number at a position. -/
def u32At (bytes : Bytes) (i : Nat) : Nat := bytes.u16At i * 65536 + bytes.u16At (i + 2)

/-- The signed two-byte number at a position. -/
def i16At (bytes : Bytes) (i : Nat) : Int :=
  let n := bytes.u16At i
  if n < 32768 then n else (n : Int) - 65536

/-- The signed four-byte number at a position. -/
def i32At (bytes : Bytes) (i : Nat) : Int :=
  let n := bytes.u32At i
  if n < 2147483648 then n else (n : Int) - 4294967296

def write (bytes : Bytes) (bs : List UInt8) : Bytes := bs.foldl Array.push bytes

/-- Overwrite the bytes from a position on. -/
def patch (bytes : Bytes) (i : Nat) : List UInt8 → Bytes
  | [] => bytes
  | b :: bs => patch (bytes.setIfInBounds i b) (i + 1) bs

@[simp] theorem toList_write (bytes : Bytes) (bs : List UInt8) :
    (bytes.write bs).toList = bytes.toList ++ bs := by
  induction bs generalizing bytes with
  | nil => simp [write]
  | cons b bs ih =>
    have h := ih (bytes.push b)
    simp only [write, List.foldl_cons] at h ⊢
    rw [h]; simp

@[simp] theorem size_patch (bytes : Bytes) (i : Nat) (bs : List UInt8) :
    (bytes.patch i bs).size = bytes.size := by
  induction bs generalizing bytes i with
  | nil => rfl
  | cons b bs ih => simp [patch, ih]

end Bytes

end JvmAssembler
