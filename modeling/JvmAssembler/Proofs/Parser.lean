import JvmAssembler.Bytes
import Mathlib

/-!
# JvmAssembler.Proofs.Parser

Reading class files from the front.

A `Parser` takes bytes off the front of a list, or fails. `Parses` says that a parser takes exactly some bytes, whatever
follows them, and what it makes of them; it is built up along the parser, from what is written for each of its parts.
-/

namespace JvmAssembler

/-- A reader that takes bytes off the front of a list. -/
abbrev Parser := StateT (List UInt8) Option

namespace Parser

variable {α β : Type}

/-! ### Parsers -/

/-- The next byte. -/
def u1 : Parser Nat := fun bytes =>
  match bytes with
  | [] => none
  | b :: rest => some (b.toNat, rest)

/-- A number of two bytes, high byte first. -/
def u2 : Parser Nat := do
  let high ← u1
  let low ← u1
  return high * 256 + low

/-- A number of four bytes. -/
def u4 : Parser Nat := do
  let high ← u2
  let low ← u2
  return high * 65536 + low

/-- A number of eight bytes. -/
def u8 : Parser Nat := do
  let high ← u4
  let low ← u4
  return high * 4294967296 + low

/-- Some bytes as they are. -/
def take (n : Nat) : Parser (List UInt8) := fun bytes =>
  if n ≤ bytes.length then some (bytes.take n, bytes.drop n) else none

/-- What has to be there. -/
def get? (a : Option α) : Parser α := fun bytes => a.map (·, bytes)

/-- Several items, one after the other. -/
def times (p : Parser α) : Nat → Parser (List α)
  | 0 => pure []
  | n + 1 => do
    let a ← p
    let as ← times p n
    return a :: as

/-- A table: the number of its rows, then the rows. -/
def table (p : Parser α) : Parser (List α) := do
  let n ← u2
  times p n

/-! ### What is read -/

/-- A parser takes exactly some bytes, whatever follows, and makes a value of them. -/
def Parses (p : Parser α) (bytes : List UInt8) (a : α) : Prop := ∀ rest, p.run (bytes ++ rest) = some (a, rest)

namespace Parses

variable {p : Parser α} {f : α → Parser β} {bs cs : List UInt8} {a : α} {b : β}

theorem pure (a : α) : Parses (Pure.pure a : Parser α) [] a := fun _ => rfl

theorem bind (hp : Parses p bs a) (hf : Parses (f a) cs b) : Parses (p >>= f) (bs ++ cs) b := by
  intro rest
  rw [StateT.run_bind, List.append_assoc, hp]
  exact hf rest

/-- The last step of a parser takes no bytes. -/
theorem finish (hp : Parses p bs a) (g : α → β) : Parses (p >>= fun a => Pure.pure (g a)) bs (g a) := by
  have hboth : Parses (p >>= fun a => Pure.pure (g a)) (bs ++ []) (g a) := hp.bind (pure (g a))
  rwa [List.append_nil] at hboth

theorem get? {o : Option α} (h : o = some a) : Parses (Parser.get? o) [] a := by
  intro rest
  rw [h]
  rfl

theorem congr (hp : Parses p bs a) (heq : bs = cs) : Parses p cs a := heq ▸ hp

/-- A parser that has taken all bytes. -/
theorem run (hp : Parses p bs a) : p.run bs = some (a, []) := by
  have hall := hp []
  rwa [List.append_nil] at hall

end Parses

/-! ### Numbers and tables -/

variable {n : Nat} {row : α → List UInt8} {rows : List α}

theorem parses_u1 (h : n < 256) : Parses u1 (Bytes.u1 n) n := by
  intro rest
  show some ((UInt8.ofNat n).toNat, rest) = some (n, rest)
  rw [UInt8.toNat_ofNat', Nat.mod_eq_of_lt h]

theorem parses_u2 (h : n < 65536) : Parses u2 (Bytes.u2 n) n := by
  intro rest
  show some ((UInt8.ofNat (n >>> 8)).toNat * 256 + (UInt8.ofNat n).toNat, rest) = some (n, rest)
  have hval : (UInt8.ofNat (n >>> 8)).toNat * 256 + (UInt8.ofNat n).toNat = n := by
    rw [UInt8.toNat_ofNat', UInt8.toNat_ofNat', Nat.shiftRight_eq_div_pow]
    omega
  rw [hval]

theorem parses_u4 (h : n < 4294967296) : Parses u4 (Bytes.u4 n) n := by
  have hsplit : Bytes.u4 n = Bytes.u2 (n / 65536) ++ Bytes.u2 (n % 65536) := by
    have hlow : UInt8.ofNat (n % 65536) = UInt8.ofNat n := UInt8.toNat_inj.1 (by simp [UInt8.toNat_ofNat'])
    have hlow' : UInt8.ofNat ((n % 65536) / 256) = UInt8.ofNat (n / 256) := UInt8.toNat_inj.1 (by
      simp only [UInt8.toNat_ofNat']
      omega)
    simp [Bytes.u4, Bytes.u2, Nat.shiftRight_eq_div_pow, Nat.div_div_eq_div_mul, hlow, hlow']
  have hval : n / 65536 * 65536 + n % 65536 = n := Nat.div_add_mod' n 65536
  rw [hsplit]
  refine (parses_u2 (by omega)).bind ?_
  have hlow := (parses_u2 (n.mod_lt (by decide : 0 < 65536))).finish fun low => n / 65536 * 65536 + low
  rwa [hval] at hlow

theorem parses_u8 (h : n < 18446744073709551616) : Parses u8 (Bytes.u8 n) n := by
  have hsplit : Bytes.u8 n = Bytes.u4 (n / 4294967296) ++ Bytes.u4 (n % 4294967296) := by
    have hlow : ∀ k, k ≤ 24 → UInt8.ofNat ((n % 4294967296) >>> k) = UInt8.ofNat (n >>> k) := by
      intro k hk
      apply UInt8.toNat_inj.1
      simp only [UInt8.toNat_ofNat', Nat.shiftRight_eq_div_pow]
      interval_cases k <;> omega
    have hlast := hlow 0 (by decide)
    simp only [Nat.shiftRight_zero] at hlast
    simp only [Bytes.u8, Bytes.u4, hlow 24 (by decide), hlow 16 (by decide), hlow 8 (by decide), hlast,
      Nat.shiftRight_eq_div_pow n 32]
  have hval : n / 4294967296 * 4294967296 + n % 4294967296 = n := Nat.div_add_mod' n 4294967296
  rw [hsplit]
  refine (parses_u4 (by omega)).bind ?_
  have hlow := (parses_u4 (n.mod_lt (by decide : 0 < 4294967296))).finish fun low => n / 4294967296 * 4294967296 + low
  rwa [hval] at hlow

theorem parses_take (bytes : List UInt8) : Parses (take bytes.length) bytes bytes := by
  intro rest
  show (if bytes.length ≤ (bytes ++ rest).length then _ else none) = _
  rw [if_pos (by simp), List.take_left, List.drop_left]

theorem parses_times {p : Parser α} (h : ∀ r ∈ rows, Parses p (row r) r) :
    Parses (times p rows.length) (rows.flatMap row) rows := by
  induction rows with
  | nil => exact .pure []
  | cons r rows ih =>
    rw [List.flatMap_cons]
    refine (h r List.mem_cons_self).bind ?_
    exact (ih fun q hq => h q (List.mem_cons_of_mem _ hq)).finish (r :: ·)

/-- A table is read back row by row, if the number of its rows fits. -/
theorem parses_table {p : Parser α} (h : ∀ r ∈ rows, Parses p (row r) r)
    (hlen : rows.length < 65536) : Parses (table p) (Bytes.table row rows) rows :=
  (parses_u2 hlen).bind (parses_times h)

end Parser

end JvmAssembler
