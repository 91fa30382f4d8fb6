import JvmAssembler.Number.Binary

/-!
# JvmAssembler.Number.Literal

Reading numbers from text. A sign may stand in front, digits are the ASCII ones, and the whole text
has to be used up.
-/

namespace JvmAssembler.Number

def digit? (c : Char) : Option Nat :=
  if '0' ≤ c ∧ c ≤ '9' then some (c.toNat - '0'.toNat) else none

/-- The value of a hexadecimal digit. -/
def hexDigit? (c : Char) : Option Nat :=
  if '0' ≤ c ∧ c ≤ '9' then some (c.toNat - '0'.toNat)
  else if 'a' ≤ c ∧ c ≤ 'f' then some (c.toNat - 'a'.toNat + 10)
  else if 'A' ≤ c ∧ c ≤ 'F' then some (c.toNat - 'A'.toNat + 10)
  else none

/-- The number that digits spell, most significant first. -/
def spell (base : Nat) (digits : List Nat) : Nat := digits.foldl (fun n d => n * base + d) 0

/-- The number that digits spell, from the numbers of their two halves, `depth` times over. A long sequence then takes
few steps on large numbers. -/
def spellHalves (base : Nat) : Nat → List Nat → Nat
  | 0, digits => spell base digits
  | depth + 1, digits =>
    let low := digits.drop (digits.length / 2)
    spellHalves base depth (digits.take (digits.length / 2)) * Nat.pow base low.length + spellHalves base depth low

theorem foldl_spell (base start : Nat) (digits : List Nat) :
    digits.foldl (fun n d => n * base + d) start = start * Nat.pow base digits.length + spell base digits := by
  induction digits generalizing start with
  | nil => exact (Nat.mul_one start).symm
  | cons d ds ih =>
    rw [spell, List.foldl_cons, List.foldl_cons, ih, ih (0 * base + d), List.length_cons]
    show (start * base + d) * base ^ ds.length + _ = start * base ^ (ds.length + 1) + ((0 * base + d) * base ^ ds.length + _)
    rw [Nat.pow_succ, Nat.zero_mul, Nat.zero_add, Nat.add_mul, Nat.mul_assoc, Nat.mul_comm base, Nat.add_assoc]

/-- What stands behind digits shifts them by its length. -/
theorem spell_append (base : Nat) (high low : List Nat) :
    spell base (high ++ low) = spell base high * Nat.pow base low.length + spell base low := by
  rw [spell, List.foldl_append, foldl_spell]
  rfl

/-- Halving does not change the number. -/
theorem spellHalves_eq_spell (base depth : Nat) (digits : List Nat) :
    spellHalves base depth digits = spell base digits := by
  induction depth generalizing digits with
  | zero => rfl
  | succ depth ih =>
    rw [spellHalves, ih, ih, ← spell_append, List.take_append_drop]

/-- The number written by at least one digit. Sequences are halved until they are short. -/
def number? (digit : Char → Option Nat) (base : Nat) : List Char → Option Nat
  | [] => none
  | cs => (cs.mapM digit).map fun digits => spellHalves base (digits.length / 32).log2 digits

/-- The number written by at least one decimal digit. -/
def digits? (cs : List Char) : Option Nat := number? digit? 10 cs

/-- An unsigned number up to `max`; a plus sign may stand in front. -/
def natural? (max : Nat) (s : String) : Option Nat :=
  let cs := match s.toList with
    | '+' :: cs => cs
    | cs => cs
  (digits? cs).filter (· ≤ max)

/-- A signed number from `min` to `max`. -/
def integer? (min max : Int) (s : String) : Option Int :=
  let value : Option Int := match s.toList with
    | '+' :: cs => (digits? cs).map Int.ofNat
    | '-' :: cs => (digits? cs).map fun n => -(n : Int)
    | cs => (digits? cs).map Int.ofNat
  value.filter fun x => decide (min ≤ x ∧ x ≤ max)

/-- A hexadecimal number below `2^16`; a plus sign may stand in front. -/
def hex16? (cs : List Char) : Option Nat :=
  let body := match cs with
    | '+' :: cs => cs
    | cs => cs
  (number? hexDigit? 16 body).filter (· < 65536)

/-! ### Decimal fractions -/

/-- The decimal digits at the front, and what follows them. -/
def spanDigits (cs : List Char) : List Char × List Char :=
  cs.span fun c => (digit? c).isSome

/-- An exponent that has come to this size takes no more digits. -/
def exponentBound : Nat := 65536

/-- The size of an exponent, continuing from `acc`. Digits behind those that bring it to the bound are read but do not
count, so the size stays below ten times the bound. -/
def exponentFrom : Nat → List Char → Option Nat
  | acc, [] => some acc
  | acc, c :: cs =>
    match digit? c with
    | some d => exponentFrom (if acc < exponentBound then acc * 10 + d else acc) cs
    | none => none

/-- The size of an exponent that is written by at least one digit. -/
def exponentSize? : List Char → Option Nat
  | [] => none
  | cs => exponentFrom 0 cs

/-- The exponent at the end of a decimal, zero if there is none. -/
def exponent? : List Char → Option Int
  | [] => some 0
  | c :: cs =>
    if c = 'e' ∨ c = 'E' then
      match cs with
      | '-' :: cs => (exponentSize? cs).map fun n => -(n : Int)
      | '+' :: cs => (exponentSize? cs).map Int.ofNat
      | cs => (exponentSize? cs).map Int.ofNat
    else none

/-- An unsigned decimal as digits and a power of ten: digits with at most one point among them, at
least one digit in all, then an exponent if there is one. -/
def decimal? (cs : List Char) : Option (Nat × Int) :=
  let (whole, rest) := spanDigits cs
  let (fraction, rest) := match rest with
    | '.' :: rest => spanDigits rest
    | rest => ([], rest)
  do
    let digits ← digits? (whole ++ fraction)
    let exponent ← exponent? rest
    pure (digits, exponent - fraction.length)

/-- The bits of an unsigned number: a decimal, or one of the words `inf`, `infinity` and `nan` in any
case. -/
def magnitude? (f : Format) (cs : List Char) : Option Nat :=
  match decimal? cs with
  | some (digits, exponent) => some (f.ofDecimal digits exponent)
  | none =>
    let word := cs.map Char.toLower
    if word = "inf".toList ∨ word = "infinity".toList then some f.infinity
    else if word = "nan".toList then some f.nan
    else none

/-- The bits of a floating point number written in text. -/
def float? (f : Format) (s : String) : Option Nat :=
  match s.toList with
  | '-' :: cs => (magnitude? f cs).map (· + f.signBit)
  | '+' :: cs => magnitude? f cs
  | cs => magnitude? f cs

end JvmAssembler.Number
