/-!
# JvmAssembler.Number.Binary

The two binary floating point formats, handled as bit patterns.

* `ofRatio` rounds a fraction to the nearest value of a format, a tie to the even one, in exact
  arithmetic on natural numbers.
* `unpack` gives the exact value `m · 2^q` of a finite bit pattern.
-/

namespace JvmAssembler.Number

/-- A binary floating point format. -/
structure Format where
  /-- Bits of the significand, the leading one included. -/
  precision : Nat
  /-- Bits of the exponent field. -/
  exponentBits : Nat
  deriving DecidableEq

namespace Format

def binary32 : Format := ⟨24, 8⟩

def binary64 : Format := ⟨53, 11⟩

variable (f : Format)

/-- The power of two that the lowest bit of a subnormal number stands for. -/
def minExponent : Int := 3 - (Nat.pow 2 (f.exponentBits - 1) : Nat) - f.precision

def infinity : Nat := (Nat.pow 2 f.exponentBits - 1) <<< (f.precision - 1)

/-- The bits of the quiet NaN. -/
def nan : Nat := f.infinity + Nat.pow 2 (f.precision - 2)

def signBit : Nat := Nat.pow 2 (f.exponentBits + f.precision - 1)

/-- The bits of `m · 2^q`, for a significand of at most `2 ^ precision` that is normal or has the
least exponent. What is too large becomes infinity. -/
def pack (m : Nat) (q : Int) : Nat :=
  if m < Nat.pow 2 (f.precision - 1) then m
  else
    let field := (q - f.minExponent + 1).toNat
    let bits := (field <<< (f.precision - 1)) + (m - Nat.pow 2 (f.precision - 1))
    min bits f.infinity

end Format

/-- The nearest natural number to `n / d`, a tie to the even one. -/
def roundDiv (n d : Nat) : Nat :=
  let q := n / d
  let r := n % d
  if d < 2 * r ∨ (2 * r = d ∧ q % 2 = 1) then q + 1 else q

/-- The number of decimal digits of a number. -/
def decimalLength (n : Nat) : Nat := (Nat.toDigits 10 n).length

/-- The fraction `n / d` divided by `2^q`. -/
def scale (n d : Nat) (q : Int) : Nat × Nat :=
  if 0 ≤ q then (n, d <<< q.toNat) else (n <<< (-q).toNat, d)

namespace Format

variable (f : Format)

/-- The bits of the value nearest to `n / d`. -/
def ofRatio (n d : Nat) : Nat :=
  if n = 0 then 0
  else
    let low := max f.minExponent ((n.log2 : Int) - d.log2 - f.precision)
    let (n₀, d₀) := scale n d low
    let q := if n₀ / d₀ < Nat.pow 2 f.precision then low else low + 1
    let (n₁, d₁) := scale n d q
    f.pack (roundDiv n₁ d₁) q

/-- The bits of the value nearest to `digits · 10^exponent`. Powers far outside the range of every format are answered
without being computed: a whole number with more than 400 zeros at its end is infinite, and since a power of ten is
above the same power of eight, what is then below `2^(-1200)` is zero. -/
def ofDecimal (digits : Nat) (exponent : Int) : Nat :=
  if digits = 0 then 0
  else if 0 ≤ exponent then
    if 400 < exponent then f.infinity else f.ofRatio (digits * Nat.pow 10 exponent.toNat) 1
  else
    let places := (-exponent).toNat
    if digits.log2 + 1 + 1200 < 3 * places then 0 else f.ofRatio digits (Nat.pow 10 places)

/-- The significand and exponent of a finite, positive bit pattern. -/
def unpack (bits : Nat) : Nat × Int :=
  let field := bits >>> (f.precision - 1)
  let fraction := bits % Nat.pow 2 (f.precision - 1)
  if field = 0 then (fraction, f.minExponent)
  else (fraction + Nat.pow 2 (f.precision - 1), f.minExponent + field - 1)

end Format

end JvmAssembler.Number
