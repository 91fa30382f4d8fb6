import JvmAssembler.Number.Binary

/-!
# JvmAssembler.Number.Shortest

The text of a floating point number in messages: the fewest digits that read back as the same
number, of those the nearest to it.

* `shortest` finds the digits. A number with significand `m` owns the reals between the midpoints to
  its two neighbours, the midpoints included when `m` is even; for one digit, two digits, and so on,
  the two decimals next to the number are tried until one lies in that interval.
* `text` lays them out: positionally from `0.0001` up to below `10^16`, always with a fractional digit,
  and otherwise as a digit, a fraction and a power of ten.
-/

namespace JvmAssembler.Number

/-- A decimal number `0.d₁d₂… · 10^point`, by its digits. -/
structure Decimal where
  digits : List Char
  point : Int
  deriving DecidableEq

/-- The least `j` with `d ≤ n · 10^j`, for a fraction below one. -/
def leadingZeros : Nat → Nat → Nat → Nat
  | 0, _, _ => 0
  | fuel + 1, n, d => if d ≤ n then 0 else 1 + leadingZeros fuel (n * 10) d

/-- The number of digits before the point of `n / d`, negative or zero for a fraction below one
tenth. -/
def pointOf (n d : Nat) : Int :=
  if d ≤ n then decimalLength (n / d) else 1 - leadingZeros 400 n d

/-- The decimal with `c` as its digits, of which the last stands for `10^t`. -/
def decimalOf (c : Nat) (t : Int) : Decimal :=
  let digits := Nat.toDigits 10 c
  ⟨((digits.reverse.dropWhile (· == '0')).reverse), digits.length + t⟩

/-- The digits of `n / d` on the first grid, of at most `count` further ones, that has a decimal in
the interval from `lo / d` to `hi / d`; `closed` says whether the ends belong to it. -/
def firstGrid (n lo hi d : Nat) (closed : Bool) (point : Int) : Nat → Nat → Decimal
  | 0, k => decimalOf (n / d) (point - k)
  | count + 1, k =>
    let t := point - k
    -- everything over the same denominator, with the grid's unit as one
    let up := if t < 0 then Nat.pow 10 (-t).toNat else 1
    let down := if t < 0 then 1 else Nat.pow 10 t.toNat
    let value := n * up
    let unit := d * down
    let inside (c : Nat) : Bool :=
      if closed then lo * up ≤ c * unit && c * unit ≤ hi * up
      else lo * up < c * unit && c * unit < hi * up
    let below := value / unit
    let above := below + 1
    if inside below && (!inside above || 2 * (value % unit) < unit) then decimalOf below t
    else if inside above then decimalOf above t
    else firstGrid n lo hi d closed point count (k + 1)

/-- The shortest decimal that reads back as a finite, positive bit pattern. -/
def Format.shortest (f : Format) (bits : Nat) : Decimal :=
  let (m, q) := f.unpack bits
  -- in quarters of the lowest bit; below a power of two the neighbour is only half as far
  let half := if m = Nat.pow 2 (f.precision - 1) ∧ f.minExponent < q then 1 else 2
  let (num, d) := if 2 ≤ q then (Nat.pow 2 (q - 2).toNat, 1) else (1, Nat.pow 2 (2 - q).toNat)
  let n := 4 * m * num
  firstGrid n ((4 * m - half) * num) ((4 * m + 2) * num) d (m % 2 == 0) (pointOf n d) 20 1

namespace Decimal

/-- Digits with a point after the first `point` of them, zeros filled in on either side. -/
def positional (x : Decimal) : List Char :=
  if x.point ≤ 0 then '0' :: '.' :: (List.replicate (-x.point).toNat '0' ++ x.digits)
  else
    let whole := x.digits.take x.point.toNat
    let fraction := x.digits.drop x.point.toNat
    whole ++ List.replicate (x.point.toNat - whole.length) '0' ++
      '.' :: (if fraction.isEmpty then ['0'] else fraction)

/-- A digit, a fraction if there is one, and a power of ten. -/
def scientific (x : Decimal) : List Char :=
  x.digits.take 1 ++ (if x.digits.length ≤ 1 then [] else '.' :: x.digits.drop 1) ++
    'e' :: (toString (x.point - 1)).toList

def layout (x : Decimal) : List Char :=
  if -3 ≤ x.point ∧ x.point ≤ 16 then x.positional else x.scientific

end Decimal

/-- The text of a floating point number, given by its bits. -/
def Format.text (f : Format) (bits : Nat) : String :=
  let magnitude := bits % f.signBit
  if f.infinity < magnitude then "NaN"
  else
    let sign := if bits < f.signBit then "" else "-"
    if magnitude = f.infinity then sign ++ "inf"
    else if magnitude = 0 then sign ++ "0.0"
    else sign ++ String.ofList (f.shortest magnitude).layout

end JvmAssembler.Number
