import JvmAssembler.Constant
import JvmAssembler.Number.Literal

/-!
# JvmAssembler.Listing.Literal

Numbers in listings. The spelling decides the type: `10` is an `int`, `10L` a `long`, `1.5f` a `float`; `1.5`,
`1e3` and `2d` are `double`, and so are `NaN` and `-Infinity` unless they end in `f` too.
-/

namespace JvmAssembler.Listing

open Number

/-- The bits of a value that has a name. -/
def special? (f : Format) (word : String) : Option Nat :=
  if word = "NaN" then some f.nan
  else if word = "Infinity" ∨ word = "+Infinity" then some f.infinity
  else if word = "-Infinity" then some (f.infinity + f.signBit)
  else none

/-- The bits of a floating point number, named or written in digits. -/
def bits? (f : Format) (word : String) : Option Nat := special? f word <|> float? f word

def double? (word : String) : Option Loadable :=
  (bits? .binary64 word).map fun bits => .double (.ofNat bits)

def single? (word : String) : Option Loadable :=
  (bits? .binary32 word).map fun bits => .float (.ofNat bits)

def long? (word : String) : Option Loadable :=
  (integer? (-9223372036854775808) 9223372036854775807 word).map fun value => .long (.ofInt value)

def int? (word : String) : Option Loadable :=
  (integer? (-2147483648) 2147483647 word).map fun value => .int (.ofInt value)

/-- The number that a word spells. The last letter says the type; without one, a point or an exponent makes a
`double`. -/
def literal? (word : String) : Option Loadable :=
  match special? .binary64 word with
  | some bits => some (.double (.ofNat bits))
  | none =>
    let chars := word.toList
    let body := String.ofList chars.dropLast
    match chars.getLast? with
    | some 'f' | some 'F' => single? body
    | some 'd' | some 'D' => double? body
    | some 'l' | some 'L' => long? body
    | _ => if chars.any (fun c => c == '.' || c == 'e' || c == 'E') then double? word else int? word

end JvmAssembler.Listing
