/-!
# JvmAssembler.Text.Utf16

UTF-16 units of texts. A character of the basic plane is one unit; any other is a pair of *surrogates*, a
high one and a low one, which stand for nothing on their own.
-/

namespace JvmAssembler.Text

def units (c : Char) : List Nat :=
  let n := c.toNat
  if n < 0x10000 then [n]
  else [0xD800 + (n - 0x10000) / 0x400, 0xDC00 + (n - 0x10000) % 0x400]

/-- The first unit of a pair. -/
def isHighSurrogate (u : Nat) : Bool := 0xD800 ≤ u && u ≤ 0xDBFF

/-- The second unit of a pair. -/
def isLowSurrogate (u : Nat) : Bool := 0xDC00 ≤ u && u ≤ 0xDFFF

def ofSurrogates (high low : Nat) : Char :=
  Char.ofNat (0x10000 + (high - 0xD800) * 0x400 + (low - 0xDC00))

/-- Join units to characters, behind those of `done`, which are in reverse order. -/
def joinUnits (done : List Char) : List Nat → Option (List Char)
  | [] => some done.reverse
  | [u] => if isHighSurrogate u || isLowSurrogate u then none else some (Char.ofNat u :: done).reverse
  | u :: v :: rest =>
    if isHighSurrogate u then
      if isLowSurrogate v then joinUnits (ofSurrogates u v :: done) rest else none
    else if isLowSurrogate u then none
    else joinUnits (Char.ofNat u :: done) (v :: rest)

/-- The characters of a sequence of units; none if a surrogate has no partner. -/
def ofUnits? (us : List Nat) : Option (List Char) := joinUnits [] us

end JvmAssembler.Text
