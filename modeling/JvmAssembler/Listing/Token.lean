import JvmAssembler.Listing.Basic
import JvmAssembler.Number.Literal
import JvmAssembler.Text.Blank

/-!
# JvmAssembler.Listing.Token

The tokens of a line: words and quoted texts.

Blanks separate words; a word also ends at a quote and at the `#` of a comment. In a quoted text a backslash
starts an escape: a letter for a control character, the quotes and the backslash themselves, or `\u` and the
four hexadecimal digits of a UTF-16 unit. Two such escapes can therefore make one character.

`scan` is a fold over the characters: what was read so far is all that the next character's meaning hangs on.
-/

namespace JvmAssembler.Listing

/-- A word or a quoted text. -/
inductive Token
  | word (word : String)
  | quoted (text : String)
  deriving DecidableEq

namespace Token

/-- Where the next character stands. What is being collected is in reverse order. -/
inductive Mode
  | between
  | word (chars : List Char)
  /-- In a quoted text, of which the UTF-16 units are known. -/
  | text (units : List Nat)
  /-- Behind a backslash. -/
  | escape (units : List Nat)
  /-- Behind `\u` and up to three characters. -/
  | unicode (units : List Nat) (digits : List Char)
  | comment
  deriving DecidableEq

/-- What was read of a line: its finished tokens in reverse order, and what is open. -/
structure Scan where
  tokens : List Token := []
  mode : Mode := .between
  deriving DecidableEq

namespace Scan

def pushChar (units : List Nat) (c : Char) : List Nat := (Text.units c).reverse ++ units

def start (tokens : List Token) (c : Char) : Scan :=
  if Text.isBlank c then ⟨tokens, .between⟩
  else if c = '#' then ⟨tokens, .comment⟩
  else if c = '"' then ⟨tokens, .text []⟩
  else ⟨tokens, .word [c]⟩

/-- Whether a character cannot be part of a word. -/
def endsWord (c : Char) : Bool := Text.isBlank c || c == '#' || c == '"'

def wordOf (chars : List Char) : Token := .word (String.ofList chars.reverse)

def closeText (tokens : List Token) (units : List Nat) : Except Fault Scan :=
  match Text.ofUnits? units.reverse with
  | some chars => .ok ⟨.quoted (String.ofList chars) :: tokens, .between⟩
  | none => .error .unpairedSurrogate

/-- What the character behind a backslash stands for. -/
def escaped? : Char → Option Char
  | 'n' => some '\n'
  | 't' => some '\t'
  | 'r' => some '\r'
  | '0' => some '\x00'
  | '\\' => some '\\'
  | '"' => some '"'
  | '\x27' => some '\x27'
  | _ => none

/-- The unit of four characters behind `\u`. -/
def unicodeUnit (digits : List Char) : Except Fault Nat :=
  match Number.hex16? digits with
  | some unit => .ok unit
  | none => .error (.badUnicodeEscape (String.ofList digits))

def step (s : Scan) (c : Char) : Except Fault Scan :=
  match s.mode with
  | .comment => .ok s
  | .between => .ok (start s.tokens c)
  | .word chars =>
    if endsWord c then .ok (start (wordOf chars :: s.tokens) c) else .ok ⟨s.tokens, .word (c :: chars)⟩
  | .text units =>
    if c = '"' then closeText s.tokens units
    else if c = '\\' then .ok ⟨s.tokens, .escape units⟩
    else .ok ⟨s.tokens, .text (pushChar units c)⟩
  | .escape units =>
    if c = 'u' then .ok ⟨s.tokens, .unicode units []⟩
    else
      match escaped? c with
      | some meant => .ok ⟨s.tokens, .text (pushChar units meant)⟩
      | none => .error (.unknownEscape c)
  | .unicode units digits =>
    if digits.length < 3 then .ok ⟨s.tokens, .unicode units (c :: digits)⟩
    else do
      let unit ← unicodeUnit (c :: digits).reverse
      .ok ⟨s.tokens, .text (unit :: units)⟩

/-- The tokens of a line that ends here. -/
def finish (s : Scan) : Except Fault (List Token) :=
  match s.mode with
  | .between | .comment => .ok s.tokens.reverse
  | .word chars => .ok (wordOf chars :: s.tokens).reverse
  | .text _ | .escape _ => .error .unterminatedString
  | .unicode _ digits => .error (.badUnicodeEscape (String.ofList digits.reverse))

def readAll : Scan → List Char → Except Fault Scan
  | s, [] => .ok s
  | s, c :: cs =>
    match s.step c with
    | .ok s => readAll s cs
    | .error fault => .error fault

@[simp] theorem readAll_nil (s : Scan) : s.readAll [] = .ok s := rfl

/-- Reading can stop and go on anywhere. -/
theorem readAll_append (s : Scan) (cs ds : List Char) :
    s.readAll (cs ++ ds) = (s.readAll cs).bind fun s => s.readAll ds := by
  induction cs generalizing s with
  | nil => rfl
  | cons c cs ih =>
    simp only [List.cons_append, readAll]
    cases s.step c with
    | error fault => rfl
    | ok s => exact ih s

end Scan

def scan (line : List Char) : Except Fault (List Token) :=
  match ({} : Scan).readAll line with
  | .ok s => s.finish
  | .error fault => .error fault

end Token

end JvmAssembler.Listing
