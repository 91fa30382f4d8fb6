import JvmAssembler.Text.Printable

/-!
# JvmAssembler.Text.Quoted

Texts quoted inside messages: in double quotes, with a backslash before a quote or a backslash, the
letter escapes `\n`, `\r`, `\t` and `\0`, and the code point in hexadecimal for whatever else cannot
be printed.
-/

namespace JvmAssembler.Text

/-- A number in lower case hexadecimal. -/
def hex (n : Nat) : String := String.ofList (Nat.toDigits 16 n)

def quotedChar (c : Char) : String :=
  match c with
  | '"' => "\\\""
  | '\\' => "\\\\"
  | '\n' => "\\n"
  | '\r' => "\\r"
  | '\t' => "\\t"
  | '\x00' => "\\0"
  | c => if isPrintable c then String.singleton c else "\\u\x7b" ++ hex c.toNat ++ "\x7d"

def quoted (s : String) : String :=
  "\"" ++ String.join (s.toList.map quotedChar) ++ "\""

end JvmAssembler.Text
