/-!
# JvmAssembler.Text.Lines

The lines of a text. A line ends at a line feed, together with a carriage return right before it; what follows
the last line feed is a line only if it is not empty.
-/

namespace JvmAssembler.Text

/-- A finished line, given in reverse order, without the carriage return at its end. -/
def finishedLine : List Char → List Char
  | '\r' :: chars => chars.reverse
  | chars => chars.reverse

/-- Split characters into lines, behind the lines of `done` and the unfinished line `rest`, both in reverse
order. -/
def splitLines (done : List (List Char)) (rest : List Char) : List Char → List (List Char)
  | [] => (if rest.isEmpty then done else rest.reverse :: done).reverse
  | c :: cs =>
    if c = '\n' then splitLines (finishedLine rest :: done) [] cs
    else splitLines done (c :: rest) cs

def lines (chars : List Char) : List (List Char) := splitLines [] [] chars

end JvmAssembler.Text
