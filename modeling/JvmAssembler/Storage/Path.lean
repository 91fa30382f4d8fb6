/-!
# JvmAssembler.Storage.Path

Paths as texts: names with a slash between them.

A path that starts with a slash starts at the root, so the first of its names is empty. Other empty names, and `.`
behind the first place, lead nowhere: they are left out where the directories that lead to a file are listed.
-/

namespace JvmAssembler.Path

/-- Split characters at slashes, behind the names of `done` and the unfinished name `rest`, which is in reverse
order. The last name comes first. -/
def splitNames (done : List String) (rest : List Char) : List Char → List String
  | [] => String.ofList rest.reverse :: done
  | c :: cs =>
    if c = '/' then splitNames (String.ofList rest.reverse :: done) [] cs
    else splitNames done (c :: rest) cs

def reversedNames (path : String) : List String := splitNames [] [] path.toList

def names (path : String) : List String := (reversedNames path).reverse

def ofReversedNames (names : List String) : String := "/".intercalate names.reverse

/-- Whether a path starts at the root. -/
def isAbsolute (path : String) : Bool := path.toList.head? == some '/'

/-- A path below a directory; a path from the root stays what it is. -/
def join (directory path : String) : String :=
  if isAbsolute path ∨ directory = "" then path
  else if directory.toList.getLast? = some '/' then directory ++ path
  else directory ++ "/" ++ path

/-- The path of names, the last one first, and those of the directories above it, apart from the root and from
names that lead nowhere. -/
def upward : List String → List String
  | [] => []
  | [name] => if name = "" then [] else [name]
  | name :: outer =>
    if name = "" ∨ name = "." then upward outer else ofReversedNames (name :: outer) :: upward outer

/-- The directories that lead to a file, the nearest first. -/
def directoriesTo (path : String) : List String := upward (reversedNames path).tail

end JvmAssembler.Path
