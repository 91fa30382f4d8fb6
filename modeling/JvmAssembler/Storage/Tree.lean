import JvmAssembler.Storage
import Std.Data.TreeMap.Basic

/-!
# JvmAssembler.Storage.Tree

A tree of files in memory, with the rules by which paths are followed.

* A path is followed name by name, each from a directory. `..` leads to the directory above, which is the root
  itself for the root; `.` and empty names, such as the one behind a last slash, stay where they are. So a path that
  goes on behind a file is refused, whatever follows.
* A name has at most 255 bytes and a path at most 4095. The empty path leads to nothing.
* Whether the path is a text that can be followed at all is looked at first.

A tree is a finite map from places to what stands there. A place is the list of names that leads to it from the root,
with the last name first, so that the directory above is the tail.
-/

namespace JvmAssembler

/-- The names that lead to something from the root, the last one first. -/
abbrev Place := List String

/-- What stands at a place. -/
inductive Node
  | directory
  | file (contents : ByteArray)

/-- A tree of files. The root is a directory, and so is everything above a node. -/
structure FileTree where
  nodes : Std.TreeMap Place Node := {}
  /-- Where paths start that do not start at the root. -/
  working : Place := []

namespace FileTree

/-- The most bytes in a name. -/
def nameLimit : Nat := 255

/-- The most bytes in a path. -/
def pathLimit : Nat := 4095

def node? (tree : FileTree) (place : Place) : Option Node :=
  if place.isEmpty then some .directory else tree.nodes[place]?

def put (tree : FileTree) (place : Place) (node : Node) : FileTree :=
  { tree with nodes := tree.nodes.insert place node }

def putDirectories (tree : FileTree) : Place → FileTree
  | [] => tree
  | name :: above => (tree.putDirectories above).put (name :: above) .directory

def staysOrAscends (name : String) : Bool := name == "" || name == "." || name == ".."

def step (tree : FileTree) (place : Place) (name : String) : Except StorageFault Place :=
  match tree.node? place with
  | some .directory =>
    if name = ".." then .ok place.tail
    else if staysOrAscends name then .ok place
    else if nameLimit < name.utf8ByteSize then .error .nameTooLong
    else if (tree.node? (name :: place)).isSome then .ok (name :: place)
    else .error .missing
  | _ => .error .notDirectory

/-- Follow names from where the path that has them starts. -/
def follow (tree : FileTree) (absolute : Bool) (names : List String) : Except StorageFault Place :=
  names.foldlM tree.step (if absolute then [] else tree.working)

/-- Whether a path can be followed at all. -/
def checkPath (path : String) : Except StorageFault Unit :=
  if path.toList.contains '\x00' then .error .nulInName
  else if path = "" then .error .missing
  else if pathLimit < path.utf8ByteSize then .error .nameTooLong
  else .ok ()

def locate (tree : FileTree) (path : String) : Except StorageFault Place := do
  checkPath path
  tree.follow (Path.isAbsolute path) (Path.names path)

/-- The place for a new node below a place: the name must be one, and is refused with `taken` if it leads to a
directory that exists. -/
def below (tree : FileTree) (place : Place) (name : String) (taken : StorageFault) :
    Except StorageFault Place :=
  match tree.node? place with
  | some .directory =>
    if staysOrAscends name then .error taken
    else if nameLimit < name.utf8ByteSize then .error .nameTooLong
    else .ok (name :: place)
  | _ => .error .notDirectory

/-- The place for a new node at the end of names that are given with the last one first. -/
def target (tree : FileTree) (absolute : Bool) (taken : StorageFault) :
    List String → Except StorageFault Place
  | [] => .error taken
  | name :: outer => do
    let place ← tree.follow absolute outer.reverse
    tree.below place name taken

def read (tree : FileTree) (path : String) : Except StorageFault ByteArray := do
  let place ← tree.locate path
  match tree.node? place with
  | some (.file contents) => .ok contents
  | some .directory => .error .isDirectory
  | none => .error .missing

def isDirectory (tree : FileTree) (path : String) : Bool :=
  match tree.locate path with
  | .ok place =>
    match tree.node? place with
    | some .directory => true
    | _ => false
  | .error _ => false

/-- Make a directory. Slashes at the end of the path say nothing. -/
def makeDirectory (tree : FileTree) (path : String) : Except StorageFault FileTree := do
  checkPath path
  let names := (Path.reversedNames path).dropWhile (· == "")
  let place ← tree.target (Path.isAbsolute path) .alreadyExists names
  if (tree.node? place).isSome then .error .alreadyExists else .ok (tree.put place .directory)

/-- Make a file, in place of one that stands there. -/
def write (tree : FileTree) (path : String) (contents : ByteArray) : Except StorageFault FileTree := do
  checkPath path
  let place ← tree.target (Path.isAbsolute path) .isDirectory (Path.reversedNames path)
  match tree.node? place with
  | some .directory => .error .isDirectory
  | _ => .ok (tree.put place (.file contents))

/-- The path of a place from the working directory, if it lies below. -/
def relative? (tree : FileTree) (place : Place) : Option String :=
  let depth := place.length - tree.working.length
  if place.drop depth = tree.working then some (Path.ofReversedNames (place.take depth)) else none

/-- The files below the working directory, with their paths from there. -/
def files (tree : FileTree) : List (String × ByteArray) :=
  tree.nodes.toList.filterMap fun (place, node) =>
    match node with
    | .directory => none
    | .file contents => (tree.relative? place).map fun path => (path, contents)

def filesSince (earlier tree : FileTree) : List (String × ByteArray) :=
  tree.files.filter fun (path, _) => !(earlier.files.any (·.1 == path))

/-- The working directory of a tree that is known only below it. -/
def workplace : Place := ["work"]

/-- A working directory that holds just these files. -/
def ofFiles (files : List (String × String)) : FileTree :=
  let start : FileTree := { working := workplace }
  files.foldl
    (fun tree (path, text) =>
      let place := (Path.reversedNames path).filter (!staysOrAscends ·) ++ workplace
      (tree.putDirectories place.tail).put place (.file text.toUTF8))
    (start.putDirectories workplace)

def change (f : FileTree → Except StorageFault FileTree) : StateM FileTree (Except StorageFault Unit) :=
  fun tree =>
    match f tree with
    | .ok tree => (.ok (), tree)
    | .error fault => (.error fault, tree)

def storage : Storage (StateM FileTree) where
  read path := return (← get).read path
  isDirectory path := return (← get).isDirectory path
  makeDirectory path := change (·.makeDirectory path)
  write path contents := change (·.write path contents)

end FileTree

end JvmAssembler
