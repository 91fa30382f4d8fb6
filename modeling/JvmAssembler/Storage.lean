import JvmAssembler.Storage.Path

/-!
# JvmAssembler.Storage

Places where files are kept: what can be asked of one, why it can refuse, and how a file is saved below
directories that may be missing.

`Storage m` is what a monad `m` offers, so that one definition of saving serves the file system of the machine and
a tree of files in memory (`JvmAssembler.Storage.Tree`).
-/

namespace JvmAssembler

/-- Why a storage refuses. -/
inductive StorageFault
  /-- The path leads to nothing. -/
  | missing
  | alreadyExists
  /-- A file stands where the path needs a directory. -/
  | notDirectory
  /-- A directory stands where a file is needed. -/
  | isDirectory
  | nameTooLong
  /-- The path has a character that ends texts. -/
  | nulInName
  /-- The file is no text. -/
  | notText
  | other (detail : String)
  deriving DecidableEq

def StorageFault.message : StorageFault → String
  | missing => "No such file or directory (os error 2)"
  | alreadyExists => "File exists (os error 17)"
  | notDirectory => "Not a directory (os error 20)"
  | isDirectory => "Is a directory (os error 21)"
  | nameTooLong => "File name too long (os error 36)"
  | nulInName => "file name contained an unexpected NUL byte"
  | notText => "stream did not contain valid UTF-8"
  | other detail => detail

/-- What can be asked of a storage. -/
structure Storage (m : Type → Type) where
  /-- The contents of a file. -/
  read (path : String) : m (Except StorageFault ByteArray)
  isDirectory (path : String) : m Bool
  /-- Make one directory; those that lead to it must exist. -/
  makeDirectory (path : String) : m (Except StorageFault Unit)
  /-- Make a file, in place of one of the same name. -/
  write (path : String) (contents : ByteArray) : m (Except StorageFault Unit)

namespace Storage

variable {m : Type → Type} [Monad m]

/-- Make a directory unless it exists. -/
def ensureDirectory (storage : Storage m) (path : String) : m (Except StorageFault Unit) := do
  match ← storage.makeDirectory path with
  | .ok () => return .ok ()
  | .error fault => return if ← storage.isDirectory path then .ok () else .error fault

/-- Make the first of the directories unless it exists, and before it those behind it that are missing, given that
each one leads to the one before it. -/
def ensureDirectories (storage : Storage m) : List String → m (Except StorageFault Unit)
  | [] => return .ok ()
  | path :: outer => do
    match ← storage.ensureDirectory path with
    | .error .missing =>
      match ← storage.ensureDirectories outer with
      | .ok () => storage.ensureDirectory path
      | .error fault => return .error fault
    | result => return result

/-- Save a file, making the directories that lead to it. -/
def save (storage : Storage m) (path : String) (contents : ByteArray) : m (Except StorageFault Unit) := do
  match ← storage.ensureDirectories (Path.directoriesTo path) with
  | .ok () => storage.write path contents
  | .error fault => return .error fault

def readText (storage : Storage m) (path : String) : m (Except StorageFault String) := do
  match ← storage.read path with
  | .ok contents =>
    return match String.fromUTF8? contents with
      | some text => .ok text
      | none => .error .notText
  | .error fault => return .error fault

/-- Save files in order, up to one that cannot be saved; that one is named. -/
def saveAll (storage : Storage m) :
    List (String × List UInt8) → m (Except (String × StorageFault) Unit)
  | [] => return .ok ()
  | (path, bytes) :: rest => do
    match ← storage.save path ⟨bytes.toArray⟩ with
    | .ok () => storage.saveAll rest
    | .error fault => return .error (path, fault)

end Storage

end JvmAssembler
