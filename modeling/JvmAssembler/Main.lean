import JvmAssembler.CommandLine

/-!
# JvmAssembler.Main

The input and output of the command.
-/

namespace JvmAssembler.CommandLine

def about : String := "JVM class assembler"

def usage : String :=
  "Usage: [-d|--output-directory DIRECTORY] [--compute as-given|maxs|frames] [--class-version MAJOR] INPUT"

/-- A fault by the number that the system gives it, which may come with its sign turned. -/
def faultOfCode (code : UInt32) (detail : String) : StorageFault :=
  match code.toInt32.toInt.natAbs with
  | 2 => .missing
  | 17 => .alreadyExists
  | 20 => .notDirectory
  | 21 => .isDirectory
  | 36 => .nameTooLong
  | n => .other (detail ++ " (os error " ++ toString n ++ ")")

def faultOfError : IO.Error → StorageFault
  | .noFileOrDirectory _ code detail => faultOfCode code detail
  | .alreadyExists _ code detail => faultOfCode code detail
  | .inappropriateType _ code detail => faultOfCode code detail
  | .invalidArgument _ code detail => faultOfCode code detail
  | .permissionDenied _ code detail => faultOfCode code detail
  | .resourceExhausted _ code detail => faultOfCode code detail
  | .otherError code detail => faultOfCode code detail
  | e => .other (toString e)

/-- Ask the system for something about a path. -/
def attempt {α : Type} (path : String) (action : IO α) : IO (Except StorageFault α) := do
  if path.toList.contains '\x00' then return .error .nulInName
  try
    return .ok (← action)
  catch e =>
    return .error (faultOfError e)

/-- The file system of the machine. Only a directory has the entry `.`. -/
def fileSystem : Storage IO where
  read path := attempt path (IO.FS.readBinFile path)
  isDirectory path := return (← attempt path (IO.FS.realPath (path ++ "/."))).isOk
  makeDirectory path := attempt path (IO.FS.createDir path)
  write path contents := attempt path (IO.FS.writeBinFile path contents)

def Request.carryOut (request : Request) : IO UInt32 := do
  let result ← request.run fileSystem
  IO.eprint (errorOutput result)
  return exitCode result

end JvmAssembler.CommandLine

open JvmAssembler.CommandLine in
def main (arguments : List String) : IO UInt32 := do
  match Command.ofArguments arguments with
  | .assemble request => request.carryOut
  | .help =>
    IO.println (about ++ "\n" ++ usage)
    return 0
  | .version =>
    IO.println about
    return 0
  | .misuse =>
    IO.eprintln usage
    return misuseCode
