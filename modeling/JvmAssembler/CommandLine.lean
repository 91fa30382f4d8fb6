import JvmAssembler.Listing.Assembly
import JvmAssembler.Listing.Parsing
import JvmAssembler.Storage.Tree

/-!
# JvmAssembler.CommandLine

The command that assembles a listing into class files: the meaning of its arguments, what it reads and writes in a
storage, and what it reports.

Options and the input may come in any order, each option at most once. The value of an option is the next
argument, which must not look like an option, or stands in the same argument: behind `=`, and behind `-d` also
without it. Behind `--` nothing is an option.
-/

namespace JvmAssembler

namespace CommandLine

/-! ### Arguments -/

/-- The options that have a value. -/
inductive Setting
  | directory | compute | version
  deriving DecidableEq

/-- What an argument is by its form. -/
inductive Argument
  | input (path : String)
  /-- An option, with its value if that stands in the same argument. -/
  | setting (setting : Setting) (value : Option String)
  /-- Behind this, everything is an input. -/
  | noMoreOptions
  | help
  | version
  | unknown
  deriving DecidableEq

def settingOf? (name : String) : Option Setting :=
  if name = "output-directory" then some .directory
  else if name = "compute" then some .compute
  else if name = "class-version" then some .version
  else none

/-- An argument that starts with two dashes. -/
def longOption (chars : List Char) : Argument :=
  let (name, rest) := chars.span (· != '=')
  let name := String.ofList name
  let value := match rest with
    | [] => none
    | _ :: value => some (String.ofList value)
  match settingOf? name, value with
  | some setting, value => .setting setting value
  | none, some _ => .unknown
  | none, none =>
    if name = "" then .noMoreOptions
    else if name = "help" then .help
    else if name = "version" then .version
    else .unknown

/-- An argument that starts with one dash. -/
def shortOption : List Char → Argument
  | ['d'] => .setting .directory none
  | 'd' :: '=' :: value => .setting .directory (some (String.ofList value))
  | 'd' :: value => .setting .directory (some (String.ofList value))
  | 'h' :: _ => .help
  | 'V' :: _ => .version
  | _ => .unknown

/-- What an argument is. A dash alone is an input. -/
def Argument.ofText (text : String) : Argument :=
  match text.toList with
  | '-' :: '-' :: chars => longOption chars
  | '-' :: c :: chars => shortOption (c :: chars)
  | _ => .input text

/-- Whether an argument looks like an option, so that it cannot be the value of one. -/
def looksLikeOption (text : String) : Bool :=
  match Argument.ofText text with
  | .input _ => false
  | _ => true

/-- What the arguments said so far. -/
structure Settings where
  input : Option String := none
  directory : Option String := none
  compute : Option Compute := none
  version : Option UInt16 := none
  deriving DecidableEq

def compute? (word : String) : Option Compute :=
  if word = "as-given" then some .asGiven
  else if word = "maxs" then some .maxs
  else if word = "frames" then some .frames
  else none

/-- The major number of a class file version; the first one is 45. -/
def version? (word : String) : Option UInt16 :=
  ((Number.natural? 65535 word).filter (45 ≤ ·)).map UInt16.ofNat

/-- A value that is given for the first time. -/
def once {α : Type} (old new : Option α) : Option α := if old.isSome then none else new

namespace Settings

def setInput (s : Settings) (path : String) : Option Settings :=
  (once s.input (some path)).map fun path => { s with input := some path }

/-- Give an option a value; none if the value is not one of the option's, or if the option has one already. -/
def set (s : Settings) (setting : Setting) (value : String) : Option Settings :=
  match setting with
  | .directory => (once s.directory (some value)).map fun d => { s with directory := some d }
  | .compute => (once s.compute (compute? value)).map fun c => { s with compute := some c }
  | .version => (once s.version (version? value)).map fun v => { s with version := some v }

end Settings

/-- What the command is asked to do. -/
structure Request where
  input : String
  directory : String := "."
  compute : Compute := .frames
  version : Version := .default
  deriving DecidableEq

/-- The meaning of a whole list of arguments. -/
inductive Command
  | assemble (request : Request)
  | help
  | version
  /-- The arguments are not understood. -/
  | misuse
  deriving DecidableEq

namespace Settings

/-- The request that the arguments make; the input has to be named. -/
def command (s : Settings) : Command :=
  match s.input with
  | none => .misuse
  | some input =>
    .assemble
      { input
        directory := s.directory.getD "."
        compute := s.compute.getD .frames
        version := (s.version.map fun major => { major }).getD .default }

end Settings

/-- Read arguments, knowing those before them. -/
def readArguments (s : Settings) : List String → Command
  | [] => s.command
  | text :: rest =>
    match Argument.ofText text with
    | .unknown => .misuse
    | .help => .help
    | .version => .version
    | .noMoreOptions =>
      match rest.foldlM Settings.setInput s with
      | some s => s.command
      | none => .misuse
    | .input path =>
      match s.setInput path with
      | some s => readArguments s rest
      | none => .misuse
    | .setting setting (some value) =>
      match s.set setting value with
      | some s => readArguments s rest
      | none => .misuse
    | .setting setting none =>
      match rest with
      | [] => .misuse
      | value :: rest =>
        if looksLikeOption value then .misuse
        else
          match s.set setting value with
          | some s => readArguments s rest
          | none => .misuse

def Command.ofArguments (arguments : List String) : Command := readArguments {} arguments

/-! ### Running -/

/-- Why the command fails. -/
inductive Failure
  | read (path : String) (fault : StorageFault)
  | write (path : String) (fault : StorageFault)
  | parse (path : String) (error : Listing.ParseError)
  | assembly (error : Listing.AssemblyError)
  deriving DecidableEq

namespace Failure

def message : Failure → String
  | read path fault => "cannot read '" ++ path ++ "': " ++ fault.message
  | write path fault => "cannot write '" ++ path ++ "': " ++ fault.message
  | parse path error => path ++ ": " ++ error.message
  | assembly error => error.message

def report (failure : Failure) : String := "error: " ++ failure.message ++ "\n"

end Failure

/-- The file of a class: packages become directories. -/
def classPath (directory name : String) : String := Path.join directory (name ++ ".class")

namespace Request

/-- The files that a listing asks for in order, and the error of the class behind them if there is one. -/
def outputs (request : Request) (listing : Listing) :
    List (String × List UInt8) × Option Listing.AssemblyError :=
  let assembled := listing.assemble request.compute request.version
  (assembled.files.map fun (name, file) => (classPath request.directory name, file.bytes), assembled.error)

/-- Assemble the input. Each class is written before the next one is looked at, so the files of the classes before
a failure are kept, and of two failures the one of the earlier class is told. -/
def run {m : Type → Type} [Monad m] (request : Request) (storage : Storage m) : m (Except Failure Unit) := do
  match ← storage.readText request.input with
  | .error fault => return .error (.read request.input fault)
  | .ok source =>
    match Listing.parse source with
    | .error e => return .error (.parse request.input e)
    | .ok listing =>
      let (files, error) := request.outputs listing
      match ← storage.saveAll files, error with
      | .error (path, fault), _ => return .error (.write path fault)
      | .ok (), some e => return .error (.assembly e)
      | .ok (), none => return .ok ()

end Request

def exitCode : Except Failure Unit → UInt32
  | .ok () => 0
  | .error _ => 1

def errorOutput : Except Failure Unit → String
  | .ok () => ""
  | .error failure => failure.report

/-- The exit code for arguments that are not understood. -/
def misuseCode : UInt32 := 2

end CommandLine

end JvmAssembler
