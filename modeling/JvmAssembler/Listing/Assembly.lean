import JvmAssembler.Listing.Basic
import Std.Data.TreeMap.Basic

/-!
# JvmAssembler.Listing.Assembly

From the classes of a listing to class files.

Every class sees the same hierarchy: the standard library, what the listing says of other classes, and its own
classes. A name of a place gets its label where it is first mentioned. The handlers of a method are sent before
the rest of its body, so that they are known before any of their labels is placed.
-/

namespace JvmAssembler

namespace Listing

/-- Why a class of a listing cannot be assembled, and where. -/
inductive AssemblyError
  | inClass (cls : String) (cause : Error)
  | inMethod (cls method : String) (line : Nat) (cause : Error)
  deriving DecidableEq

namespace AssemblyError

def cause : AssemblyError → Error
  | inClass _ cause => cause
  | inMethod _ _ _ cause => cause

def message : AssemblyError → String
  | inClass cls cause => "class " ++ ticked cls ++ ": " ++ cause.message
  | inMethod cls method line cause =>
    "method " ++ ticked (cls ++ "." ++ method) ++ s!" (line {line}): " ++ cause.message

end AssemblyError

/-! ### Methods -/

/-- The labels of the places named so far. -/
abbrev Names := Std.TreeMap String Label

/-- Steps of writing a method by names. -/
abbrev NamedM := StateT Names MethodM

def labelOf (name : String) : NamedM Label := do
  match (← get)[name]? with
  | some label => return label
  | none =>
    let label ← MethodWriter.newLabel
    modify fun names => names.insert name label
    return label

def sendNamed (event : MethodEvent Label) : NamedM Unit := MethodWriter.send event

namespace Statement

def writeHandler : Statement → NamedM Unit
  | tryCatch handler => do sendNamed (.tryCatch (← handler.mapM labelOf))
  | _ => return ()

/-- Send whatever is not a handler. A line number is attached to a label of its own. -/
def write : Statement → NamedM Unit
  | label name => do sendNamed (.label (← labelOf name))
  | instruction i => do sendNamed (.instruction (← i.mapM labelOf))
  | tryCatch _ => return ()
  | line number => do
    let here ← MethodWriter.newLabel
    sendNamed (.label here)
    sendNamed (.lineNumber number here)
  | localVariable scope => do sendNamed (.localVariable (← scope.mapM labelOf))
  | frame shape => do sendNamed (.frame (← shape.mapM (FrameItem.mapM labelOf)))

end Statement

namespace MethodDecl

def declaration (method : MethodDecl) : Declaration :=
  { flags := method.flags
    name := method.name
    descriptor := method.descriptor
    signature := none
    exceptions := method.exceptions }

def writeBody (body : List Statement) : NamedM Unit := do
  body.forM Statement.writeHandler
  body.forM Statement.write

/-- Send what follows the header. A method without statements has no code. -/
def write (method : MethodDecl) : MethodM Unit := do
  unless method.body.isEmpty do
    MethodWriter.send .code
    let _ ← (writeBody method.body).run {}
    MethodWriter.send (.maxs (method.maxStack.getD 0) (method.maxLocals.getD 0))
  MethodWriter.send .finish

end MethodDecl

/-! ### Classes -/

namespace ClassDecl

def events (cls : ClassDecl) (version : Version) : List ClassEvent :=
  .visit version cls.flags cls.name (some cls.superClass) cls.interfaces ::
    (cls.sourceFile.toList.map .source ++ cls.signature.toList.map .signature ++
      cls.nestHost.toList.map .nestHost ++ cls.nestMembers.map .nestMember ++
      cls.fields.map fun field => .field field.flags field.name field.descriptor none field.constant)

/-- Write a method; a fault names it. -/
def writeMethod (cls : ClassDecl) (method : MethodDecl) : EStateM AssemblyError ClassWriter Unit := do
  let result ← (ClassWriter.method method.declaration method.write).adaptExcept
    (.inMethod cls.name method.name method.line)
  match result with
  | .ok _ => return ()
  | .error cause => throw (.inMethod cls.name method.name method.line cause)

def write (cls : ClassDecl) (version : Version) : EStateM AssemblyError ClassWriter Unit := do
  let send (event : ClassEvent) : EStateM AssemblyError ClassWriter Unit :=
    (ClassWriter.send event).adaptExcept (.inClass cls.name)
  (cls.events version).forM send
  cls.methods.forM cls.writeMethod
  send .finish

def assemble (cls : ClassDecl) (hierarchy : Hierarchy) (compute : Compute) (version : Version) :
    Except AssemblyError ClassFile :=
  match cls.write version (.start compute hierarchy) with
  | .error e _ => .error e
  | .ok _ w => w.classFile.mapError (.inClass cls.name)

end ClassDecl


/-- What is known while the classes of a listing are assembled. A class of the listing counts more than what the
listing says of it elsewhere, and both count more than the standard library. -/
def knownClasses (listing : Listing) : Hierarchy :=
  (listing.hierarchy ++ listing.classes.map fun cls => (cls.name, cls.info)).foldl
    (fun h known => h.insert known.1 known.2) .javaLang

/-- The outcome of assembling a listing: the classes up to the first that fails, and why it fails. -/
structure Assembled where
  files : List (String × ClassFile)
  error : Option AssemblyError

/-- Assemble classes, behind those of `done`, which are in reverse order. -/
def assembleFrom (hierarchy : Hierarchy) (compute : Compute) (version : Version)
    (done : List (String × ClassFile)) : List ClassDecl → Assembled
  | [] => ⟨done.reverse, none⟩
  | cls :: rest =>
    match cls.assemble hierarchy compute version with
    | .error e => ⟨done.reverse, some e⟩
    | .ok file => assembleFrom hierarchy compute version ((cls.name, file) :: done) rest

def assemble (listing : Listing) (compute : Compute) (version : Version) : Assembled :=
  assembleFrom listing.knownClasses compute version [] listing.classes

end Listing

end JvmAssembler
