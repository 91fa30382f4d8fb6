import JvmAssembler.Listing.Instruction
import JvmAssembler.Text.Lines

/-!
# JvmAssembler.Listing.Parsing

Reading a listing line by line.

Between lines it is known what was declared so far and what is open: nothing, a class, or a class and a method
of it (`Scope`). Where a line is wrong in more than one way, most directives are read before it is asked whether
they may stand here, and what is left of the line comes last; a header is only read where it may stand.
-/

namespace JvmAssembler

namespace Listing

/-- What is open between two lines. The lists of an open declaration are in reverse order. -/
inductive Scope
  | outside
  | inClass (cls : ClassDecl)
  | inMethod (cls : ClassDecl) (method : MethodDecl)
  deriving DecidableEq

/-- What was read so far, the finished declarations in reverse order. -/
structure State where
  hierarchy : List (String × ClassInfo) := []
  classes : List ClassDecl := []
  scope : Scope := .outside
  deriving DecidableEq

def MethodDecl.close (method : MethodDecl) : MethodDecl := { method with body := method.body.reverse }

def ClassDecl.close (cls : ClassDecl) : ClassDecl :=
  { cls with
    nestMembers := cls.nestMembers.reverse
    fields := cls.fields.reverse
    methods := cls.methods.reverse }

namespace State

/-- Change the open class; no method may be open. -/
def updateClass (s : State) (directive : String) (f : ClassDecl → ClassDecl) : Except Fault State :=
  match s.scope with
  | .outside => .error (.outsideClass directive)
  | .inClass cls => .ok { s with scope := .inClass (f cls) }
  | .inMethod .. => .error (.insideMethod directive)

def updateMethod (s : State) (what : String) (f : MethodDecl → MethodDecl) : Except Fault State :=
  match s.scope with
  | .inMethod cls method => .ok { s with scope := .inMethod cls (f method) }
  | _ => .error (.outsideMethod what)

def addStatement (s : State) (what : String) (statement : Statement) : Except Fault State :=
  s.updateMethod what fun method => { method with body := statement :: method.body }

/-- The classes, with the open one, in reverse order. -/
def allClasses (s : State) : List ClassDecl :=
  match s.scope with
  | .outside => s.classes
  | .inClass cls | .inMethod cls _ => cls.close :: s.classes

/-- Start a class, which ends the one before it. -/
def openClass (s : State) (cls : ClassDecl) : State :=
  { s with classes := s.allClasses, scope := .inClass cls }

def isInMethod (s : State) : Bool :=
  match s.scope with
  | .inMethod .. => true
  | _ => false

def closeMethod (s : State) : Except Fault State :=
  match s.scope with
  | .inMethod cls method =>
    .ok { s with scope := .inClass { cls with methods := method.close :: cls.methods } }
  | _ => .error .endWithoutMethod

end State

/-! ### Directives -/

namespace Reader

/-- The super class and the interfaces in a header. -/
def superTypes : Reader (Option String × List String) := do
  let superClass ← after "extends" (word "a super class")
  let interfaces ← namesAfter "implements" "an interface name"
  return (superClass, interfaces)

/-- The header of a class. Its super class is the root unless it says otherwise. -/
def classHeader : Reader ClassDecl := do
  let flags ← flags .ofClass
  let name ← word "a class name"
  let (superClass, interfaces) ← superTypes
  return { flags, name, superClass := superClass.getD objectClass, interfaces }

/-- What is said of a class that is not declared. Its super class is the root, unless it says otherwise or is
the root itself. -/
def hierarchyEntry : Reader (String × ClassInfo) := do
  let isInterface ← keyword "interface"
  let name ← word "a class name"
  let (superClass, interfaces) ← superTypes
  let root := if name = objectClass then none else some objectClass
  return (name, ⟨superClass.or root, interfaces, isInterface⟩)

def field : Reader FieldDecl := do
  let flags ← flags .ofField
  let name ← word "a field name"
  let descriptor ← word "a field descriptor"
  let constant ← after "=" constant
  return { flags, name, descriptor, constant }

def methodHeader (line : Nat) : Reader MethodDecl := do
  let flags ← flags .ofMethod
  let name ← word "a method name"
  let descriptor ← word "a method descriptor"
  let exceptions ← namesAfter "throws" "an exception class"
  return { line, flags, name, descriptor, exceptions }

def limit : Reader (MethodDecl → MethodDecl) := do
  let isStack ←
    match ← word "`stack` or `locals`" with
    | "stack" => pure true
    | "locals" => pure false
    | other => throw (.unknownLimit other)
  let value ← u16 "limit"
  if isStack then return fun method => { method with maxStack := some value }
  else return fun method => { method with maxLocals := some value }

/-- The labels from which and up to which something holds. -/
def range : Reader (String × String) := do
  expect "from"
  let start ← label
  expect "to"
  let stop ← label
  return (start, stop)

/-- A handler; `all` catches everything. -/
def catchClause : Reader (Handler String) := do
  let caught ← word "a class name or `all`"
  let (start, stop) ← range
  expect "using"
  let handler ← label
  return { start, stop, handler, catchType := if caught = "all" then none else some caught }

def localScope : Reader (LocalScope String) := do
  let index ← u16 "local variable index"
  expect "is"
  let name ← word "a variable name"
  let descriptor ← word "a field descriptor"
  let signature ← after "signature" (quoted "a signature")
  let (start, stop) ← range
  return { name, descriptor, signature, start, stop, index }

def directive (line : Nat) (s : State) (first : String) : Reader State := do
  match first with
  | ".class" =>
    if s.isInMethod then throw .classInsideMethod
    return s.openClass (← classHeader)
  | ".hierarchy" =>
    if s.isInMethod then throw (.insideMethod first)
    let entry ← hierarchyEntry
    return { s with hierarchy := entry :: s.hierarchy }
  | ".source" =>
    let file ← quoted "a file name"
    s.updateClass first fun cls => { cls with sourceFile := some file }
  | ".signature" =>
    let signature ← quoted "a signature"
    s.updateClass first fun cls => { cls with signature := some signature }
  | ".nesthost" =>
    let host ← word "a class name"
    s.updateClass first fun cls => { cls with nestHost := some host }
  | ".nestmember" =>
    let member ← word "a class name"
    s.updateClass first fun cls => { cls with nestMembers := member :: cls.nestMembers }
  | ".field" =>
    let field ← field
    s.updateClass first fun cls => { cls with fields := field :: cls.fields }
  | ".method" =>
    match s.scope with
    | .outside => throw (.outsideClass first)
    | .inMethod .. => throw (.insideMethod first)
    | .inClass cls => return { s with scope := .inMethod cls (← methodHeader line) }
  | ".end" =>
    expect "method"
    s.closeMethod
  | ".limit" =>
    let change ← limit
    s.updateMethod first change
  | ".catch" =>
    let handler ← catchClause
    s.addStatement first (.tryCatch handler)
  | ".line" =>
    let number ← u16 "line number"
    s.addStatement first (.line number)
  | ".var" =>
    let scope ← localScope
    s.addStatement first (.localVariable scope)
  | ".frame" =>
    let frame ← frame
    s.addStatement first (.frame frame)
  | other => throw (.unknownDirective other)

/-! ### Lines -/

/-- A line, or what follows the label of a line, that starts with a mnemonic. -/
def instructionLine (s : State) (mnemonic : String) : Reader State := do
  let i ← instruction mnemonic
  finish
  s.addStatement "instructions" (.instruction i)

/-- The label at the start of a line. -/
def label? (word : String) : Option String :=
  let chars := word.toList
  if chars.getLast? = some ':' then some (String.ofList chars.dropLast) else none

/-- A line: nothing, a label with or without an instruction behind it, a directive, or an instruction. -/
def line (number : Nat) (s : State) : Reader State := do
  if (← get).isEmpty then return s
  let first ← word "a directive, label, or instruction"
  match label? first with
  | some name =>
    let s ← s.addStatement "labels" (.label name)
    match ← get with
    | .word mnemonic :: rest =>
      set rest
      instructionLine s mnemonic
    | _ =>
      finish
      return s
  | none =>
    if first.toList.head? = some '.' then
      let s ← directive number s first
      finish
      return s
    else instructionLine s first

end Reader

namespace State

def readLine (s : State) (number : Nat) (chars : List Char) : Except Fault State :=
  match Token.scan chars with
  | .error fault => .error fault
  | .ok tokens =>
    match Reader.line number s tokens with
    | .error fault => .error fault
    | .ok (s, _) => .ok s

def readLines (s : State) (number : Nat) : List (List Char) → Except ParseError State
  | [] => .ok s
  | chars :: rest =>
    match s.readLine number chars with
    | .error fault => .error ⟨number, fault⟩
    | .ok s => readLines s (number + 1) rest

/-- The listing that ends with a given line. -/
def listing (s : State) (last : Nat) : Except ParseError Listing :=
  match s.scope with
  | .inMethod _ method => .error ⟨last, .missingEnd method.name⟩
  | _ => .ok { hierarchy := s.hierarchy.reverse, classes := s.allClasses.reverse }

end State

def parse (source : String) : Except ParseError Listing :=
  let lines := Text.lines source.toList
  match ({} : State).readLines 1 lines with
  | .error e => .error e
  | .ok s => s.listing lines.length

end Listing

end JvmAssembler
