import JvmAssembler.ClassWriter

/-!
# JvmAssembler.Listing.Basic

Classes as a listing declares them.

A listing holds one or more classes, one declaration or instruction a line. Directives start with a dot, labels
end with a colon, and `#` starts a comment:

```text
.class public Hello
.source "Hello.java"

.method public static main ([Ljava/lang/String;)V
    getstatic java/lang/System out Ljava/io/PrintStream;
    ldc "hello"
    invokevirtual java/io/PrintStream println (Ljava/lang/String;)V
    return
.end method
```

A class runs until the next `.class` or the end of the listing. Places in the code are named, so everything
here is spelled with `String` labels. Encodings are not the listing's business: `iload_2`, `iload 2` and
`wide iload 2` declare the same instruction, and so do `ldc`, `ldc_w` and `ldc2_w`.
-/

namespace JvmAssembler

namespace Listing

/-- A line of a method's body. -/
inductive Statement
  | label (name : String)
  | instruction (instruction : Instruction String)
  | tryCatch (handler : Handler String)
  /-- The source line of what follows. -/
  | line (number : UInt16)
  | localVariable (scope : LocalScope String)
  | frame (frame : ExplicitFrame String)
  deriving DecidableEq

/-- A field. -/
structure FieldDecl where
  flags : AccessFlags .ofField
  name : String
  descriptor : String
  constant : Option Loadable
  deriving DecidableEq

/-- A method. -/
structure MethodDecl where
  /-- The line of its header. -/
  line : Nat
  flags : AccessFlags .ofMethod
  name : String
  descriptor : String
  exceptions : List String
  maxStack : Option UInt16 := none
  maxLocals : Option UInt16 := none
  body : List Statement := []
  deriving DecidableEq

/-- A class. -/
structure ClassDecl where
  flags : AccessFlags .ofClass
  name : String
  superClass : String
  interfaces : List String
  sourceFile : Option String := none
  signature : Option String := none
  nestHost : Option String := none
  nestMembers : List String := []
  fields : List FieldDecl := []
  methods : List MethodDecl := []
  deriving DecidableEq

/-- What the hierarchy should know of a class. -/
def ClassDecl.info (cls : ClassDecl) : ClassInfo :=
  ⟨some cls.superClass, cls.interfaces, cls.flags.isInterface⟩

/-! ### Faults -/

/-- Why a line is not part of a listing. -/
inductive Fault
  /-- A quoted text that does not end on its line. -/
  | unterminatedString
  | badUnicodeEscape (digits : String)
  | unknownEscape (c : Char)
  /-- The units of a quoted text are not those of any characters. -/
  | unpairedSurrogate
  /-- The line ends where something should stand. -/
  | expected (what : String)
  /-- A quoted text stands where a word should. -/
  | foundString (what : String)
  /-- No quoted text stands where one should. -/
  | expectedString (what : String)
  | expectedKeyword (keyword : String)
  /-- A word that does not read as a number of its kind. -/
  | invalidNumber (word what : String)
  /-- The line goes on where it should end. -/
  | unexpectedWord (word : String)
  | unexpectedString (text : String)
  | unknownHandleKind (word : String)
  | unknownInstruction (word : String)
  | notWidenable (mnemonic : String)
  | notWritable (mnemonic : String)
  | notPrimitive (word : String)
  /-- A case of a `lookupswitch` without a colon. -/
  | notAPair (word : String)
  | outsideMethod (what : String)
  | insideMethod (directive : String)
  | classInsideMethod
  | outsideClass (directive : String)
  | endWithoutMethod
  | unknownLimit (word : String)
  | unknownFrameKind (word : String)
  | unknownDirective (word : String)
  /-- The listing ends inside a method. -/
  | missingEnd (method : String)
  deriving DecidableEq

def ticked (word : String) : String := "`" ++ word ++ "`"

namespace Fault

def message : Fault → String
  | unterminatedString => "unterminated string"
  | badUnicodeEscape digits => "bad unicode escape " ++ ticked ("\\u" ++ digits)
  | unknownEscape c => "unknown escape " ++ ticked ("\\" ++ String.singleton c)
  | unpairedSurrogate => "string contains an unpaired surrogate"
  | expected what => "expected " ++ what
  | foundString what => "expected " ++ what ++ " but found a string"
  | expectedString what => "expected " ++ what ++ " (as a quoted string)"
  | expectedKeyword keyword => "expected " ++ ticked keyword
  | invalidNumber word what => ticked word ++ " is not a valid " ++ what
  | unexpectedWord word => "unexpected " ++ ticked word
  | unexpectedString text => "unexpected string " ++ Text.quoted text
  | unknownHandleKind word => ticked word ++ " is not a method handle kind"
  | unknownInstruction word => "unknown instruction " ++ ticked word
  | notWidenable mnemonic => ticked mnemonic ++ " cannot be widened"
  | notWritable mnemonic => ticked mnemonic ++ " cannot be written directly"
  | notPrimitive word => ticked word ++ " is not a primitive type"
  | notAPair word => "expected `key:label` but found " ++ ticked word
  | outsideMethod what => what ++ " must be inside a method"
  | insideMethod directive => ticked directive ++ " is not allowed inside a method"
  | classInsideMethod => "`.class` inside a method (missing `.end method`?)"
  | outsideClass directive => ticked directive ++ " must follow `.class`"
  | endWithoutMethod => "`.end method` without `.method`"
  | unknownLimit word => "unknown limit " ++ ticked word
  | unknownFrameKind word => "unknown frame kind " ++ ticked word
  | unknownDirective word => "unknown directive " ++ ticked word
  | missingEnd method => "method " ++ ticked method ++ " is missing `.end method`"

end Fault

/-- A fault and the line that it was found on; lines are counted from one. -/
structure ParseError where
  line : Nat
  fault : Fault
  deriving DecidableEq

def ParseError.message (e : ParseError) : String := s!"line {e.line}: " ++ e.fault.message

end Listing

/-- A listing: what it says of classes that it does not declare, and the classes. -/
structure Listing where
  hierarchy : List (String × ClassInfo) := []
  classes : List Listing.ClassDecl := []
  deriving DecidableEq

end JvmAssembler
