/-!
# JvmAssembler.Descriptor

Field and method descriptors: the types of the virtual machine written as text.

* A base type is one letter, a class is `L` name `;`, an array is one `[` per dimension before its
  element type, and a method is its parameter types in parentheses before its return type.
* Each type has a reader, which takes a prefix of the characters, and a `render`. `parse` wants the
  whole text.
* `Fault` is what can be wrong with a text, in the order in which a reader meets it.
-/

namespace JvmAssembler

namespace Descriptor

/-- Why a text is not a descriptor. -/
inductive Fault
  /-- The descriptor ends before the text does. -/
  | leftover (c : Char)
  | badBaseType (c : Char)
  | missingBaseType
  /-- A class name that is never closed, as far as it goes. -/
  | unterminated (name : String)
  | emptyClassName
  /-- A character that no class name holds. -/
  | badClassChar (c : Char)
  | notAnObject
  | tooManyDimensions
  | badReferenceType (c : Char)
  | missingFieldType
  | badFieldType (c : Char)
  | missingParenthesis
  | tooManyParameters
  deriving DecidableEq

namespace Fault

def message : Fault → String
  | leftover c => s!"Unexpected leftover input '{c}'"
  | badBaseType c => s!"Invalid base type character '{c}'"
  | missingBaseType => "Missing base type character"
  | unterminated name => s!"Missing terminator for 'L{name}'"
  | emptyClassName => "Empty class name"
  | badClassChar c => s!"Invalid character '{c}' in class name"
  | notAnObject => "Expected object type to start with `L`"
  | tooManyDimensions => "Array types have at most 255 dimensions"
  | badReferenceType c => s!"Invalid reference type character '{c}'"
  | missingFieldType => "Missing field type"
  | badFieldType c => s!"Invalid field type character '{c}'"
  | missingParenthesis => "Expected '(' for method"
  | tooManyParameters => "Method descriptor has more than 255 parameter slots"

/-- Whether the text ended too early, rather than holding something wrong. -/
def atEnd : Fault → Bool
  | missingBaseType | unterminated _ | missingFieldType => true
  | _ => false

end Fault

/-- A reader of a prefix of the characters, which returns what follows. -/
abbrev Reader (α : Type) := List Char → Except Fault (α × List Char)

def Reader.run {α : Type} (reader : Reader α) (text : String) : Except Fault α :=
  match reader text.toList with
  | .error fault => .error fault
  | .ok (value, []) => .ok value
  | .ok (_, c :: _) => .error (.leftover c)

end Descriptor

open Descriptor

/-! ### Base types -/

/-- Primitive value types. -/
inductive BaseType
  | byte | char | double | float | int | long | short | boolean
  deriving DecidableEq

namespace BaseType

def letter : BaseType → Char
  | byte => 'B'
  | char => 'C'
  | double => 'D'
  | float => 'F'
  | int => 'I'
  | long => 'J'
  | short => 'S'
  | boolean => 'Z'

def ofLetter? : Char → Option BaseType
  | 'B' => some byte
  | 'C' => some char
  | 'D' => some double
  | 'F' => some float
  | 'I' => some int
  | 'J' => some long
  | 'S' => some short
  | 'Z' => some boolean
  | _ => none

@[simp] theorem ofLetter?_letter (b : BaseType) : ofLetter? b.letter = some b := by
  cases b <;> rfl

/-- The element type code of `newarray`. -/
def arrayCode : BaseType → Nat
  | boolean => 4
  | char => 5
  | float => 6
  | double => 7
  | byte => 8
  | short => 9
  | int => 10
  | long => 11

def ofArrayCode? : Nat → Option BaseType
  | 4 => some boolean
  | 5 => some char
  | 6 => some float
  | 7 => some double
  | 8 => some byte
  | 9 => some short
  | 10 => some int
  | 11 => some long
  | _ => none

@[simp] theorem ofArrayCode?_arrayCode (b : BaseType) : ofArrayCode? b.arrayCode = some b := by
  cases b <;> rfl

/-- Slots taken by a value: two for `long` and `double`. -/
def width : BaseType → Nat
  | double | long => 2
  | _ => 1

def render (b : BaseType) : String := String.singleton b.letter

def read : Reader BaseType
  | [] => .error .missingBaseType
  | c :: cs =>
    match ofLetter? c with
    | some b => .ok (b, cs)
    | none => .error (.badBaseType c)

def parse (text : String) : Except Fault BaseType := Reader.run read text

end BaseType

/-! ### Classes -/

/-- The internal name of a class, such as `java/lang/Object`. -/
structure ClassName where
  name : String
  deriving DecidableEq

namespace ClassName

def render (c : ClassName) : String := "L" ++ c.name ++ ";"

/-- Read the name of a class up to its semicolon; `seen` holds the characters so far, last first. -/
def readName (seen : List Char) : Reader ClassName
  | [] => .error (.unterminated (String.ofList seen.reverse))
  | c :: cs =>
    if c = ';' then
      if seen.isEmpty then .error .emptyClassName else .ok (⟨String.ofList seen.reverse⟩, cs)
    else if c = '.' ∨ c = '[' then .error (.badClassChar c)
    else readName (c :: seen) cs

def read : Reader ClassName
  | 'L' :: cs => readName [] cs
  | _ => .error .notAnObject

def parse (text : String) : Except Fault ClassName := Reader.run read text

end ClassName

/-! ### Reference types -/

/-- Classes and arrays. An array has a number of dimensions and an element type that is no array. -/
inductive RefType
  | object (c : ClassName)
  | objectArray (dimensions : Nat) (element : ClassName)
  | primitiveArray (dimensions : Nat) (element : BaseType)
  deriving DecidableEq

namespace RefType

def brackets (dimensions : Nat) : String := String.ofList (List.replicate dimensions '[')

def render : RefType → String
  | object c => c.render
  | objectArray dimensions c => brackets dimensions ++ c.render
  | primitiveArray dimensions b => brackets dimensions ++ b.render

def read : Reader RefType
  | [] => .error .missingFieldType
  | c :: cs =>
    if c = 'L' then
      return ((← ClassName.read (c :: cs)).map .object id)
    else if c = '[' then
      let (opening, element) := (c :: cs).span (· == '[')
      if 255 < opening.length then .error .tooManyDimensions
      else if element.head? = some 'L' then
        return ((← ClassName.read element).map (.objectArray opening.length) id)
      else
        return ((← BaseType.read element).map (.primitiveArray opening.length) id)
    else .error (.badReferenceType c)

def parse (text : String) : Except Fault RefType := Reader.run read text

end RefType

/-! ### Field types -/

/-- The type of a field, of a parameter or of a local variable. -/
inductive FieldType
  | base (b : BaseType)
  | ref (r : RefType)
  deriving DecidableEq

namespace FieldType

/-- Slots taken by a value. -/
def width : FieldType → Nat
  | base b => b.width
  | ref _ => 1

def render : FieldType → String
  | base b => b.render
  | ref r => r.render

def read : Reader FieldType
  | [] => .error .missingFieldType
  | c :: cs =>
    if (BaseType.ofLetter? c).isSome then
      return ((← BaseType.read (c :: cs)).map .base id)
    else if c = 'L' ∨ c = '[' then
      return ((← RefType.read (c :: cs)).map .ref id)
    else .error (.badFieldType c)

def parse (text : String) : Except Fault FieldType := Reader.run read text

end FieldType

/-! ### Methods -/

/-- Parameter and return types of a method; no return type stands for `void`. -/
structure MethodDescriptor where
  parameters : List FieldType
  returnType : Option FieldType
  deriving DecidableEq

namespace MethodDescriptor

/-- Slots taken by the parameters, with one more for a receiver. -/
def parameterLength (d : MethodDescriptor) (receiver : Bool) : Nat :=
  (if receiver then 1 else 0) + (d.parameters.map FieldType.width).foldr (· + ·) 0

/-- Slots taken by the returned value. -/
def returnLength (d : MethodDescriptor) : Nat :=
  match d.returnType with
  | none => 0
  | some t => t.width

def render (d : MethodDescriptor) : String :=
  "(" ++ String.join (d.parameters.map FieldType.render) ++ ")" ++
    match d.returnType with
    | none => "V"
    | some t => t.render

/-- Read field types up to a closing parenthesis. Each takes a character at least, so a fuel of the
number of characters is never used up; `seen` holds the types so far, last first. -/
def readParameters : Nat → List FieldType → Reader (List FieldType)
  | 0, _, _ => .error .missingFieldType
  | fuel + 1, seen, cs =>
    if cs.head? = some ')' then .ok (seen.reverse, cs.drop 1)
    else
      match FieldType.read cs with
      | .error fault => .error fault
      | .ok (t, rest) => readParameters fuel (t :: seen) rest

def readReturn : Reader (Option FieldType)
  | 'V' :: cs => .ok (none, cs)
  | cs => return ((← FieldType.read cs).map some id)

def read : Reader MethodDescriptor
  | '(' :: cs => do
    let (parameters, cs) ← readParameters (cs.length + 1) [] cs
    let (returnType, cs) ← readReturn cs
    let d : MethodDescriptor := ⟨parameters, returnType⟩
    if 255 < d.parameterLength true then .error .tooManyParameters else .ok (d, cs)
  | _ => .error .missingParenthesis

def parse (text : String) : Except Fault MethodDescriptor := Reader.run read text

end MethodDescriptor

end JvmAssembler
