import JvmAssembler.Bytes
import JvmAssembler.Number.Shortest
import JvmAssembler.Text.ModifiedUtf8
import JvmAssembler.Text.Quoted

/-!
# JvmAssembler.Constant

The constants of a class file, in three forms.

* `Loadable` is what an instruction can push: a number, a text, a class, a method type or a handle.
* `Entry` is a row of the constant pool by its meaning: names and descriptors are texts.
* `CpInfo` is a row as it is stored: names and descriptors are indices of other rows.

Floating point constants are held as bit patterns, so two constants are equal exactly when they are
stored alike. Each form has a `describe`, the text by which messages show it.
-/

namespace JvmAssembler

/-! ### Method handles -/

/-- What a method handle does with its member. -/
inductive HandleKind
  | getField | getStatic | putField | putStatic
  | invokeVirtual | invokeStatic | invokeSpecial | newInvokeSpecial | invokeInterface
  deriving DecidableEq

namespace HandleKind

/-- All kinds, in order of their tags. -/
def all : List HandleKind :=
  [getField, getStatic, putField, putStatic, invokeVirtual, invokeStatic, invokeSpecial,
    newInvokeSpecial, invokeInterface]

/-- The reference kind of the class file. -/
def tag : HandleKind → Nat
  | getField => 1
  | getStatic => 2
  | putField => 3
  | putStatic => 4
  | invokeVirtual => 5
  | invokeStatic => 6
  | invokeSpecial => 7
  | newInvokeSpecial => 8
  | invokeInterface => 9

def ofTag? (n : Nat) : Option HandleKind := all.find? (·.tag == n)

@[simp] theorem ofTag?_tag (k : HandleKind) : ofTag? k.tag = some k := by cases k <;> rfl

/-- Whether the member is a field. -/
def isFieldAccess : HandleKind → Bool
  | getField | getStatic | putField | putStatic => true
  | _ => false

def describe : HandleKind → String
  | getField => "GetField"
  | getStatic => "GetStatic"
  | putField => "PutField"
  | putStatic => "PutStatic"
  | invokeVirtual => "InvokeVirtual"
  | invokeStatic => "InvokeStatic"
  | invokeSpecial => "InvokeSpecial"
  | newInvokeSpecial => "NewInvokeSpecial"
  | invokeInterface => "InvokeInterface"

end HandleKind

/-- A method handle. -/
structure Handle where
  kind : HandleKind
  owner : String
  name : String
  descriptor : String
  isInterface : Bool
  deriving DecidableEq

/-- A field or method of a class. -/
structure MemberRef where
  owner : String
  name : String
  descriptor : String
  deriving DecidableEq

/-! ### Describing values -/

namespace Describe

def part (name value : String) : String := name ++ ": " ++ value

def record (name : String) (parts : List String) : String :=
  name ++ " \x7b " ++ ", ".intercalate parts ++ " \x7d"

/-- A value made from other values. -/
def call (name : String) (arguments : List String) : String :=
  name ++ "(" ++ ", ".intercalate arguments ++ ")"

def bool (b : Bool) : String := if b then "true" else "false"

def index (i : Nat) : String := call "ConstantIndex" [toString i]

/-- An index of the pool where rows of one kind stand. -/
def typedIndex (kind : String) (i : Nat) : String := call (kind ++ "ConstantIndex") [index i]

end Describe

open Describe in
/-- The text by which messages show a handle. -/
def Handle.describe (h : Handle) : String :=
  record "Handle"
    [part "kind" h.kind.describe, part "owner" (Text.quoted h.owner), part "name" (Text.quoted h.name),
      part "descriptor" (Text.quoted h.descriptor), part "is_interface" (bool h.isInterface)]

open Describe in
/-- The text by which messages show a member. -/
def MemberRef.describe (m : MemberRef) : String :=
  record "MemberRef"
    [part "owner" (Text.quoted m.owner), part "name" (Text.quoted m.name),
      part "descriptor" (Text.quoted m.descriptor)]

/-! ### Loadable constants -/

/-- A constant that can be pushed, or given to a bootstrap method. -/
inductive Loadable
  | int (value : Int32)
  | float (bits : UInt32)
  | long (value : Int64)
  | double (bits : UInt64)
  | string (text : String)
  /-- A class by its internal name, or an array type by its descriptor. -/
  | cls (name : String)
  | methodType (descriptor : String)
  | methodHandle (handle : Handle)
  deriving DecidableEq

namespace Loadable

/-- Constants of two slots. -/
def isWide : Loadable → Bool
  | long _ | double _ => true
  | _ => false

/-- Slots taken on the operand stack. -/
def width (c : Loadable) : Nat := if c.isWide then 2 else 1

open Describe in
/-- The text by which messages show a loadable constant. -/
def describe : Loadable → String
  | int value => call "Integer" [toString value.toInt]
  | float bits => call "Float" [Number.Format.binary32.text bits.toNat]
  | long value => call "Long" [toString value.toInt]
  | double bits => call "Double" [Number.Format.binary64.text bits.toNat]
  | string text => call "String" [Text.quoted text]
  | cls name => call "Class" [Text.quoted name]
  | methodType descriptor => call "MethodType" [Text.quoted descriptor]
  | methodHandle handle => call "MethodHandle" [handle.describe]

end Loadable

/-! ### Rows by their meaning -/

/-- A row of the constant pool, with everything it refers to spelled out. -/
inductive Entry
  | utf8 (text : String)
  | integer (value : Int32)
  | float (bits : UInt32)
  | long (value : Int64)
  | double (bits : UInt64)
  | cls (name : String)
  | string (text : String)
  | methodType (descriptor : String)
  | nameAndType (name descriptor : String)
  | fieldRef (member : MemberRef)
  | methodRef (member : MemberRef)
  | interfaceMethodRef (member : MemberRef)
  | methodHandle (handle : Handle)
  | invokeDynamic (bootstrap : Nat) (name descriptor : String)
  deriving DecidableEq

namespace Entry

/-- Pool indices taken by a row: two for `long` and `double`. -/
def width : Entry → Nat
  | long _ | double _ => 2
  | _ => 1

open Describe in
/-- The text by which messages show a row. -/
def describe : Entry → String
  | utf8 text => call "Utf8" [Text.quoted text]
  | integer value => call "Integer" [toString value.toInt]
  | float bits => call "Float" [toString bits.toNat]
  | long value => call "Long" [toString value.toInt]
  | double bits => call "Double" [toString bits.toNat]
  | cls name => call "Class" [Text.quoted name]
  | string text => call "String" [Text.quoted text]
  | methodType descriptor => call "MethodType" [Text.quoted descriptor]
  | nameAndType name descriptor =>
    record "NameAndType" [part "name" (Text.quoted name), part "descriptor" (Text.quoted descriptor)]
  | fieldRef member => call "FieldRef" [member.describe]
  | methodRef member => call "MethodRef" [member.describe]
  | interfaceMethodRef member => call "InterfaceMethodRef" [member.describe]
  | methodHandle handle => call "MethodHandle" [handle.describe]
  | invokeDynamic bootstrap name descriptor =>
    record "InvokeDynamic"
      [part "bootstrap_method" (toString bootstrap), part "name" (Text.quoted name),
        part "descriptor" (Text.quoted descriptor)]

end Entry

/-! ### Rows as they are stored -/

/-- A row of the constant pool as the class file stores it. -/
inductive CpInfo
  | utf8 (text : String)
  | integer (value : Int32)
  | float (bits : UInt32)
  | long (value : Int64)
  | double (bits : UInt64)
  | cls (name : Nat)
  | string (text : Nat)
  | fieldRef (owner nameAndType : Nat)
  | methodRef (owner nameAndType : Nat) (isInterface : Bool)
  | nameAndType (name descriptor : Nat)
  | methodHandle (kind : HandleKind) (member : Nat)
  | methodType (descriptor : Nat)
  | invokeDynamic (bootstrap nameAndType : Nat)
  deriving DecidableEq

namespace CpInfo

open Bytes in
/-- The bytes of a row: a tag, then its parts. -/
def bytes : CpInfo → List UInt8
  | utf8 text =>
    let encoded := Text.ModifiedUtf8.encode text
    u1 1 ++ u2 encoded.length ++ encoded
  | integer value => u1 3 ++ u4 value.toUInt32.toNat
  | float bits => u1 4 ++ u4 bits.toNat
  | long value => u1 5 ++ u8 value.toUInt64.toNat
  | double bits => u1 6 ++ u8 bits.toNat
  | cls name => u1 7 ++ u2 name
  | string text => u1 8 ++ u2 text
  | fieldRef owner nt => u1 9 ++ u2 owner ++ u2 nt
  | methodRef owner nt isInterface =>
    u1 (if isInterface then 11 else 10) ++ u2 owner ++ u2 nt
  | nameAndType name descriptor => u1 12 ++ u2 name ++ u2 descriptor
  | methodHandle kind member => u1 15 ++ u1 kind.tag ++ u2 member
  | methodType descriptor => u1 16 ++ u2 descriptor
  | invokeDynamic bootstrap nt => u1 18 ++ u2 bootstrap ++ u2 nt

open Describe in
/-- The text by which messages show a stored row. -/
def describe : CpInfo → String
  | utf8 text => call "Utf8" [Text.quoted text]
  | integer value => call "Integer" [toString value.toInt]
  | float bits => call "Float" [Number.Format.binary32.text bits.toNat]
  | long value => call "Long" [toString value.toInt]
  | double bits => call "Double" [Number.Format.binary64.text bits.toNat]
  | cls name => call "Class" [typedIndex "Utf8" name]
  | string text => call "String" [typedIndex "Utf8" text]
  | fieldRef owner nt =>
    call "FieldRef" [typedIndex "Class" owner, typedIndex "NameAndType" nt]
  | methodRef owner nt isInterface =>
    record "MethodRef"
      [part "class" (typedIndex "Class" owner),
        part "name_and_type" (typedIndex "NameAndType" nt),
        part "is_interface" (bool isInterface)]
  | nameAndType name descriptor =>
    record "NameAndType"
      [part "name" (typedIndex "Utf8" name), part "descriptor" (typedIndex "Utf8" descriptor)]
  | methodHandle kind member =>
    record "MethodHandle" [part "handle_kind" kind.describe, part "member" (index member)]
  | methodType descriptor =>
    record "MethodType" [part "descriptor" (typedIndex "Utf8" descriptor)]
  | invokeDynamic bootstrap nt =>
    record "InvokeDynamic"
      [part "bootstrap_method" (toString bootstrap),
        part "method_descriptor" (typedIndex "NameAndType" nt)]

end CpInfo

end JvmAssembler
