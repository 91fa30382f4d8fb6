import JvmAssembler.AccessFlags
import JvmAssembler.Error

/-!
# JvmAssembler.ClassFile

The layout of a finished class: the tables of a class file, each with its `bytes`.

Rows refer to the constant pool by index, and an absent reference is index zero. An attribute is kept in
its encoded form, so that every kind of attribute can stand in one list.
-/

namespace JvmAssembler

open Bytes

def optionalIndex (i : Option Nat) : List UInt8 := u2 (i.getD 0)

/-! ### Attributes -/

/-- An attribute: the index of its name and its encoded body. -/
structure Attribute where
  name : Nat
  body : List UInt8
  deriving DecidableEq

/-- The bytes of an attribute: name, length of the body, body. -/
def Attribute.bytes (a : Attribute) : List UInt8 := u2 a.name ++ u4 a.body.length ++ a.body

/-- A row of the exception table, which protects the offsets from `start` up to below `stop`. -/
structure ExceptionRow where
  start : Nat
  stop : Nat
  handler : Nat
  /-- No class catches everything. -/
  catchType : Option Nat
  deriving DecidableEq

def ExceptionRow.bytes (r : ExceptionRow) : List UInt8 :=
  u2 r.start ++ u2 r.stop ++ u2 r.handler ++ optionalIndex r.catchType

/-- The line that an offset belongs to. -/
structure LineRow where
  start : Nat
  line : UInt16
  deriving DecidableEq

def LineRow.bytes (r : LineRow) : List UInt8 := u2 r.start ++ u2 r.line.toNat

/-- The scope of a local variable. -/
structure LocalRow where
  start : Nat
  length : Nat
  name : Nat
  /-- A descriptor, or a generic signature in the table of those. -/
  descriptor : Nat
  index : UInt16
  deriving DecidableEq

def LocalRow.bytes (r : LocalRow) : List UInt8 :=
  u2 r.start ++ u2 r.length ++ u2 r.name ++ u2 r.descriptor ++ u2 r.index.toNat

/-- A bootstrap method and its arguments. -/
structure BootstrapRow where
  handle : Nat
  arguments : List Nat
  deriving DecidableEq

def BootstrapRow.bytes (r : BootstrapRow) : List UInt8 := u2 r.handle ++ table u2 r.arguments

/-- A class that is a member of another, or has no outer class, or has not even a name. -/
structure InnerClassRow where
  inner : Nat
  outer : Option Nat
  name : Option Nat
  flags : AccessFlags .ofInnerClass
  deriving DecidableEq

def InnerClassRow.bytes (r : InnerClassRow) : List UInt8 :=
  u2 r.inner ++ optionalIndex r.outer ++ optionalIndex r.name ++ u2 r.flags.bits.toNat

/-- The body of a method. -/
structure CodeBody where
  maxStack : Nat
  maxLocals : Nat
  code : List UInt8
  exceptions : List ExceptionRow
  attributes : List Attribute
  deriving DecidableEq

def CodeBody.bytes (c : CodeBody) : List UInt8 :=
  u2 c.maxStack ++ u2 c.maxLocals ++ u4 c.code.length ++ c.code ++
    table ExceptionRow.bytes c.exceptions ++ table Attribute.bytes c.attributes

/-! ### Members and classes -/

/-- A field or method. -/
structure Member (kind : FlagKind) where
  flags : AccessFlags kind
  name : Nat
  descriptor : Nat
  attributes : List Attribute
  deriving DecidableEq

/-- The bytes of a field or method. -/
def Member.bytes {kind : FlagKind} (m : Member kind) : List UInt8 :=
  u2 m.flags.bits.toNat ++ u2 m.name ++ u2 m.descriptor ++ table Attribute.bytes m.attributes

/-- A class file version. -/
structure Version where
  major : UInt16
  minor : UInt16 := 0
  deriving DecidableEq

namespace Version

/-- Versions are ordered by major, then by minor number. -/
def le (a b : Version) : Bool := a.major < b.major || (a.major == b.major && a.minor ≤ b.minor)

/-- The first version with stack maps. -/
def stackMaps : Version := ⟨50, 0⟩

/-- The version to use unless told otherwise. -/
def default : Version := ⟨52, 0⟩

/-- The bytes of a version, minor number first. -/
def bytes (v : Version) : List UInt8 := u2 v.minor.toNat ++ u2 v.major.toNat

end Version

/-- A finished class. -/
structure ClassFile where
  version : Version
  /-- One more than the last index of the pool. -/
  poolCount : Nat
  pool : List UInt8
  flags : AccessFlags .ofClass
  thisClass : Nat
  superClass : Option Nat
  interfaces : List Nat
  fields : List (Member .ofField)
  methods : List (Member .ofMethod)
  attributes : List Attribute
  deriving DecidableEq

def ClassFile.bytes (c : ClassFile) : List UInt8 :=
  [0xCA, 0xFE, 0xBA, 0xBE] ++ c.version.bytes ++ u2 c.poolCount ++ c.pool ++ u2 c.flags.bits.toNat ++
    u2 c.thisClass ++ optionalIndex c.superClass ++ table u2 c.interfaces ++
    table Member.bytes c.fields ++ table Member.bytes c.methods ++ table Attribute.bytes c.attributes

end JvmAssembler
