import JvmAssembler.ClassFile
import JvmAssembler.Hierarchy
import JvmAssembler.Pool.Index

/-!
# JvmAssembler.Pool

The constant pool of a class under construction.

* The pool only grows. A row is encoded when it is first asked for, after the rows it refers to, and
  asking for it again gives the same index. Indices start at one, and a `long` or `double` takes two.
* Two tables live beside it. The *bootstrap table* holds the rows of the `BootstrapMethods` attribute.
  The *type table* holds the types that frames refer to; it is never written to the class file, and has
  indices of its own.
* Operations are in `PoolM`: one that fails keeps the rows that it added before.
-/

namespace JvmAssembler

/-- A type that frames refer to. -/
inductive TypeRow
  /-- A class or interface. -/
  | normal (name : String)
  /-- An object of a class, made by the `new` at an offset, whose constructor has yet to run. -/
  | uninitialized (name : String) (offset : Nat)
  deriving DecidableEq

def TypeRow.name : TypeRow → String
  | normal name => name
  | uninitialized name _ => name

/-- A row of the bootstrap table with the constants it was made from. -/
structure BootstrapEntry where
  row : BootstrapRow
  handle : Handle
  arguments : List Loadable
  deriving DecidableEq

open Digest in
instance : Digest Entry where
  digest entry := UInt64.toNat <|
    match entry with
    | .utf8 text => mixText (mix seed 1) text
    | .integer value => mix (mix seed 3) value.toUInt32.toNat
    | .float bits => mix (mix seed 4) bits.toNat
    | .long value => mix (mix seed 5) value.toUInt64.toNat
    | .double bits => mix (mix seed 6) bits.toNat
    | .cls name => mixText (mix seed 7) name
    | .string text => mixText (mix seed 8) text
    | .fieldRef m => mixText (mixText (mixText (mix seed 9) m.owner) m.name) m.descriptor
    | .methodRef m => mixText (mixText (mixText (mix seed 10) m.owner) m.name) m.descriptor
    | .interfaceMethodRef m => mixText (mixText (mixText (mix seed 11) m.owner) m.name) m.descriptor
    | .nameAndType name descriptor => mixText (mixText (mix seed 12) name) descriptor
    | .methodHandle h =>
      mixText (mixText (mixText (mix (mix seed 15) h.kind.tag) h.owner) h.name) h.descriptor
    | .methodType descriptor => mixText (mix seed 16) descriptor
    | .invokeDynamic bootstrap name descriptor =>
      mixText (mixText (mix (mix seed 18) bootstrap) name) descriptor

open Digest in
instance : Digest TypeRow where
  digest
    | .normal name => (mixText seed name).toNat
    | .uninitialized name offset => (mix (mixText seed name) offset).toNat

open Digest in
instance : Digest BootstrapRow where
  digest row := (row.arguments.foldl mix (mix seed row.handle)).toNat

open Digest in
instance : Digest (Nat × Nat) where
  digest pair := (mix (mix seed pair.1) pair.2).toNat

/-- The constant pool, the bootstrap table and the type table of a class. -/
structure Pool where
  /-- The encoded rows. -/
  bytes : Bytes := #[]
  /-- The row at each index; none at index zero and behind a row of two indices. -/
  slots : Array (Option Entry) := #[none]
  /-- The index of each row. -/
  index : Index Entry := .empty
  bootstraps : Array BootstrapEntry := #[]
  bootstrapIndex : Index BootstrapRow := .empty
  types : Array TypeRow := #[]
  typeIndex : Index TypeRow := .empty
  /-- The merge of two types, smaller row first, where it has been asked for. -/
  merges : Index (Nat × Nat) := .empty

abbrev PoolM := EStateM Error Pool

namespace Pool

def empty : Pool := {}

/-- One more than the last index. -/
def count (pool : Pool) : Nat := pool.slots.size

def entry? (pool : Pool) (i : Nat) : Option Entry := (pool.slots[i]?).join

/-- The row of the bootstrap table at an index. -/
def bootstrap? (pool : Pool) (i : Nat) : Option BootstrapEntry := pool.bootstraps[i]?

def type? (pool : Pool) (i : Nat) : Option TypeRow := pool.types[i]?

/-- The class of a row of the type table. -/
def typeName (pool : Pool) (i : Nat) : String :=
  match pool.type? i with
  | some row => row.name
  | none => ""

/-! ### Rows -/

def slotsOf (entry : Entry) : List (Option Entry) :=
  some entry :: List.replicate (entry.width - 1) none

/-- Append a row. The count is a 16-bit number, so the last index is 65534. -/
def append (entry : Entry) (info : CpInfo) : PoolM Nat := fun pool =>
  let i := pool.count
  if 65535 < i + entry.width then .error (.constantPoolOverflow info.describe i) pool
  else
    .ok i { pool with
      bytes := pool.bytes.write info.bytes
      slots := (slotsOf entry).foldl Array.push pool.slots
      index := pool.index.insert entry i }

/-- The index of a row, which is appended if it is not there; `info` adds the rows it refers to. -/
def intern (entry : Entry) (info : PoolM CpInfo) : PoolM Nat := do
  match (← get).index.find? entry with
  | some i => return i
  | none =>
    let info ← info
    append entry info

def utf8 (text : String) : PoolM Nat :=
  intern (.utf8 text) do
    let length := (Text.ModifiedUtf8.encode text).length
    if 65535 < length then throw (.invalidArgument (.textTooLong length))
    return .utf8 text

/-- A class by its internal name, or an array type by its descriptor. -/
def cls (name : String) : PoolM Nat :=
  intern (.cls name) do return .cls (← utf8 name)

def string (text : String) : PoolM Nat :=
  intern (.string text) do return .string (← utf8 text)

def integer (value : Int32) : PoolM Nat := intern (.integer value) (pure (.integer value))

def float (bits : UInt32) : PoolM Nat := intern (.float bits) (pure (.float bits))

def long (value : Int64) : PoolM Nat := intern (.long value) (pure (.long value))

def double (bits : UInt64) : PoolM Nat := intern (.double bits) (pure (.double bits))

def nameAndType (name descriptor : String) : PoolM Nat :=
  intern (.nameAndType name descriptor) do
    let n ← utf8 name
    let d ← utf8 descriptor
    return .nameAndType n d

def fieldRef (owner name descriptor : String) : PoolM Nat :=
  intern (.fieldRef ⟨owner, name, descriptor⟩) do
    let c ← cls owner
    let nt ← nameAndType name descriptor
    return .fieldRef c nt

def methodRef (owner name descriptor : String) (isInterface : Bool) : PoolM Nat :=
  let member : MemberRef := ⟨owner, name, descriptor⟩
  intern (if isInterface then .interfaceMethodRef member else .methodRef member) do
    let c ← cls owner
    let nt ← nameAndType name descriptor
    return .methodRef c nt isInterface

def methodType (descriptor : String) : PoolM Nat :=
  intern (.methodType descriptor) do return .methodType (← utf8 descriptor)

def methodHandle (handle : Handle) : PoolM Nat :=
  intern (.methodHandle handle) do
    let member ←
      if handle.kind.isFieldAccess then fieldRef handle.owner handle.name handle.descriptor
      else methodRef handle.owner handle.name handle.descriptor handle.isInterface
    return .methodHandle handle.kind member

def loadable : Loadable → PoolM Nat
  | .int value => integer value
  | .float bits => float bits
  | .long value => long value
  | .double bits => double bits
  | .string text => string text
  | .cls name => cls name
  | .methodType descriptor => methodType descriptor
  | .methodHandle handle => methodHandle handle

/-! ### The bootstrap table -/

def appendBootstrap (entry : BootstrapEntry) : PoolM Nat := fun pool =>
  let i := pool.bootstraps.size
  if 65535 ≤ i then .error (.constantPoolOverflow "bootstrap method" i) pool
  else
    .ok i { pool with
      bootstraps := pool.bootstraps.push entry
      bootstrapIndex := pool.bootstrapIndex.insert entry.row i }

/-- The bootstrap table row of a handle with its arguments, appended if it is not there. -/
def bootstrapMethod (handle : Handle) (arguments : List Loadable) : PoolM Nat := do
  let h ← methodHandle handle
  let args ← arguments.mapM loadable
  let row : BootstrapRow := ⟨h, args⟩
  match (← get).bootstrapIndex.find? row with
  | some i => return i
  | none => appendBootstrap ⟨row, handle, arguments⟩

/-- A call site, and the bootstrap table row that it needs. -/
def invokeDynamic (name descriptor : String) (handle : Handle) (arguments : List Loadable) :
    PoolM Nat := do
  let bootstrap ← bootstrapMethod handle arguments
  intern (.invokeDynamic bootstrap name descriptor) do
    let nt ← nameAndType name descriptor
    return .invokeDynamic bootstrap nt

/-! ### Attributes -/

def namedAttribute (name : String) (body : List UInt8) : PoolM Attribute := do
  let i ← utf8 name
  return ⟨i, body⟩

/-- The attribute that holds the bootstrap table, if there is anything in it. -/
def bootstrapAttribute : PoolM (Option Attribute) := do
  let rows := (← get).bootstraps
  if rows.isEmpty then return none
  else
    let a ← namedAttribute "BootstrapMethods" (Bytes.table (·.row.bytes) rows.toList)
    return some a

/-! ### The type table -/

def addRow (pool : Pool) (row : TypeRow) : Nat × Pool :=
  match pool.typeIndex.find? row with
  | some i => (i, pool)
  | none =>
    let i := pool.types.size
    (i, { pool with types := pool.types.push row, typeIndex := pool.typeIndex.insert row i })

def addType (name : String) : PoolM Nat := modifyGet fun pool => pool.addRow (.normal name)

/-- The row of an object made by the `new` at an offset. -/
def addUninitialized (name : String) (offset : Nat) : PoolM Nat :=
  modifyGet fun pool => pool.addRow (.uninitialized name offset)

/-- The common super class of two rows. -/
def commonName (pool : Pool) (h : Hierarchy) (i j : Nat) : Except Error String :=
  match pool.type? i, pool.type? j with
  | some a, some b => h.commonSuperClass a.name b.name
  | _, _ => .error (.missingClass "")

/-- The row of the common super class of two rows, which is remembered for the pair. -/
def mergedType (h : Hierarchy) (i j : Nat) : PoolM Nat := do
  let low := min i j
  let high := max i j
  let pool ← get
  match pool.merges.find? (low, high) with
  | some k => return k
  | none =>
    match pool.commonName h low high with
    | .error e => throw e
    | .ok name =>
      let k ← addType name
      modify fun pool => { pool with merges := pool.merges.insert (low, high) k }
      return k

end Pool

end JvmAssembler
