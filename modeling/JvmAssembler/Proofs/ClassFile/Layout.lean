import JvmAssembler.ClassWriter

/-!
# JvmAssembler.Proofs.ClassFile.Layout

A class file with its attributes told apart.

A `ClassFile` keeps its attributes in encoded form. In a `ClassLayout` every attribute is a value of its own, so that all
lists of the file are in sight. `tables` are the lists that are written behind a count, each as the bytes of its rows; all
of them are found in the bytes of the file (`counted_infix`).
-/

namespace JvmAssembler

open Bytes

/-! ### Lists behind a count -/

def counted (rows : List (List UInt8)) : List UInt8 := u2 rows.length ++ rows.flatten

theorem table_eq_counted {α : Type} (row : α → List UInt8) (rows : List α) : table row rows = counted (rows.map row) := by
  rw [table, counted, List.length_map, List.flatMap_def]

theorem counted_infix_table {α : Type} (row : α → List UInt8) (rows : List α) : counted (rows.map row) <:+: table row rows :=
  ⟨[], [], by simp [table_eq_counted]⟩

theorem table_map {α β : Type} (row : β → List UInt8) (f : α → β) (rows : List α) :
    table row (rows.map f) = table (fun a => row (f a)) rows := by
  rw [table, table, List.length_map, List.flatMap_map]

def Within (bytes : List UInt8) (tables : List (List (List UInt8))) : Prop := ∀ rows ∈ tables, counted rows <:+: bytes

namespace Within

variable {bs cs : List UInt8} {ts us : List (List (List UInt8))}

theorem nil (bytes : List UInt8) : Within bytes [] := by simp [Within]

theorem left (h : Within bs ts) (cs : List UInt8) : Within (bs ++ cs) ts := by
  intro rows hrows
  exact (h rows hrows).trans (List.prefix_append bs cs).isInfix

theorem right (h : Within cs ts) (bs : List UInt8) : Within (bs ++ cs) ts := by
  intro rows hrows
  exact (h rows hrows).trans (List.suffix_append bs cs).isInfix

theorem append (h : Within bs ts) (h' : Within bs us) : Within bs (ts ++ us) := by
  intro rows hrows
  rcases List.mem_append.1 hrows with hrows | hrows
  · exact h rows hrows
  · exact h' rows hrows

theorem flatMap {α : Type} {row : α → List UInt8} {tables : α → List (List (List UInt8))} {rows : List α}
    (h : ∀ r ∈ rows, Within (row r) (tables r)) : Within (rows.flatMap row) (rows.flatMap tables) := by
  induction rows with
  | nil => exact nil _
  | cons r rows ih =>
    rw [List.flatMap_cons, List.flatMap_cons]
    refine ((h r List.mem_cons_self).left _).append (Within.right ?_ _)
    exact ih fun q hq => h q (List.mem_cons_of_mem _ hq)

/-- A table, and the tables in its rows. -/
theorem table {α : Type} {row : α → List UInt8} {tables : α → List (List (List UInt8))} {rows : List α}
    (h : ∀ r ∈ rows, Within (row r) (tables r)) :
    Within (Bytes.table row rows) (rows.map row :: rows.flatMap tables) := by
  intro t ht
  rcases List.mem_cons.1 ht with rfl | ht
  · exact counted_infix_table row rows
  · exact (flatMap h).right _ t ht

/-- A table of rows without tables. -/
theorem rows {α : Type} (row : α → List UInt8) (rows : List α) : Within (Bytes.table row rows) [rows.map row] := by
  intro t ht
  rw [List.mem_singleton.1 ht]
  exact counted_infix_table row rows

end Within

/-! ### Attributes -/

/-- The attributes that have a place in common. -/
class Part (β : Type) where
  /-- The name of the attribute. -/
  title : β → String
  /-- The body of the attribute. -/
  body : β → List UInt8
  /-- The lists in the body. -/
  tables : β → List (List (List UInt8))
  within : ∀ b, Within (body b) (tables b)

namespace Part

variable {β : Type} [Part β]

/-- An attribute in encoded form, with the row of its name. -/
def encoded (a : Nat × β) : Attribute := ⟨a.1, body a.2⟩

/-- The lists in some attributes, that of the attributes first. -/
def tablesOf (parts : List (Nat × β)) : List (List (List UInt8)) :=
  parts.map (fun a => (encoded a).bytes) :: parts.flatMap fun a => tables a.2

theorem within_tablesOf (parts : List (Nat × β)) :
    Within (Bytes.table Attribute.bytes (parts.map encoded)) (tablesOf parts) := by
  rw [table_map]
  exact Within.table fun a _ => (within a.2).right _

end Part

/-! ### Bodies of methods -/

namespace StackMapFrame

/-- The bytes of a frame, none if it cannot be written. -/
def text (frame : StackMapFrame) : List UInt8 := frame.bytes.toOption.getD []

def tables (frame : StackMapFrame) : List (List (List UInt8)) :=
  match frame.shape with
  | .full locals stack => [locals.map VerificationType.bytes, stack.map VerificationType.bytes]
  | _ => []

theorem within (frame : StackMapFrame) : Within frame.text frame.tables := by
  obtain ⟨delta, shape⟩ := frame
  cases shape with
  | full locals stack =>
    show Within (u1 255 ++ u2 delta ++ table VerificationType.bytes locals ++ table VerificationType.bytes stack)
      ([locals.map VerificationType.bytes] ++ [stack.map VerificationType.bytes])
    exact (((Within.rows _ locals).right _).left _).append ((Within.rows _ stack).right _)
  | same | sameOne | chop | append => exact Within.nil _

end StackMapFrame

/-- The attributes of the body of a method. -/
inductive CodePart
  /-- Local variables by their descriptors. -/
  | scopes (rows : List LocalRow)
  /-- Local variables by their signatures. -/
  | scopeTypes (rows : List LocalRow)
  | lines (rows : List LineRow)
  | stackMap (frames : List StackMapFrame)
  deriving DecidableEq

instance : Part CodePart where
  title
    | .scopes _ => "LocalVariableTable"
    | .scopeTypes _ => "LocalVariableTypeTable"
    | .lines _ => "LineNumberTable"
    | .stackMap _ => "StackMapTable"
  body
    | .scopes rows | .scopeTypes rows => table LocalRow.bytes rows
    | .lines rows => table LineRow.bytes rows
    | .stackMap frames => table StackMapFrame.text frames
  tables
    | .scopes rows | .scopeTypes rows => [rows.map LocalRow.bytes]
    | .lines rows => [rows.map LineRow.bytes]
    | .stackMap frames => frames.map StackMapFrame.text :: frames.flatMap StackMapFrame.tables
  within part := by
    cases part with
    | scopes rows | scopeTypes rows | lines rows => exact Within.rows _ rows
    | stackMap frames => exact Within.table fun frame _ => frame.within

/-- The body of a method. -/
structure CodeLayout where
  maxStack : Nat
  maxLocals : Nat
  code : List UInt8
  exceptions : List ExceptionRow
  parts : List (Nat × CodePart)
  deriving DecidableEq

namespace CodeLayout

def encoded (c : CodeLayout) : CodeBody := ⟨c.maxStack, c.maxLocals, c.code, c.exceptions, c.parts.map Part.encoded⟩

def tables (c : CodeLayout) : List (List (List UInt8)) := c.exceptions.map ExceptionRow.bytes :: Part.tablesOf c.parts

theorem within (c : CodeLayout) : Within c.encoded.bytes c.tables :=
  (((Within.rows _ c.exceptions).right _).left _).append ((Part.within_tablesOf c.parts).right _)

end CodeLayout

/-! ### Members and classes -/

/-- The attributes of fields and methods. -/
inductive MemberPart
  | constantValue (row : Nat)
  | signature (row : Nat)
  | code (body : CodeLayout)
  /-- The classes of declared exceptions. -/
  | exceptions (rows : List Nat)
  deriving DecidableEq

instance : Part MemberPart where
  title
    | .constantValue _ => "ConstantValue"
    | .signature _ => "Signature"
    | .code _ => "Code"
    | .exceptions _ => "Exceptions"
  body
    | .constantValue row | .signature row => u2 row
    | .code body => body.encoded.bytes
    | .exceptions rows => table u2 rows
  tables
    | .constantValue _ | .signature _ => []
    | .code body => body.tables
    | .exceptions rows => [rows.map u2]
  within part := by
    cases part with
    | constantValue | signature => exact Within.nil _
    | code body => exact body.within
    | exceptions rows => exact Within.rows _ rows

/-- A field or method. -/
structure MemberLayout (kind : FlagKind) where
  flags : AccessFlags kind
  name : Nat
  descriptor : Nat
  parts : List (Nat × MemberPart)
  deriving DecidableEq

namespace MemberLayout

variable {kind : FlagKind}

def encoded (m : MemberLayout kind) : Member kind := ⟨m.flags, m.name, m.descriptor, m.parts.map Part.encoded⟩

def tables (m : MemberLayout kind) : List (List (List UInt8)) := Part.tablesOf m.parts

def tablesOf (members : List (MemberLayout kind)) : List (List (List UInt8)) :=
  members.map (·.encoded.bytes) :: members.flatMap tables

theorem within_tablesOf (members : List (MemberLayout kind)) :
    Within (table Member.bytes (members.map encoded)) (tablesOf members) := by
  rw [table_map]
  exact Within.table fun m _ => (Part.within_tablesOf m.parts).right _

end MemberLayout

/-- The bytes of the arguments of a bootstrap method are a list of their own. -/
theorem BootstrapRow.within (r : BootstrapRow) : Within r.bytes [r.arguments.map u2] := (Within.rows _ _).right _

/-- The attributes of classes. -/
inductive ClassPart
  | sourceFile (row : Nat)
  | signature (row : Nat)
  | innerClasses (rows : List InnerClassRow)
  | nestHost (row : Nat)
  | nestMembers (rows : List Nat)
  | bootstrapMethods (rows : List BootstrapRow)
  deriving DecidableEq

instance : Part ClassPart where
  title
    | .sourceFile _ => "SourceFile"
    | .signature _ => "Signature"
    | .innerClasses _ => "InnerClasses"
    | .nestHost _ => "NestHost"
    | .nestMembers _ => "NestMembers"
    | .bootstrapMethods _ => "BootstrapMethods"
  body
    | .sourceFile row | .signature row | .nestHost row => u2 row
    | .innerClasses rows => table InnerClassRow.bytes rows
    | .nestMembers rows => table u2 rows
    | .bootstrapMethods rows => table BootstrapRow.bytes rows
  tables
    | .sourceFile _ | .signature _ | .nestHost _ => []
    | .innerClasses rows => [rows.map InnerClassRow.bytes]
    | .nestMembers rows => [rows.map u2]
    | .bootstrapMethods rows => rows.map BootstrapRow.bytes :: rows.flatMap fun r => [r.arguments.map u2]
  within part := by
    cases part with
    | sourceFile | signature | nestHost => exact Within.nil _
    | innerClasses rows | nestMembers rows => exact Within.rows _ rows
    | bootstrapMethods rows => exact Within.table fun r _ => r.within

/-- A class file. -/
structure ClassLayout where
  version : Version
  /-- One more than the last index of the pool. -/
  poolCount : Nat
  pool : List UInt8
  flags : AccessFlags .ofClass
  thisClass : Nat
  superClass : Option Nat
  interfaces : List Nat
  fields : List (MemberLayout .ofField)
  methods : List (MemberLayout .ofMethod)
  parts : List (Nat × ClassPart)
  deriving DecidableEq

namespace ClassLayout

def encoded (c : ClassLayout) : ClassFile :=
  { version := c.version
    poolCount := c.poolCount
    pool := c.pool
    flags := c.flags
    thisClass := c.thisClass
    superClass := c.superClass
    interfaces := c.interfaces
    fields := c.fields.map MemberLayout.encoded
    methods := c.methods.map MemberLayout.encoded
    attributes := c.parts.map Part.encoded }

/-- The lists in a class file that stand behind a count. -/
def tables (c : ClassLayout) : List (List (List UInt8)) :=
  [c.interfaces.map u2] ++ MemberLayout.tablesOf c.fields ++ MemberLayout.tablesOf c.methods ++ Part.tablesOf c.parts

/-- Each list of a class file is written somewhere in its bytes, behind a count. -/
theorem counted_infix (c : ClassLayout) {rows : List (List UInt8)} (h : rows ∈ c.tables) :
    counted rows <:+: c.encoded.bytes := by
  have hinterfaces := Within.rows u2 c.interfaces
  have hfields := MemberLayout.within_tablesOf c.fields
  have hmeths := MemberLayout.within_tablesOf c.methods
  have hparts := Part.within_tablesOf c.parts
  have hall : Within c.encoded.bytes c.tables := by
    refine ((Within.append ?_ ?_).append ?_).append (hparts.right _)
    · exact (((hinterfaces.right _).left _).left _).left _
    · exact ((hfields.right _).left _).left _
    · exact (hmeths.right _).left _
  exact hall rows h

end ClassLayout

end JvmAssembler
