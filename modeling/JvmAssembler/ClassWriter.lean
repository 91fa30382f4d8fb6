import JvmAssembler.Method

/-!
# JvmAssembler.ClassWriter

Writing a class from its events.

The writer owns the constant pool. A method borrows the pool and the list of finished methods while it is
written, and gives them back, whether it is finished or not. A rejected event leaves what it did before it
failed.
-/

namespace JvmAssembler

/-- The events by which a class is described, apart from its methods: `visit` comes first, `finish` last. -/
inductive ClassEvent
  | visit (version : Version) (flags : AccessFlags .ofClass) (name : String)
    (superClass : Option String) (interfaces : List String)
  | source (file : String)
  /-- The generic signature. -/
  | signature (signature : String)
  | nestHost (host : String)
  | nestMember (member : String)
  | innerClass (name : String) (outer innerName : Option String) (flags : AccessFlags .ofInnerClass)
  | field (flags : AccessFlags .ofField) (name descriptor : String) (signature : Option String)
    (constant : Option Loadable)
  | finish
  deriving DecidableEq

def ClassEvent.name : ClassEvent → String
  | .visit .. => "visit"
  | .source _ => "visit_source"
  | .signature _ => "visit_signature"
  | .nestHost _ => "visit_nest_host"
  | .nestMember _ => "visit_nest_member"
  | .innerClass .. => "visit_inner_class"
  | .field .. => "visit_field"
  | .finish => "visit_end"

/-- How far a class has got. -/
inductive ClassStage
  | fresh | open | ended
  deriving DecidableEq

def ClassStage.moment : ClassStage → Moment
  | .fresh => .beforeVisit
  | .open => .afterVisit
  | .ended => .afterEnd

/-- A class that is being written. -/
structure ClassWriter where
  compute : Compute
  hierarchy : Hierarchy
  pool : Pool := .empty
  stage : ClassStage := .fresh
  version : Version := .default
  flags : AccessFlags .ofClass := .empty
  name : String := ""
  /-- What the hierarchy should know of this class. -/
  info : ClassInfo := .cls objectClass []
  thisClass : Option Nat := none
  superClass : Option Nat := none
  interfaces : Array Nat := #[]
  fields : Array (Member .ofField) := #[]
  methods : Array (Member .ofMethod) := #[]
  sourceFile : Option String := none
  signature : Option String := none
  nestHost : Option String := none
  nestMembers : Array String := #[]
  innerClasses : Array InnerClassRow := #[]

abbrev ClassM := EStateM Error ClassWriter

namespace ClassWriter

/-- A class of which nothing is known yet. -/
def start (compute : Compute) (hierarchy : Hierarchy) : ClassWriter := { compute, hierarchy }

def fromPool {α : Type} (action : PoolM α) : ClassM α := fun w =>
  let pool := w.pool
  let w := { w with pool := .empty }
  match action pool with
  | .ok a pool => .ok a { w with pool := pool }
  | .error e pool => .error e { w with pool := pool }

/-- An event that may only come at one stage. -/
def require (stage : ClassStage) (event : String) : ClassM Unit := do
  let now := (← get).stage
  if now ≠ stage then throw (.invalidState event now.moment)

def optional (action : String → PoolM Nat) : Option String → PoolM (Option Nat)
  | none => return none
  | some text => return some (← action text)

/-! ### Events -/

def visit (version : Version) (flags : AccessFlags .ofClass) (name : String)
    (superClass : Option String) (interfaces : List String) : ClassM Unit := do
  modify fun w =>
    { w with version, flags, name, info := ⟨superClass, interfaces, flags.isInterface⟩ }
  let this ← fromPool (Pool.cls name)
  modify fun w => { w with thisClass := some this }
  let sup ← fromPool (optional Pool.cls superClass)
  modify fun w => { w with superClass := sup }
  interfaces.forM fun interface => do
    let index ← fromPool (Pool.cls interface)
    modify fun w => { w with interfaces := w.interfaces.push index }
  modify fun w => { w with stage := .open }

def innerClass (name : String) (outer innerName : Option String)
    (flags : AccessFlags .ofInnerClass) : ClassM Unit := do
  let inner ← fromPool (Pool.cls name)
  let outer ← fromPool (optional Pool.cls outer)
  let innerName ← fromPool (optional Pool.utf8 innerName)
  modify fun w => { w with innerClasses := w.innerClasses.push ⟨inner, outer, innerName, flags⟩ }

/-- The initial value of a field, which is a number or a text. -/
def constantAttribute (field : String) : Option Loadable → PoolM (List Attribute)
  | none => return []
  | some value =>
    match value with
    | .cls _ | .methodType _ | .methodHandle _ =>
      throw (.invalidArgument (.fieldConstant value field))
    | _ => do
      let index ← Pool.loadable value
      let a ← Pool.namedAttribute "ConstantValue" (Bytes.u2 index)
      return [a]

def field (flags : AccessFlags .ofField) (name descriptor : String) (signature : Option String)
    (constant : Option Loadable) : ClassM Unit := do
  match FieldType.ofDescriptor descriptor with
  | .error e => throw e
  | .ok _ => pure ()
  let constant ← fromPool (constantAttribute name constant)
  let signature ← fromPool (MethodWriter.signatureAttribute signature)
  let name ← fromPool (Pool.utf8 name)
  let descriptor ← fromPool (Pool.utf8 descriptor)
  modify fun w =>
    { w with fields := w.fields.push ⟨flags, name, descriptor, constant ++ signature⟩ }

def send (event : ClassEvent) : ClassM Unit := do
  require (match event with | .visit .. => .fresh | _ => .open) event.name
  match event with
  | .visit version flags name superClass interfaces => visit version flags name superClass interfaces
  | .source file => modify fun w => { w with sourceFile := some file }
  | .signature signature => modify fun w => { w with signature := some signature }
  | .nestHost host => modify fun w => { w with nestHost := some host }
  | .nestMember member => modify fun w => { w with nestMembers := w.nestMembers.push member }
  | .innerClass name outer innerName flags => innerClass name outer innerName flags
  | .field flags name descriptor signature constant => field flags name descriptor signature constant
  | .finish => modify fun w => { w with stage := .ended }

/-! ### Methods -/

/-- What methods need to know of the class. -/
def context (w : ClassWriter) : ClassContext :=
  ⟨w.hierarchy.insert w.name w.info, w.name, w.version⟩

/-- Write a method by some steps on its writer, which starts from the header. The outer result is that of the
header, the inner one that of the steps. -/
def method {α : Type} (d : Declaration) (steps : MethodM α) : ClassM (Except Error α) := do
  require .open "visit_method"
  let descriptor ← fromPool (MethodWriter.declare d)
  modifyGet fun w =>
    let m := MethodWriter.start w.context w.compute d descriptor w.pool w.methods
    let w := { w with pool := .empty, methods := #[] }
    match steps m with
    | .ok a m => (.ok a, { w with pool := m.pool, methods := m.methods })
    | .error e m => (.error e, { w with pool := m.pool, methods := m.methods })

/-! ### The class file -/

def indexAttribute (name : String) (action : String → PoolM Nat) (text : Option String) :
    PoolM (List Attribute) := do
  match ← optional action text with
  | none => return []
  | some index => return [← Pool.namedAttribute name (Bytes.u2 index)]

def tableAttribute {α : Type} (name : String) (row : α → List UInt8) (rows : List α) :
    PoolM (List Attribute) :=
  if rows.isEmpty then return []
  else return [← Pool.namedAttribute name (Bytes.table row rows)]

def classAttributes (w : ClassWriter) : PoolM (List Attribute) := do
  let source ← indexAttribute "SourceFile" Pool.utf8 w.sourceFile
  let signature ← indexAttribute "Signature" Pool.utf8 w.signature
  let inner ← tableAttribute "InnerClasses" InnerClassRow.bytes w.innerClasses.toList
  let host ← indexAttribute "NestHost" Pool.cls w.nestHost
  let members ← w.nestMembers.toList.mapM Pool.cls
  let members ← tableAttribute "NestMembers" Bytes.u2 members
  let bootstrap ← Pool.bootstrapAttribute
  return source ++ signature ++ inner ++ host ++ members ++ bootstrap.toList

def classFile (w : ClassWriter) : Except Error ClassFile :=
  let early := fun moment => Error.invalidState "into_class_file" moment
  if w.stage ≠ .ended then .error (early w.stage.moment)
  else
    match w.thisClass with
    | none => .error (early .beforeVisit)
    | some this =>
      match w.classAttributes w.pool with
      | .error e _ => .error e
      | .ok attributes pool =>
        .ok
          { version := w.version
            poolCount := pool.count
            pool := pool.bytes.toList
            flags := w.flags
            thisClass := this
            superClass := w.superClass
            interfaces := w.interfaces.toList
            fields := w.fields.toList
            methods := w.methods.toList
            attributes := attributes }

def bytes (w : ClassWriter) : Except Error (List UInt8) := return (← w.classFile).bytes

end ClassWriter

end JvmAssembler
