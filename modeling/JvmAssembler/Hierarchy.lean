import JvmAssembler.Error

/-!
# JvmAssembler.Hierarchy

What is known of classes and interfaces, for merging two reference types.

* A `Hierarchy` is a finite map from names to their direct super types. It need not be closed: asking
  about a class that it does not know is an error.
* `isAssignable` walks the super types of a class. A class that is not an interface can only be reached
  through super classes, so interfaces are followed only on the way to an interface.
* `commonSuperClass` is the more general of two related classes; two unrelated ones meet in the first
  super class of the one that the other can be assigned to.

Both walks are bounded by the number of known classes: a walk that visits no class twice, or that climbs
super classes without a cycle, is no longer.
-/

namespace JvmAssembler

/-- The root of every hierarchy. -/
def objectClass : String := "java/lang/Object"

/-- The direct super types of a class or interface. -/
structure ClassInfo where
  superClass : Option String
  interfaces : List String
  isInterface : Bool
  deriving DecidableEq

namespace ClassInfo

def cls (superClass : String) (interfaces : List String) : ClassInfo :=
  ⟨some superClass, interfaces, false⟩

/-- An interface; its super class is the root. -/
def interface (interfaces : List String) : ClassInfo := ⟨some objectClass, interfaces, true⟩

end ClassInfo

/-- A finite map from class names to their direct super types, each name once. -/
structure Hierarchy where
  classes : List (String × ClassInfo)

namespace Hierarchy

/-- The hierarchy that knows no class, not even the root. -/
def empty : Hierarchy := ⟨[]⟩

def lookup? (h : Hierarchy) (name : String) : Option ClassInfo :=
  (h.classes.find? (·.1 == name)).map (·.2)

/-- Add a class, in place of what was known of it. -/
def insert (h : Hierarchy) (name : String) (info : ClassInfo) : Hierarchy :=
  ⟨(name, info) :: h.classes.filter (·.1 != name)⟩

def size (h : Hierarchy) : Nat := h.classes.length

/-- The common classes of the standard library. -/
def javaLang : Hierarchy :=
  ⟨[
    (objectClass, ⟨none, [], false⟩),
    ("java/io/Serializable", .interface []),
    ("java/lang/Cloneable", .interface []),
    ("java/lang/Comparable", .interface []),
    ("java/lang/CharSequence", .interface []),
    ("java/lang/Runnable", .interface []),
    ("java/lang/Iterable", .interface []),
    ("java/lang/AutoCloseable", .interface []),
    ("java/lang/String", .cls objectClass
      ["java/io/Serializable", "java/lang/Comparable", "java/lang/CharSequence"]),
    ("java/lang/StringBuilder", .cls objectClass
      ["java/io/Serializable", "java/lang/CharSequence"]),
    ("java/lang/Class", .cls objectClass ["java/io/Serializable"]),
    ("java/lang/Number", .cls objectClass ["java/io/Serializable"]),
    ("java/lang/Byte", .cls "java/lang/Number" ["java/lang/Comparable"]),
    ("java/lang/Short", .cls "java/lang/Number" ["java/lang/Comparable"]),
    ("java/lang/Integer", .cls "java/lang/Number" ["java/lang/Comparable"]),
    ("java/lang/Long", .cls "java/lang/Number" ["java/lang/Comparable"]),
    ("java/lang/Float", .cls "java/lang/Number" ["java/lang/Comparable"]),
    ("java/lang/Double", .cls "java/lang/Number" ["java/lang/Comparable"]),
    ("java/lang/Boolean", .cls objectClass ["java/io/Serializable", "java/lang/Comparable"]),
    ("java/lang/Character", .cls objectClass ["java/io/Serializable", "java/lang/Comparable"]),
    ("java/lang/System", .cls objectClass []),
    ("java/lang/Math", .cls objectClass []),
    ("java/lang/Thread", .cls objectClass ["java/lang/Runnable"]),
    ("java/lang/Throwable", .cls objectClass ["java/io/Serializable"]),
    ("java/lang/Exception", .cls "java/lang/Throwable" []),
    ("java/lang/Error", .cls "java/lang/Throwable" []),
    ("java/lang/AssertionError", .cls "java/lang/Error" []),
    ("java/lang/RuntimeException", .cls "java/lang/Exception" []),
    ("java/lang/ArithmeticException", .cls "java/lang/RuntimeException" []),
    ("java/lang/ClassCastException", .cls "java/lang/RuntimeException" []),
    ("java/lang/NullPointerException", .cls "java/lang/RuntimeException" []),
    ("java/lang/IllegalStateException", .cls "java/lang/RuntimeException" []),
    ("java/lang/IllegalArgumentException", .cls "java/lang/RuntimeException" []),
    ("java/lang/IndexOutOfBoundsException", .cls "java/lang/RuntimeException" []),
    ("java/lang/ArrayIndexOutOfBoundsException", .cls "java/lang/IndexOutOfBoundsException" []),
    ("java/lang/invoke/MethodType", .cls objectClass ["java/io/Serializable"]),
    ("java/lang/invoke/MethodHandle", .cls objectClass []),
    ("java/lang/invoke/CallSite", .cls objectClass [])  ]⟩

@[simp] theorem lookup?_insert_self (h : Hierarchy) (name : String) (info : ClassInfo) :
    (h.insert name info).lookup? name = some info := by
  simp [insert, lookup?]

theorem lookup?_insert_of_ne (h : Hierarchy) {name other : String} (info : ClassInfo)
    (ne : other ≠ name) : (h.insert name info).lookup? other = h.lookup? other := by
  have hne : (name == other) = false := by simpa using Ne.symm ne
  have hfind : ∀ l : List (String × ClassInfo),
      (l.filter (·.1 != name)).find? (·.1 == other) = l.find? (·.1 == other) := by
    intro l
    induction l with
    | nil => rfl
    | cons e l ih =>
      by_cases he : e.1 = name
      · have : (e.1 == other) = false := by rw [he]; exact hne
        simp [he, ih, hne]
      · simp [he, List.find?_cons, ih]
  simp only [insert, lookup?, List.find?_cons, hne, hfind]

/-- What is known of a class that has to be known. -/
def get (h : Hierarchy) (name : String) : Except Error ClassInfo :=
  match h.lookup? name with
  | some info => .ok info
  | none => .error (.missingClass name)

/-! ### Assignability -/

/-- Put names that were not seen before on top of the names to visit, the last one topmost. -/
def enqueue (seen toVisit : List String) : List String → List String × List String
  | [] => (seen, toVisit)
  | name :: names =>
    if seen.contains name then enqueue seen toVisit names
    else enqueue (name :: seen) (name :: toVisit) names

def ClassInfo.superTypes (info : ClassInfo) (toInterface : Bool) : List String :=
  info.superClass.toList ++ (if toInterface then info.interfaces else [])

/-- Search for `goal` from the names to visit. Each step visits one more of the known classes. -/
def search (h : Hierarchy) (goal : String) (toInterface : Bool) :
    Nat → List String → List String → Except Error Bool
  | _, _, [] => .ok false
  | 0, _, name :: _ => .ok (name == goal)
  | fuel + 1, seen, name :: toVisit =>
    if name = goal then .ok true
    else
      match h.get name with
      | .error e => .error e
      | .ok info =>
        let (seen, toVisit) := enqueue seen toVisit (ClassInfo.superTypes info toInterface)
        search h goal toInterface fuel seen toVisit

/-- Whether values of `sub` can stand where `sup` is wanted. -/
def isAssignable (h : Hierarchy) (sub sup : String) : Except Error Bool :=
  if sub = sup ∨ sup = objectClass then .ok true
  else
    match h.get sup with
    | .error e => .error e
    | .ok info => search h sup info.isInterface (h.size + 1) [sub] [sub]

/-! ### Common super classes -/

/-- The first super class of `info` that `other` can be assigned to. -/
def climb (h : Hierarchy) (other : String) : Nat → ClassInfo → Except Error String
  | 0, _ => .ok objectClass
  | fuel + 1, info =>
    match info.superClass with
    | none => .ok objectClass
    | some sup =>
      match h.isAssignable other sup with
      | .error e => .error e
      | .ok true => .ok sup
      | .ok false =>
        match h.get sup with
        | .error e => .error e
        | .ok info => climb h other fuel info

/-- The most specific class that both classes can be assigned to. -/
def commonSuperClass (h : Hierarchy) (a b : String) : Except Error String := do
  if ← h.isAssignable b a then return a
  if ← h.isAssignable a b then return b
  let infoA ← h.get a
  let infoB ← h.get b
  if infoA.isInterface || infoB.isInterface then return objectClass
  h.climb b (h.size + 1) infoA

end Hierarchy

end JvmAssembler
