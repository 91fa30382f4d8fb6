/-!
# JvmAssembler.AccessFlags

Access flags of classes, methods, fields and inner classes: sets of bits, of which each kind of
declaration knows its own. Listings write them as keywords.
-/

namespace JvmAssembler

/-- What flags belong to. -/
inductive FlagKind
  | ofClass | ofMethod | ofField | ofInnerClass
  deriving DecidableEq

namespace FlagKind

def keywords : FlagKind → List (String × UInt16)
  | ofClass =>
    [("public", 0x0001), ("final", 0x0010), ("super", 0x0020), ("interface", 0x0200),
      ("abstract", 0x0400), ("synthetic", 0x1000), ("annotation", 0x2000), ("enum", 0x4000)]
  | ofMethod =>
    [("public", 0x0001), ("private", 0x0002), ("protected", 0x0004), ("static", 0x0008),
      ("final", 0x0010), ("synchronized", 0x0020), ("bridge", 0x0040), ("varargs", 0x0080),
      ("native", 0x0100), ("abstract", 0x0400), ("strict", 0x0800), ("synthetic", 0x1000)]
  | ofField =>
    [("public", 0x0001), ("private", 0x0002), ("protected", 0x0004), ("static", 0x0008),
      ("final", 0x0010), ("volatile", 0x0040), ("transient", 0x0080), ("synthetic", 0x1000),
      ("enum", 0x4000)]
  | ofInnerClass => []

def mask : FlagKind → UInt16
  | ofClass => 0xF631
  | ofMethod => 0x1DFF
  | ofField => 0x50DF
  | ofInnerClass => 0x761F

end FlagKind

/-- A set of access flags. -/
structure AccessFlags (kind : FlagKind) where
  bits : UInt16
  deriving DecidableEq

namespace AccessFlags

variable {kind : FlagKind}

def empty : AccessFlags kind := ⟨0⟩

/-- The flags among the given bits; bits that the kind does not know are dropped. -/
def ofBits (bits : UInt16) : AccessFlags kind := ⟨bits &&& kind.mask⟩

def union (a b : AccessFlags kind) : AccessFlags kind := ⟨a.bits ||| b.bits⟩

def ofKeyword? (word : String) : Option (AccessFlags kind) :=
  (kind.keywords.find? (·.1 == word)).map fun entry => ⟨entry.2⟩

/-- Whether the bits of `flag` are all set. -/
def has (flags : AccessFlags kind) (flag : UInt16) : Bool := flags.bits &&& flag == flag

def isInterface (flags : AccessFlags .ofClass) : Bool := flags.has 0x0200

def isStatic (flags : AccessFlags .ofMethod) : Bool := flags.has 0x0008

end AccessFlags

end JvmAssembler
