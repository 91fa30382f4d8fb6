import Std.Data.TreeMap.Lemmas

/-!
# JvmAssembler.Pool.Index

A map from keys to row numbers, for tables that hand out a row per distinct key.

Keys are filed under a digest of their content, and keys with one digest are told apart by comparing
them. So the digest only has to spread keys well; what the map holds does not hang on it.
-/

namespace JvmAssembler

/-- A number computed from the content of a key. -/
class Digest (κ : Type) where
  digest : κ → Nat

namespace Digest

def mix (h : UInt64) (n : Nat) : UInt64 := (h ^^^ n.toUInt64) * 0x100000001b3

def mixText (h : UInt64) (s : String) : UInt64 :=
  mix (s.toList.foldl (fun h c => mix h c.toNat) h) 0x110000

def seed : UInt64 := 0xcbf29ce484222325

end Digest

/-- A map from keys to row numbers. -/
structure Index (κ : Type) where
  buckets : Std.TreeMap Nat (List (κ × Nat))

namespace Index

variable {κ : Type} [DecidableEq κ] [Digest κ]

def empty : Index κ := ⟨∅⟩

/-- The keys that share a digest. -/
def bucket (index : Index κ) (digest : Nat) : List (κ × Nat) := index.buckets.getD digest []

def find? (index : Index κ) (key : κ) : Option Nat :=
  ((index.bucket (Digest.digest key)).find? (·.1 == key)).map (·.2)

def insert (index : Index κ) (key : κ) (row : Nat) : Index κ :=
  let digest := Digest.digest key
  ⟨index.buckets.insert digest ((key, row) :: index.bucket digest)⟩

@[simp] theorem find?_empty (key : κ) : (empty : Index κ).find? key = none := by
  simp [find?, bucket, empty]

/-- A key that is filed is found under its row, and every other key where it was. -/
theorem find?_insert (index : Index κ) (key other : κ) (row : Nat) :
    (index.insert key row).find? other = if key = other then some row else index.find? other := by
  by_cases h : key = other
  · subst h; simp [find?, bucket, insert]
  · by_cases hd : Digest.digest key = Digest.digest other
    · simp [find?, bucket, insert, hd, h]
    · simp [find?, bucket, insert, Std.TreeMap.getD_insert, hd, h]

end Index

end JvmAssembler
