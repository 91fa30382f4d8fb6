import JvmAssembler.Proofs.Pool.Custody

/-!
# JvmAssembler.Proofs.Pool.Merges

Remembered merges of types.

A pool is `MergedBy` a hierarchy if each merge that it remembers is what the hierarchy says. No operation changes that as
long as types are merged by that hierarchy, since rows of the type table stay where they are.
-/

namespace JvmAssembler

open Success

namespace Pool

variable {h : Hierarchy} {pool pool' : Pool} {n i j k : Nat} {name : String}

theorem commonName_ok : pool.commonName h i j = .ok name ↔
    ∃ a b, pool.type? i = some a ∧ pool.type? j = some b ∧ h.commonSuperClass a.name b.name = .ok name := by
  unfold commonName
  cases pool.type? i <;> cases pool.type? j <;> simp

/-- Rows stay where they are, and so does what they have in common. -/
theorem Extends.commonName (hext : Extends n pool pool') (hcom : pool.commonName h i j = .ok name) :
    pool'.commonName h i j = .ok name := by
  obtain ⟨a, b, ha, hb, hname⟩ := commonName_ok.1 hcom
  exact commonName_ok.2 ⟨a, b, hext.type? ha, hext.type? hb, hname⟩

end Pool

end JvmAssembler
