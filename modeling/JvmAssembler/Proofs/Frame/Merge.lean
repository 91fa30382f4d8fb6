import JvmAssembler.Frame.Merge
import JvmAssembler.Proofs.Success

/-!
# JvmAssembler.Proofs.Frame.Merge

A successful merge, taken apart into joins of single slots.

Each step of a merge either leaves the target as it is or reports a change (`Honest`), and the only step that changes
the height of an existing target is the one that makes room for an exception.
-/

namespace JvmAssembler

open Success

namespace Frame

open Merging

/-! ### Single slots -/

variable {α : Type} {hierarchy : Hierarchy} {i : Nat} {arriving : InputSlot}

theorem setIfInBounds_getD_self (xs : Array α) (i : Nat) (d : α) :
    xs.setIfInBounds i (xs.getD i d) = xs := by
  apply Array.ext_getElem?
  intro j
  rw [Array.getElem?_setIfInBounds]
  by_cases hij : i = j
  · subst hij
    by_cases hi : i < xs.size
    · simp [hi]
    · simp [hi]
  · rw [if_neg hij]

theorem fromPool_ok {action : PoolM α} {a : α} {s s' : Merging} (h : fromPool action s = .ok a s') :
    ∃ pool, action s.pool = .ok a pool ∧ s' = { s with pool := pool } := by
  unfold fromPool at h
  split at h
  · rename_i b pool hpool
    cases h
    exact ⟨pool, hpool, rfl⟩
  · cases h

/-- What each turn of a loop over the slots keeps, the loop keeps. -/
theorem forCount_ok {step : Nat → MergeM Unit} {n start : Nat} {u : Unit} {s s' : Merging}
    (P : Nat → Merging → Prop) (hst : P start s)
    (hstep : ∀ i v t t', start ≤ i → i < start + n → P i t → step i t = .ok v t' → P (i + 1) t')
    (h : forCount step n start s = .ok u s') : P (start + n) s' := by
  induction n generalizing start s with
  | zero =>
    obtain ⟨-, rfl⟩ := run_pure_ok.1 h
    exact hst
  | succ n ih =>
    obtain ⟨v, t, hfst, h⟩ := run_bind_ok.1 h
    have hnext := hstep start v s t (Nat.le_refl _) (by omega) hst hfst
    have hrest := ih hnext (fun i v t t' hge hlt => hstep i v t t' (by omega) (by omega)) h
    rwa [Nat.add_assoc, Nat.add_comm 1 n] at hrest

/-! ### Honest steps -/

/-- A step that reports no change has made none. -/
structure Honest (s s' : Merging) : Prop where
  changed : s.changed = true → s'.changed = true
  unchanged : s'.changed = false → s'.target = s.target

theorem Honest.refl (s : Merging) : Honest s s := ⟨id, fun _ => rfl⟩

theorem Honest.trans {s t u : Merging} (h : Honest s t) (h' : Honest t u) : Honest s u := by
  refine ⟨fun hs => h'.changed (h.changed hs), fun hu => ?_⟩
  have ht : t.changed = false := by
    cases hchg : t.changed with
    | false => rfl
    | true => rw [h'.changed hchg] at hu; cases hu
  rw [h'.unchanged hu, h.unchanged ht]

theorem honest_fromPool {action : PoolM α} {a : α} {s s' : Merging} (h : fromPool action s = .ok a s') : Honest s s' := by
  obtain ⟨pool, -, rfl⟩ := fromPool_ok h
  exact ⟨id, fun _ => rfl⟩

theorem joinLocal_ok {u : Unit} {s s' : Merging} (h : joinLocal hierarchy i arriving s = .ok u s') :
    Honest s s' ∧ ∃ joined, s'.target = { s.target with locals := s.target.locals.setIfInBounds i joined } := by
  unfold joinLocal at h
  rw [run_get_bind] at h
  obtain ⟨joined, t, hpool, h⟩ := run_bind_ok.1 h
  obtain ⟨pool, -, rfl⟩ := fromPool_ok hpool
  split at h
  · obtain rfl := run_modify_ok.1 h
    exact ⟨⟨fun _ => rfl, nofun⟩, joined, rfl⟩
  · obtain ⟨-, rfl⟩ := run_pure_ok.1 h
    exact ⟨⟨id, fun _ => rfl⟩, s.target.locals.getD i none, by rw [setIfInBounds_getD_self]⟩

theorem joinStack_ok {u : Unit} {s s' : Merging} (h : joinStack hierarchy i arriving s = .ok u s') :
    Honest s s' ∧ ∃ joined, s'.target = { s.target with stack := s.target.stack.setIfInBounds i joined } := by
  unfold joinStack at h
  rw [run_get_bind] at h
  obtain ⟨joined, t, hpool, h⟩ := run_bind_ok.1 h
  obtain ⟨pool, -, rfl⟩ := fromPool_ok hpool
  split at h
  · obtain rfl := run_modify_ok.1 h
    exact ⟨⟨fun _ => rfl, nofun⟩, joined, rfl⟩
  · obtain ⟨-, rfl⟩ := run_pure_ok.1 h
    exact ⟨⟨id, fun _ => rfl⟩, s.target.stack.getD i none, by rw [setIfInBounds_getD_self]⟩

/-! ### The parts of a merge -/

section Parts

variable {f : Frame} {context : TypeContext} {input : FrameInput} {u : Unit} {s s' : Merging}

theorem mergeLocals_ok (h : f.mergeLocals context input s = .ok u s') :
    Honest s s' ∧ s'.target.stack = s.target.stack ∧
      s'.target.locals.size = s.target.locals.size := by
  apply forCount_ok (fun _ t => Honest s t ∧ t.target.stack = s.target.stack ∧
    t.target.locals.size = s.target.locals.size) ⟨.refl s, rfl, rfl⟩ _ h
  intro i v t t' _ _ ht hstep
  obtain ⟨arriving, t₁, hpool, hjoin⟩ := run_bind_ok.1 hstep
  obtain ⟨hhonest, joined, htgt⟩ := joinLocal_ok hjoin
  refine ⟨ht.1.trans ((honest_fromPool hpool).trans hhonest), ?_⟩
  obtain ⟨pool, -, rfl⟩ := fromPool_ok hpool
  rw [htgt]
  exact ⟨ht.2.1, by simpa using ht.2.2⟩

theorem mergeCaught_ok {row : Nat} (h : mergeCaught context input row s = .ok u s') :
    Honest s s' ∧ s'.target.stack.size = max 1 s.target.stack.size ∧
      s'.target.locals.size = s.target.locals.size := by
  obtain ⟨_, t, hloop, hrest⟩ := run_bind_ok.1 h
  have hloc : Honest s t ∧ t.target.stack = s.target.stack ∧
      t.target.locals.size = s.target.locals.size := by
    apply forCount_ok (fun _ t => Honest s t ∧ t.target.stack = s.target.stack ∧
      t.target.locals.size = s.target.locals.size) ⟨.refl s, rfl, rfl⟩ _ hloop
    intro i v t t' _ _ ht hstep
    obtain ⟨hhonest, joined, htgt⟩ := joinLocal_ok hstep
    rw [htgt]
    exact ⟨ht.1.trans hhonest, ht.2.1, by simpa using ht.2.2⟩
  obtain ⟨hhonest, hstk, hsize⟩ := hloc
  obtain ⟨t₁, t₂, hget, hroom⟩ := run_bind_ok.1 hrest
  obtain ⟨rfl, rfl⟩ := run_get_ok.1 hget
  by_cases hemp : t.target.stack.isEmpty = true
  · -- room is made for the exception, which is a change
    rw [if_pos hemp] at hroom
    obtain ⟨_, t₃, hmodify, hjoin⟩ := run_bind_ok.1 hroom
    obtain rfl := run_modify_ok.1 hmodify
    obtain ⟨hjoined, joined, htgt⟩ := joinStack_ok hjoin
    have hchg := hjoined.changed rfl
    have hzero : s.target.stack.size = 0 := by
      rw [← hstk]
      simpa using hemp
    rw [htgt]
    refine ⟨⟨fun _ => hchg, fun hs => ?_⟩, by simp [hzero], hsize⟩
    rw [hchg] at hs
    cases hs
  · rw [if_neg hemp] at hroom
    obtain ⟨hjoined, joined, htgt⟩ := joinStack_ok hroom
    rw [htgt]
    refine ⟨hhonest.trans hjoined, ?_, hsize⟩
    have hpos : 0 < s.target.stack.size := by
      rw [← hstk]
      simp only [Array.isEmpty_iff, ← Array.size_eq_zero_iff] at hemp
      omega
    simp only [Array.size_setIfInBounds, hstk]
    omega

/-- Joining into the stack, slot by slot. -/
theorem stackLoop_ok {n : Nat} (h : forCount (fun i => do
      let t ← Merging.fromPool (f.afterConstructors context input (f.finalStack input i))
      Merging.joinStack context.hierarchy i t) n 0 s = .ok u s') :
    Honest s s' ∧ s'.target.stack.size = s.target.stack.size ∧ s'.target.locals = s.target.locals := by
  apply forCount_ok (fun _ t => Honest s t ∧ t.target.stack.size = s.target.stack.size ∧
    t.target.locals = s.target.locals) ⟨.refl s, rfl, rfl⟩ _ h
  intro i v t t' _ _ ht hstep
  obtain ⟨arriving, t₁, hpool, hjoin⟩ := run_bind_ok.1 hstep
  obtain ⟨hhonest, joined, htgt⟩ := joinStack_ok hjoin
  refine ⟨ht.1.trans ((honest_fromPool hpool).trans hhonest), ?_⟩
  obtain ⟨pool, -, rfl⟩ := fromPool_ok hpool
  rw [htgt]
  exact ⟨by simpa using ht.2.1, ht.2.2⟩

theorem mergeStack_ok {fresh : Bool} {pos : Nat} (hfresh : fresh = true → s.changed = true)
    (h : f.mergeStack context input fresh pos s = .ok u s') :
    Honest s s' ∧ s'.target.stack.size = f.finalHeight input ∧
      (fresh = false → s.target.stack.size = f.finalHeight input) ∧
      s'.target.locals = s.target.locals := by
  unfold mergeStack at h
  cases fresh with
  | true =>
    obtain ⟨_, t, hmodify, hloop⟩ := run_bind_ok.1 h
    obtain rfl := run_modify_ok.1 hmodify
    obtain ⟨hhonest, hsize, hloc⟩ := stackLoop_ok hloop
    have hchg := hhonest.changed (hfresh rfl)
    refine ⟨⟨fun _ => hchg, fun hs => ?_⟩, ?_, by simp, hloc⟩
    · rw [hchg] at hs
      cases hs
    · rw [hsize]
      simp
  | false =>
    rw [if_neg (by simp)] at h
    obtain ⟨t, t', hget, hchk⟩ := run_bind_ok.1 h
    obtain ⟨rfl, rfl⟩ := run_get_ok.1 hget
    by_cases hht : s.target.stack.size = f.finalHeight input
    · rw [if_neg (not_not_intro hht)] at hchk
      obtain ⟨hhonest, hsize, hloc⟩ := stackLoop_ok hchk
      exact ⟨hhonest, hsize.trans hht, fun _ => hht, hloc⟩
    · rw [if_pos hht] at hchk
      obtain ⟨_, t', hthrow, -⟩ := run_bind_ok.1 hchk
      exact (run_throw_ok.1 hthrow).elim

end Parts

/-! ### Whole merges -/

/-- The heights with which a target comes out of a merge: along a normal edge it has what arrives, and it had that
before if it was there; along an exception edge it has at least the exception. -/
def MergesHeights (f : Frame) (input : FrameInput) (target : Option FrameInput) (merged : FrameInput) :
    Edge → Prop
  | .normal => merged.stack.size = f.finalHeight input ∧ ∀ old ∈ target, old.stack.size = merged.stack.size
  | .caught _ => merged.stack.size = max 1 ((target.map (·.stack.size)).getD 0)

theorem mergeInto_ok {f : Frame} {context : TypeContext} {input : FrameInput} {edge : Edge} {pos : Nat}
    {target : Option FrameInput} {pool : Pool} {u : Unit} {s' : Merging}
    (h : f.mergeInto context input edge target.isNone pos ⟨target.getD {}, target.isNone, pool⟩ =
      .ok u s') :
    MergesHeights f input target s'.target edge ∧
      s'.target.locals.size = max ((target.map (·.locals.size)).getD 0) input.locals.size ∧
      (s'.changed = false → ∃ old, target = some old ∧
        (input.locals.size ≤ old.locals.size → s'.target = old)) := by
  obtain ⟨_, s₁, hroom, h⟩ := run_bind_ok.1 h
  obtain hs₁ := run_modify_ok.1 hroom
  obtain ⟨_, s₂, hloc, h⟩ := run_bind_ok.1 h
  obtain ⟨hhonest, hstk, hsize⟩ := mergeLocals_ok hloc
  have hfresh : target.isNone = true → s₂.changed = true := fun hnone =>
    hhonest.changed (by rw [← hs₁]; exact hnone)
  -- the rest of the merge is honest too, and leaves the number of locals alone
  have hrest : Honest s₂ s' ∧ s'.target.locals.size = s₂.target.locals.size ∧
      MergesHeights f input target s'.target edge := by
    cases edge with
    | normal =>
      obtain ⟨hhonest', hht, hold, hsame⟩ := mergeStack_ok hfresh h
      refine ⟨hhonest', by rw [hsame], hht, ?_⟩
      rintro old rfl
      have := hold rfl
      rw [hstk, ← hs₁] at this
      rw [hht]
      exact this
    | caught row =>
      obtain ⟨hhonest', hht, hsame⟩ := mergeCaught_ok h
      refine ⟨hhonest', hsame, ?_⟩
      rw [MergesHeights, hht, hstk, ← hs₁]
      cases target with
      | none => rfl
      | some old => rfl
  obtain ⟨hhonest', hsame, hhts⟩ := hrest
  refine ⟨hhts, ?_, ?_⟩
  · rw [hsame, hsize, ← hs₁]
    cases target with
    | none => simp
    | some old =>
      simp only [Option.getD_some, Option.map_some, Array.size_append, Array.size_replicate]
      omega
  · intro hchg
    have hs' := (hhonest.trans hhonest').unchanged hchg
    cases target with
    | none =>
      rw [hhonest'.changed (hfresh rfl)] at hchg
      cases hchg
    | some old =>
      refine ⟨old, rfl, fun hle => ?_⟩
      rw [hs', ← hs₁]
      simp [Nat.sub_eq_zero_of_le hle]

/-- **What a merge does to heights and sizes.** -/
theorem merge_ok {f : Frame} {context : TypeContext} {input : FrameInput} {edge : Edge} {pos : Nat}
    {t t' : MergeTarget} {changed : Bool} (hin : f.input = some input)
    (h : f.merge context edge pos t = .ok changed t') :
    ∃ merged, t'.input = some merged ∧ MergesHeights f input t.input merged edge ∧
      merged.locals.size = max ((t.input.map (·.locals.size)).getD 0) input.locals.size ∧
      (changed = false → ∃ old, t.input = some old ∧
        (input.locals.size ≤ old.locals.size → merged = old)) := by
  unfold merge at h
  rw [hin] at h
  dsimp only at h
  split at h
  · rename_i s' hinto
    cases h
    exact ⟨_, rfl, mergeInto_ok hinto⟩
  · cases h

end Frame

end JvmAssembler
