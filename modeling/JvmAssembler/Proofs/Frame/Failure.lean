import JvmAssembler.Proofs.Frame.Merge
import JvmAssembler.Proofs.Pool.Custody

/-!
# JvmAssembler.Proofs.Frame.Failure

How a merge can fail: because a class is not known, or because two stacks of different heights meet.
-/

namespace JvmAssembler

open Success

/-- Any error but one about stack heights. -/
def Error.IsOther (e : Error) : Prop := ∀ offset expected found, e ≠ .stackHeightMismatch offset expected found

theorem Error.IsPlain.isOther {e : Error} (h : e.IsPlain) : e.IsOther := by
  rintro offset expected found rfl
  cases h

theorem Raises.isOther {σ α : Type} {m : EStateM Error σ α} (h : Raises Error.IsPlain m) : Raises Error.IsOther m :=
  h.mono fun _ he => he.isOther

namespace Frame

variable {f : Frame} {context : TypeContext} {input : FrameInput}

/-- What it means that a merge fails because of stack heights. -/
def Disagrees (f : Frame) (input : FrameInput) (target : Option FrameInput) (pos : Nat) (e : Error) : Prop :=
  ∃ old, target = some old ∧ old.stack.size ≠ f.finalHeight input ∧
    e = .stackHeightMismatch pos old.stack.size (f.finalHeight input)

/-- **A merge fails because of stack heights only where they differ.** -/
theorem merge_error {edge : Edge} {pos : Nat} {t t' : MergeTarget} {e : Error}
    (h : f.merge context edge pos t = .error e t') :
    e.IsOther ∨ ∃ input, f.input = some input ∧ edge = .normal ∧ f.Disagrees input t.input pos e := by
  unfold merge at h
  split at h
  · cases h
  · rename_i input hin
    dsimp only at h
    split at h
    · cases h
    · rename_i m hinto
      cases h
      rcases run_bind_error.1 hinto with hroom | ⟨_, s₁, hroom, hinto⟩
      · cases hroom
      obtain rfl := run_modify_ok.1 hroom
      rcases run_bind_error.1 hinto with hloc | ⟨_, s₂, hloc, hinto⟩
      · exact .inl ((keepsPool_mergeLocals f context input).raises.isOther _ _ _ hloc)
      cases edge with
      | caught row => exact .inl ((keepsPool_mergeCaught context input row).raises.isOther _ _ _ hinto)
      | normal =>
        obtain ⟨-, hstk, -⟩ := mergeLocals_ok hloc
        dsimp only at hinto
        unfold mergeStack at hinto
        cases htgt : t.input with
        | none =>
          rw [htgt] at hinto
          rcases run_bind_error.1 hinto with hfill | ⟨_, s₃, -, hloop⟩
          · cases hfill
          · exact .inl ((keepsPool_stackLoop f context input _).raises.isOther _ _ _ hloop)
        | some old =>
          rw [htgt] at hinto hstk
          dsimp only [Option.getD_some] at hstk
          rcases run_bind_error.1 hinto with hget | ⟨_, s₃, hget, hinto⟩
          · cases hget
          obtain ⟨rfl, rfl⟩ := run_get_ok.1 hget
          rw [hstk] at hinto
          by_cases hht : old.stack.size = f.finalHeight input
          · rw [if_neg (not_not_intro hht)] at hinto
            exact .inl ((keepsPool_stackLoop f context input _).raises.isOther _ _ _ hinto)
          · rw [if_pos hht] at hinto
            cases hinto
            exact .inr ⟨input, hin, rfl, old, rfl, hht, rfl⟩

end Frame

end JvmAssembler
