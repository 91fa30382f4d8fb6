/-!
# JvmAssembler.Proofs.Success

Taking successful runs apart.

A sequence of steps succeeds if each step does. These are the inversions for the two kinds of steps in the library:
those that only fail (`Except`), and those that also have a state (`EStateM`).
-/

namespace JvmAssembler

namespace Success

variable {ε σ α β : Type}

variable {x : Except ε α} {f : α → EStateM ε σ β} {a : α} {e : ε} {s t : σ}

theorem bind_ok {f : α → Except ε β} {b : β} :
    (x >>= f) = .ok b ↔ ∃ a, x = .ok a ∧ f a = .ok b := by
  cases x with
  | error e => simp [bind, Except.bind]
  | ok a => simp [bind, Except.bind]

theorem bind_of_ok {f : α → Except ε β} (h : x = .ok a) : (x >>= f) = f a := by
  rw [h]
  rfl

/-- Several steps, one for each number below a bound. -/
theorem mapM_range_ok {f : Nat → Except ε β} {xs : List β} (h : ∀ i (hi : i < xs.length), f i = .ok xs[i]) :
    (List.range xs.length).mapM f = .ok xs := by
  induction xs generalizing f with
  | nil => rfl
  | cons x xs ih =>
    have hrest : (List.range xs.length).mapM (f ∘ Nat.succ) = .ok xs :=
      ih fun i hi => h (i + 1) (Nat.succ_lt_succ hi)
    have hfst : f 0 = .ok x := h 0 (Nat.succ_pos _)
    rw [List.length_cons, List.range_succ_eq_map, List.mapM_cons, hfst, List.mapM_map, hrest]
    rfl

theorem bind_error {f : α → Except ε β} :
    (x >>= f) = .error e ↔ x = .error e ∨ ∃ a, x = .ok a ∧ f a = .error e := by
  cases x with
  | error e => simp [bind, Except.bind]
  | ok a => simp [bind, Except.bind]

theorem pure_ok {b : α} : (pure a : Except ε α) = .ok b ↔ a = b := by
  simp [pure, Except.pure]

theorem ok_of_toBool (h : x.toBool = true) : ∃ a, x = .ok a := by
  cases x with
  | error e => simp [Except.toBool] at h
  | ok a => exact ⟨a, rfl⟩

theorem ok_of_toOption (h : x.toOption = some a) : x = .ok a := by
  cases x with
  | error e => simp [Except.toOption] at h
  | ok b => simpa [Except.toOption] using h

theorem run_bind_of_ok {x : EStateM ε σ α} (h : x s = .ok a t) :
    (x >>= f) s = f a t := by
  show EStateM.bind x f s = _
  rw [EStateM.bind, h]

theorem run_get_bind {f : σ → EStateM ε σ β} : ((get : EStateM ε σ σ) >>= f) s = f s s := rfl

theorem run_bind_of_error {x : EStateM ε σ α} (h : x s = .error e t) :
    (x >>= f) s = .error e t := by
  show EStateM.bind x f s = _
  rw [EStateM.bind, h]

theorem run_bind_ok {x : EStateM ε σ α} {b : β} :
    (x >>= f) s = .ok b t ↔ ∃ a u, x s = .ok a u ∧ f a u = .ok b t := by
  show EStateM.bind x f s = _ ↔ _
  unfold EStateM.bind
  cases x s with
  | error e u => simp
  | ok a u =>
    constructor
    · exact fun h => ⟨a, u, rfl, h⟩
    · rintro ⟨_, _, hx, h⟩
      cases hx
      exact h

theorem run_bind_error {x : EStateM ε σ α} :
    (x >>= f) s = .error e t ↔ x s = .error e t ∨ ∃ a u, x s = .ok a u ∧ f a u = .error e t := by
  show EStateM.bind x f s = _ ↔ _
  unfold EStateM.bind
  cases x s with
  | error e u => simp
  | ok a u =>
    constructor
    · exact fun h => .inr ⟨a, u, rfl, h⟩
    · rintro (hx | ⟨_, _, hx, h⟩)
      · cases hx
      · cases hx
        exact h

theorem run_pure_ok {b : α} :
    (pure a : EStateM ε σ α) s = .ok b t ↔ a = b ∧ s = t := by
  show EStateM.Result.ok a s = _ ↔ _
  simp

theorem run_get_ok {u : σ} : (get : EStateM ε σ σ) s = .ok u t ↔ s = u ∧ s = t := by
  show EStateM.Result.ok s s = _ ↔ _
  simp

theorem run_modify_ok {f : σ → σ} {u : Unit} :
    (modify f : EStateM ε σ Unit) s = .ok u t ↔ f s = t := by
  show EStateM.Result.ok () (f s) = _ ↔ _
  simp

theorem run_modifyGet_ok {f : σ → α × σ} :
    (modifyGet f : EStateM ε σ α) s = .ok a t ↔ f s = (a, t) := by
  show EStateM.Result.ok (f s).1 (f s).2 = _ ↔ _
  simp [Prod.ext_iff]

theorem run_throw_ok :
    (throw e : EStateM ε σ α) s = .ok a t ↔ False := by
  show EStateM.Result.error e s = _ ↔ _
  simp

end Success

end JvmAssembler
