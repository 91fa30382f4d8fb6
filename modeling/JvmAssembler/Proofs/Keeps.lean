/-!
# JvmAssembler.Proofs.Keeps

What steps keep whether they succeed or fail, how they can fail, and what they do where they succeed.

An event that is rejected leaves what it did before it failed, so what holds of every state that a writer can get
into has to survive failure too.
-/

namespace JvmAssembler

/-- The state in which a run ends. -/
def stateAfter {ε σ α : Type} : EStateM.Result ε σ α → σ
  | .ok _ s => s
  | .error _ s => s

/-- Whether a run succeeds in a state with some property. -/
def succeedsIn {ε σ α : Type} (p : σ → Bool) : EStateM.Result ε σ α → Bool
  | .ok _ s => p s
  | .error _ _ => false

theorem exists_of_succeedsIn {ε σ α : Type} {p : σ → Bool} {r : EStateM.Result ε σ α}
    (h : succeedsIn p r = true) : ∃ a s, r = .ok a s ∧ p s = true := by
  cases r with
  | ok a s => exact ⟨a, s, rfl, h⟩
  | error e s => cases h

/-- The steps keep a property of the state, also when they fail. -/
def Keeps {ε σ α : Type} (P : σ → Prop) (m : EStateM ε σ α) : Prop := ∀ s, P s → P (stateAfter (m s))

namespace Keeps

variable {ε σ α β : Type} {P : σ → Prop}

theorem ok {m : EStateM ε σ α} (h : Keeps P m) {s t : σ} {a : α} (hs : P s) (hrun : m s = .ok a t) : P t := by
  have ht := h s hs
  rwa [hrun] at ht

theorem pure (a : α) : Keeps P (Pure.pure a : EStateM ε σ α) := fun _ h => h

theorem throw (e : ε) : Keeps P (MonadExcept.throw e : EStateM ε σ α) := fun _ h => h

theorem get : Keeps P (MonadState.get : EStateM ε σ σ) := fun _ h => h

theorem modifyGet {f : σ → α × σ} (h : ∀ s, P s → P (f s).2) :
    Keeps P (MonadStateOf.modifyGet f : EStateM ε σ α) := h

theorem modify {f : σ → σ} (h : ∀ s, P s → P (f s)) :
    Keeps P (MonadStateOf.modifyGet (fun s => ((), f s)) : EStateM ε σ Unit) := h

theorem bind {x : EStateM ε σ α} {f : α → EStateM ε σ β} (hx : Keeps P x) (hf : ∀ a, Keeps P (f a)) :
    Keeps P (x >>= f) := by
  intro s hs
  have hmiddle := hx s hs
  show P (stateAfter (EStateM.bind x f s))
  unfold EStateM.bind
  cases hrun : x s with
  | error e t =>
    rw [hrun] at hmiddle
    exact hmiddle
  | ok a t =>
    rw [hrun] at hmiddle
    exact hf a t hmiddle

/-- What would follow a failure does not matter. -/
theorem throw_bind (e : ε) (f : α → EStateM ε σ β) : Keeps P ((MonadExcept.throw e : EStateM ε σ α) >>= f) :=
  fun _ h => h

theorem ite {c : Prop} [Decidable c] {x y : EStateM ε σ α} (hx : Keeps P x) (hy : Keeps P y) :
    Keeps P (if c then x else y) := by
  split
  · exact hx
  · exact hy

theorem forM {f : α → EStateM ε σ PUnit} (h : ∀ a, Keeps P (f a)) (as : List α) : Keeps P (as.forM f) := by
  induction as with
  | nil => exact pure _
  | cons a as ih => exact bind (h a) fun _ => ih

theorem mapM {f : α → EStateM ε σ β} (h : ∀ a, Keeps P (f a)) (as : List α) : Keeps P (as.mapM f) := by
  induction as with
  | nil => exact pure _
  | cons a as ih =>
    rw [List.mapM_cons]
    exact bind (h a) fun _ => bind ih fun _ => pure _

end Keeps

/-- The steps fail only with errors of some kind. -/
def Raises {ε σ α : Type} (E : ε → Prop) (m : EStateM ε σ α) : Prop := ∀ s e t, m s = .error e t → E e

namespace Raises

variable {ε σ α β : Type} {E : ε → Prop}

theorem pure (a : α) : Raises E (Pure.pure a : EStateM ε σ α) := fun _ _ _ h => nomatch h

theorem throw {e : ε} (he : E e) : Raises E (MonadExcept.throw e : EStateM ε σ α) := by
  intro s e' t h
  cases h
  exact he

theorem get : Raises E (MonadState.get : EStateM ε σ σ) := fun _ _ _ h => nomatch h

theorem modifyGet {f : σ → α × σ} : Raises E (MonadStateOf.modifyGet f : EStateM ε σ α) :=
  fun _ _ _ h => nomatch h

theorem bind {x : EStateM ε σ α} {f : α → EStateM ε σ β} (hx : Raises E x) (hf : ∀ a, Raises E (f a)) :
    Raises E (x >>= f) := by
  intro s e t h
  change EStateM.bind x f s = _ at h
  unfold EStateM.bind at h
  cases hrun : x s with
  | error e' t' =>
    rw [hrun] at h
    cases h
    exact hx s e t hrun
  | ok a t' =>
    rw [hrun] at h
    exact hf a t' e t h

theorem throw_bind {e : ε} (he : E e) (f : α → EStateM ε σ β) :
    Raises E ((MonadExcept.throw e : EStateM ε σ α) >>= f) := by
  intro s e' t h
  cases h
  exact he

theorem ite {c : Prop} [Decidable c] {x y : EStateM ε σ α} (hx : Raises E x) (hy : Raises E y) :
    Raises E (if c then x else y) := by
  split
  · exact hx
  · exact hy

theorem forM {f : α → EStateM ε σ PUnit} (h : ∀ a, Raises E (f a)) (as : List α) : Raises E (as.forM f) := by
  induction as with
  | nil => exact pure _
  | cons a as ih => exact bind (h a) fun _ => ih

theorem mapM {f : α → EStateM ε σ β} (h : ∀ a, Raises E (f a)) (as : List α) : Raises E (as.mapM f) := by
  induction as with
  | nil => exact pure _
  | cons a as ih =>
    rw [List.mapM_cons]
    exact bind (h a) fun _ => bind ih fun _ => pure _

theorem mono {E' : ε → Prop} {m : EStateM ε σ α} (h : Raises E m) (hE : ∀ e, E e → E' e) : Raises E' m :=
  fun s e t hrun => hE e (h s e t hrun)

end Raises

/-- Where the steps succeed, they move the state along a relation. -/
def Moves {ε σ α : Type} (R : σ → σ → Prop) (m : EStateM ε σ α) : Prop := ∀ s a t, m s = .ok a t → R s t

end JvmAssembler
