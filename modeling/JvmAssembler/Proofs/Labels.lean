import JvmAssembler.Method.Label

/-!
# JvmAssembler.Proofs.Labels

What is known of each label after the label table has been changed.
-/

namespace JvmAssembler

namespace LabelTable

variable (labels : LabelTable) (label other : Label)

theorem info_eq : labels.info label = (labels[label]?).getD {} := by
  simp [info]

theorem info_of_size_le (h : labels.size ≤ label) : labels.info label = {} := by
  simp [info_eq, h]

/-- A label that carries something is in the table. -/
theorem lt_size_of_frame {frame : Frame} (h : (labels.info label).typed.frame = some frame) :
    label < labels.size := by
  rcases Nat.lt_or_ge label labels.size with hlt | hge
  · exact hlt
  · rw [labels.info_of_size_le label hge] at h
    cases h

@[simp] theorem size_update (f : LabelInfo → LabelInfo) : (labels.update label f).size = labels.size := by
  simp [update]

@[simp] theorem size_updateTyped (f : TypedBlock → TypedBlock) :
    (labels.updateTyped label f).size = labels.size := by
  simp [updateTyped]

theorem info_update_self (f : LabelInfo → LabelInfo) (h : label < labels.size) :
    (labels.update label f).info label = f (labels.info label) := by
  rw [info_eq, info_eq, update, Array.getElem?_modify, if_pos rfl, Array.getElem?_eq_getElem h]
  rfl

theorem info_update_of_ne (f : LabelInfo → LabelInfo) (h : other ≠ label) :
    (labels.update label f).info other = labels.info other := by
  rw [info_eq, info_eq, update, Array.getElem?_modify, if_neg (Ne.symm h)]

theorem updateTyped_eq (f : TypedBlock → TypedBlock) :
    labels.updateTyped label f = labels.update label fun info => { info with typed := f info.typed } := rfl

theorem updateTyped_updateTyped (f g : TypedBlock → TypedBlock) :
    (labels.updateTyped label f).updateTyped label g = labels.updateTyped label fun b => g (f b) := by
  refine Array.ext (by simp) fun i hi _ => ?_
  simp only [updateTyped, Array.getElem_modify]
  split
  · rfl
  · rfl

/-- A new label is like one that is not in the table. -/
@[simp] theorem info_push : LabelTable.info (labels.push {}) label = labels.info label := by
  rw [info_eq, info_eq, Array.getElem?_push]
  split
  · rename_i h
    rw [h, Array.getElem?_eq_none (Nat.le_refl _)]
    rfl
  · rfl

/-- Whatever holds of a label and is kept by a change holds of it afterwards. -/
theorem info_update_cases {P : LabelInfo → LabelInfo → Prop} (f : LabelInfo → LabelInfo)
    (hsame : ∀ info, P info info) (hchg : ∀ info, P info (f info)) :
    P (labels.info other) ((labels.update label f).info other) := by
  by_cases hne : other = label
  · subst hne
    rcases Nat.lt_or_ge other labels.size with hlt | hge
    · rw [labels.info_update_self other f hlt]
      exact hchg _
    · rw [info_of_size_le _ _ hge, info_of_size_le _ _ (by simpa using hge)]
      exact hsame _
  · rw [labels.info_update_of_ne label other f hne]
    exact hsame _

@[simp] theorem isPlaced_push : LabelTable.isPlaced (labels.push {}) label = labels.isPlaced label := by
  rw [isPlaced, isPlaced, position?, position?, info_push]

@[simp] theorem size_updateSized (f : SizedBlock → SizedBlock) : (labels.updateSized label f).size = labels.size := by
  simp [updateSized]

theorem updateSized_eq (f : SizedBlock → SizedBlock) :
    labels.updateSized label f = labels.update label fun info => { info with sized := f info.sized } := rfl

@[simp] theorem isPlaced_updateSized (f : SizedBlock → SizedBlock) :
    (labels.updateSized label f).isPlaced other = labels.isPlaced other := by
  rw [updateSized_eq]
  exact labels.info_update_cases (P := fun before after => after.position.isSome = before.position.isSome) label other _
    (fun _ => rfl) fun _ => rfl

def placed (position : Nat) : LabelTable :=
  labels.update label fun info => { info with position := some position, waiting := #[] }

theorem position?_placed {labels : LabelTable} {label : Label} (hlab : label < labels.size) (position : Nat) :
    (labels.placed label position).position? label = some position := by
  rw [position?, placed, info_update_self _ _ _ hlab]

theorem position?_placed_cases {labels : LabelTable} {label : Label} (hlab : label < labels.size) (position : Nat) (l : Label) :
    (labels.placed label position).position? l = if l = label then some position else labels.position? l := by
  by_cases hl : l = label
  · rw [if_pos hl, hl, position?_placed hlab]
  · rw [if_neg hl, position?, placed, info_update_of_ne _ _ _ _ hl, position?]

/-- Two tables of the same labels, which agree in where these are and in part of what is known of their blocks. -/
structure Agree {β : Type} (part : TypedBlock → β) (labels labels' : LabelTable) : Prop where
  size : labels'.size = labels.size
  position : ∀ l, (labels'.info l).position = (labels.info l).position
  canonical : ∀ l, (labels'.info l).canonical = (labels.info l).canonical
  typed : ∀ l, part (labels'.info l).typed = part (labels.info l).typed

namespace Agree

variable {β : Type} {part : TypedBlock → β} {u v w : LabelTable}

theorem refl (labels : LabelTable) : Agree part labels labels := ⟨rfl, fun _ => rfl, fun _ => rfl, fun _ => rfl⟩

theorem trans (h : Agree part u v) (h' : Agree part v w) : Agree part u w where
  size := h'.size.trans h.size
  position l := (h'.position l).trans (h.position l)
  canonical l := (h'.canonical l).trans (h.canonical l)
  typed l := (h'.typed l).trans (h.typed l)

theorem updateTyped (labels : LabelTable) (lbl : Label) {f : TypedBlock → TypedBlock}
    (hf : ∀ b, part (f b) = part b) :
    Agree part labels (labels.updateTyped lbl f) where
  size := by simp
  position l := labels.info_update_cases (P := fun i i' => i'.position = i.position) lbl l _ (fun _ => rfl) fun _ => rfl
  canonical l := labels.info_update_cases (P := fun i i' => i'.canonical = i.canonical) lbl l _ (fun _ => rfl) fun _ => rfl
  typed l := labels.info_update_cases (P := fun i i' => part i'.typed = part i.typed) lbl l _ (fun _ => rfl) fun i => hf i.typed

theorem andUpdateTyped (h : Agree part u v) (lbl : Label) {f : TypedBlock → TypedBlock} (hf : ∀ b, part (f b) = part b) :
    Agree part u (v.updateTyped lbl f) :=
  h.trans (.updateTyped v lbl hf)

end Agree

end LabelTable

end JvmAssembler
