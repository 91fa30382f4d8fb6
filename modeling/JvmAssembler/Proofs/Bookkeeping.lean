import JvmAssembler.Proofs.Invariant
import JvmAssembler.Proofs.Typesetting.Writing

/-!
# JvmAssembler.Proofs.Bookkeeping

What every event does to the books of a method, whether it is accepted or not.

`Step` says what stays true from one state to a later one: the pool only gets more rows, methods that are finished stay as
they are, labels are placed inside the code, and the frames refer to classes of the pool. It holds across all events but
`finish`, which adds the method to the class.
-/

namespace JvmAssembler

open Success

open Pool

/-! ### How steps end -/

/-- What holds where steps succeed, and what holds where they fail. -/
def Outcome {ε σ α : Type} (Q : α → σ → Prop) (E : σ → Prop) : EStateM.Result ε σ α → Prop
  | .ok a s => Q a s
  | .error _ s => E s

namespace Outcome

variable {ε σ α β : Type} {E : σ → Prop}

variable {Q : α → σ → Prop} {r : EStateM.Result ε σ α} {P : σ → Prop}

theorem bind {x : EStateM ε σ α} {f : α → EStateM ε σ β} {s : σ} {R : β → σ → Prop}
    (hx : Outcome Q E (x s)) (hf : ∀ a t, Q a t → Outcome R E (f a t)) : Outcome R E ((x >>= f) s) := by
  cases hrun : x s with
  | error e t =>
    rw [run_bind_of_error hrun]
    rwa [hrun] at hx
  | ok a t =>
    rw [run_bind_of_ok hrun]
    rw [hrun] at hx
    exact hf a t hx

theorem mono {Q' : α → σ → Prop} {E' : σ → Prop} (h : Outcome Q E r)
    (hQ : ∀ a s, Q a s → Q' a s) (hE : ∀ s, E s → E' s) : Outcome Q' E' r := by
  cases r with
  | ok a s => exact hQ a s h
  | error e s => exact hE s h

theorem of_keeps {m : EStateM ε σ α} (h : Keeps P m) {s : σ} (hs : P s) : Outcome (fun _ => P) P (m s) := by
  have hend := h s hs
  cases hrun : m s with
  | ok a t =>
    rw [hrun] at hend
    exact hend
  | error e t =>
    rw [hrun] at hend
    exact hend

theorem stateAfter (h : Outcome (fun _ => P) P r) : P (stateAfter r) := by
  cases r with
  | ok a s => exact h
  | error e s => exact h

end Outcome

theorem exists_of_forall₂ {α β : Type} {R : α → β → Prop} {as : List α} {bs : List β} (h : List.Forall₂ R as bs) {b : β}
    (hb : b ∈ bs) : ∃ a ∈ as, R a b := by
  induction h with
  | nil => cases hb
  | cons hfst _ ih =>
    rcases List.mem_cons.1 hb with rfl | hb
    · exact ⟨_, List.mem_cons_self, hfst⟩
    · exact (ih hb).imp fun _ h => ⟨List.mem_cons_of_mem _ h.1, h.2⟩

/-! ### Asking the pool -/

namespace Pool

/-- A pool has got more rows. -/
def Develops (pool pool' : Pool) : Prop := pool.Orderly → pool'.Orderly ∧ Extends 5 pool pool'

theorem Develops.refl (pool : Pool) : Develops pool pool := fun h => ⟨h, .refl 5 pool⟩

theorem Develops.trans {u v w : Pool} (h : Develops u v) (h' : Develops v w) : Develops u w := by
  intro hu
  obtain ⟨hv, huv⟩ := h hu
  obtain ⟨hw, hvw⟩ := h' hv
  exact ⟨hw, huv.trans hvw⟩

theorem lasting_develops {H : Hierarchy → Prop} (pool : Pool) : Lasting H (Develops pool) := by
  intro op _ later hlater
  exact hlater.trans fun h => perform_spec h op

theorem Cares.develops {α : Type} {m : PoolM α} (h : Cares m) (pool : Pool) : Develops pool (stateAfter (m pool)) :=
  h.keeps _ (lasting_develops pool) pool (.refl pool)

theorem Interns.get_bind {β : Type} {n : Nat} {P : Pool → Prop} {f : Pool → PoolM β} {Q : β → Pool → Prop}
    (h : ∀ pool, Interns n P (f pool) Q) : Interns n P (MonadState.get >>= f) Q :=
  fun pool hord hP => h pool pool hord hP

theorem Interns.mapM {α β : Type} {n : Nat} {f : α → PoolM β} {Q : α → β → Pool → Prop}
    (hf : ∀ a, Interns n Any (f a) (Q a)) (hstays : ∀ a b, Stays (Q a b)) (as : List α) :
    Interns n Any (as.mapM f) fun bs pool => List.Forall₂ (fun a b => Q a b pool) as bs := by
  induction as with
  | nil => exact .pure fun _ _ => .nil
  | cons a as ih =>
    rw [List.mapM_cons]
    refine .bind (hf a) fun b => ?_
    exact .bind (Interns.keeping (hstays a b) ih) fun bs => .pure fun pool h => .cons h.1 h.2

end Pool

/-! ### Frames and the rows they refer to -/

/-- A type of a frame refers to a class of the pool, and to an offset that fits. -/
def VerificationType.Refers (pool : Pool) : VerificationType → Prop
  | object cls => ∃ name, pool.entry? cls = some (.cls name)
  | uninitialized offset => offset < 65536
  | _ => True

theorem VerificationType.stays_refers (t : VerificationType) : Stays fun pool => t.Refers pool := by
  intro n pool pool' hext h
  cases t with
  | object cls =>
    obtain ⟨name, hname⟩ := h
    exact ⟨name, hext.entry? hname⟩
  | uninitialized offset => exact h
  | _ => trivial

/-- The types of a frame refer to classes of the pool, and its distance fits. -/
def StackMapFrame.Refers (pool : Pool) (frame : StackMapFrame) : Prop :=
  frame.delta < 65536 ∧ ∀ t ∈ frame.shape.items, t.Refers pool

def StackMap.Builder.Refers (pool : Pool) (map : StackMap.Builder) : Prop := ∀ frame ∈ map.frames.toList, frame.Refers pool

theorem StackMap.Builder.stays_refers (map : StackMap.Builder) : Stays fun pool => map.Refers pool := by
  intro n pool pool' hext h frame hfr
  exact ⟨(h frame hfr).1, fun t ht => t.stays_refers n pool pool' hext ((h frame hfr).2 t ht)⟩

theorem StackMap.Builder.refers_start (pool : Pool) (locals : List VerificationType) : (start locals).Refers pool := by
  simp [Refers, start]

variable {offset : Nat} {locals stack : List VerificationType} {pool : Pool} {map' : StackMap.Builder}

theorem StackMap.Builder.delta?_lt {map : StackMap.Builder} {delta : Nat} (h : map.delta? offset = some delta) :
    delta < 65536 := by
  unfold delta? at h
  split at h <;> split at h <;> cases h <;> omega

theorem StackMap.items_compress {previous : List VerificationType} {t : VerificationType}
    (h : t ∈ (compress previous locals stack).items) : t ∈ locals ∨ t ∈ stack := by
  unfold compress at h
  split at h
  · split at h
    · simp [FrameShape.items] at h
    · split at h
      · simp [FrameShape.items] at h
      · split at h
        · exact .inl (List.mem_of_mem_drop h)
        · simpa [FrameShape.items] using h
  · split at h
    · exact .inr h
    · simpa [FrameShape.items] using h
  · simpa [FrameShape.items] using h

theorem StackMap.Builder.Refers.push {map : StackMap.Builder} (h : map.Refers pool) {frame : StackMapFrame}
    (hfr : frame.Refers pool) : ∀ f ∈ (map.frames.push frame).toList, f.Refers pool := by
  rw [Array.toList_push, List.forall_mem_append]
  exact ⟨h, by simpa using hfr⟩

theorem StackMap.Builder.Refers.pushExpanded {map : StackMap.Builder} (h : map.Refers pool) (hloc : ∀ t ∈ locals, t.Refers pool)
    (hstk : ∀ t ∈ stack, t.Refers pool) (hpush : map.pushExpanded offset locals stack = .ok map') : map'.Refers pool := by
  unfold StackMap.Builder.pushExpanded at hpush
  split at hpush
  · cases hpush
  · rename_i delta hdel
    cases hpush
    exact h.push ⟨delta?_lt hdel, fun t ht => (StackMap.items_compress ht).elim (hloc t) (hstk t)⟩

theorem StackMap.Builder.Refers.pushShape {map : StackMap.Builder}
    {shape : FrameShape VerificationType} (h : map.Refers pool) (hsh : ∀ t ∈ shape.items, t.Refers pool)
    (hpush : map.pushShape offset shape = .ok map') : map'.Refers pool := by
  unfold StackMap.Builder.pushShape at hpush
  split at hpush
  · rename_i delta hdel
    cases hpush
    exact h.push ⟨delta?_lt hdel, hsh⟩
  · split at hpush
    · cases hpush
      exact h
    · cases hpush

theorem FrameType.interns_verificationType (t : FrameType) :
    Interns 5 Any t.verificationType fun v pool => v.Refers pool := by
  have hclass : ∀ name : String, Interns 5 Any (do return VerificationType.object (← Pool.cls name))
      fun v pool => v.Refers pool := by
    intro name
    refine .bind ((interns_cls name).mono (by decide) (fun _ h => h) fun _ _ h => h) fun i => .pure fun pool h => ?_
    exact ⟨name, h⟩
  refine .get_bind fun pool => .ite (fun _ => ?_) fun _ => ?_
  · split
    · exact hclass _
    · exact .pure fun _ _ => trivial
  · split
    all_goals try exact .pure fun _ _ => trivial
    · exact hclass _
    · split
      · exact .pure fun _ _ => Nat.mod_lt _ (by decide)
      · exact .pure fun _ _ => trivial

/-- The types of an input refer to classes of the pool. -/
theorem FrameInput.interns_verificationTypes (input : FrameInput) :
    Interns 5 Any input.verificationTypes fun types pool =>
      (∀ t ∈ types.1, t.Refers pool) ∧ ∀ t ∈ types.2, t.Refers pool := by
  have hall : ∀ ts : List FrameType, Interns 5 Any (ts.mapM FrameType.verificationType)
      fun vs pool => ∀ v ∈ vs, v.Refers pool := by
    intro ts
    refine (Interns.mapM FrameType.interns_verificationType (fun _ v => v.stays_refers) ts).mono (Nat.le_refl 5)
      (fun _ h => h) fun vs pool h v hv => ?_
    obtain ⟨_, -, hv⟩ := exists_of_forall₂ h hv
    exact hv
  have hstays : ∀ vs : List VerificationType, Stays fun pool => ∀ v ∈ vs, v.Refers pool :=
    fun vs n pool pool' hext h v hv => v.stays_refers n pool pool' hext (h v hv)
  refine .bind (hall _) fun locals => ?_
  exact .bind (Interns.keeping (hstays locals) (hall _)) fun stack => .pure fun pool h => h

/-! ### Labels -/

namespace LabelTable

/-- What something jumps to stays a target. -/
def Marks (labels labels' : LabelTable) : Prop :=
  ∀ l, (labels.info l).typed.isTarget = true → (labels'.info l).typed.isTarget = true

namespace Marks

theorem refl (labels : LabelTable) : labels.Marks labels := fun _ h => h

theorem trans {t u v : LabelTable} (h : t.Marks u) (h' : u.Marks v) : t.Marks v := fun l hl => h' l (h l hl)

theorem update (labels : LabelTable) (label : Label) {f : LabelInfo → LabelInfo}
    (hf : ∀ info, info.typed.isTarget = true → (f info).typed.isTarget = true) : labels.Marks (labels.update label f) :=
  fun l => labels.info_update_cases (P := fun i i' => i.typed.isTarget = true → i'.typed.isTarget = true) label l f
    (fun _ h => h) hf

end Marks

/-- Labels are added, and records about blocks are changed. -/
structure Unmoved (labels labels' : LabelTable) : Prop where
  positions : ∀ l, labels'.position? l = labels.position? l
  targets : labels.Marks labels'

namespace Unmoved

instance : Std.Refl Unmoved := ⟨fun labels => ⟨fun _ => rfl, .refl labels⟩⟩

theorem of_retouched {labels labels' : LabelTable} (h : labels.Retouched labels') : labels.Unmoved labels' :=
  ⟨fun l => (h l).position, fun l => (h l).target⟩

theorem trans {t u v : LabelTable} (h : t.Unmoved u) (h' : u.Unmoved v) : t.Unmoved v :=
  ⟨fun l => (h'.positions l).trans (h.positions l), h.targets.trans h'.targets⟩

theorem update (labels : LabelTable) (label : Label) {f : LabelInfo → LabelInfo}
    (hpos : ∀ info, (f info).position = info.position)
    (htgt : ∀ info, info.typed.isTarget = true → (f info).typed.isTarget = true) :
    labels.Unmoved (labels.update label f) where
  positions l := labels.info_update_cases (P := fun i i' => i'.position = i.position) label l f (fun _ => rfl) hpos
  targets := .update labels label htgt

theorem updateTyped (labels : LabelTable) (label : Label) {f : TypedBlock → TypedBlock}
    (hf : ∀ b, b.isTarget = true → (f b).isTarget = true) : labels.Unmoved (labels.updateTyped label f) := by
  rw [updateTyped_eq]
  exact .update _ _ (fun _ => rfl) fun info => hf info.typed

theorem markTarget (labels : LabelTable) (label : Label) : labels.Unmoved (labels.markTarget label) :=
  updateTyped _ _ fun _ _ => rfl

theorem addTypeEdge (labels : LabelTable) (block : Label) (edge : Frame.Edge) (successor : Label) :
    labels.Unmoved (labels.addTypeEdge block edge successor) := updateTyped _ _ fun _ h => h

/-- The frame of a block is taken away and put back. -/
theorem setFrame (labels : LabelTable) (label : Label) (frame frame' : Option Frame) :
    labels.Unmoved ((labels.updateTyped label fun b => { b with frame := frame }).updateTyped label fun b =>
      { b with frame := frame' }) := by
  refine trans (updateTyped labels label (f := fun b => { b with frame := frame }) fun _ h => h) ?_
  exact updateTyped _ _ fun _ h => h

theorem updateSized (labels : LabelTable) (label : Label) (f : SizedBlock → SizedBlock) :
    labels.Unmoved (labels.updateSized label f) := by
  rw [updateSized_eq]
  exact .update _ _ (fun _ => rfl) fun _ h => h

theorem foldl {α : Type} {f : LabelTable → α → LabelTable} (h : ∀ labels a, Unmoved labels (f labels a))
    (as : List α) (labels : LabelTable) : labels.Unmoved (as.foldl f labels) := by
  induction as generalizing labels with
  | nil => exact Std.Refl.refl _
  | cons a as ih => exact (h labels a).trans (ih _)

end Unmoved

end LabelTable

/-! ### Steps -/

namespace MethodWriter

def FramesRefer (w : MethodWriter) : Prop := ∀ map, w.stackMap = some map → map.Refers w.pool

/-- From one state of a method to a later one: the pool has got more rows, and nothing was finished. -/
structure Step (w w' : MethodWriter) : Prop where
  pool : Develops w.pool w'.pool
  frames : w.pool.Orderly → w.FramesRefer → w'.FramesRefer
  methods : w'.methods = w.methods
  declaration : w'.declaration = w.declaration
  context : w'.context = w.context
  compute : w'.compute = w.compute
  size : w.code.size ≤ w'.code.size
  places : ∀ l p, w'.labels.position? l = some p → w.labels.position? l = some p ∨ p ≤ w'.code.size
  kept : ∀ l p, w.labels.position? l = some p → w'.labels.position? l = some p
  /-- What something jumps to stays a target. -/
  targets : w.labels.Marks w'.labels

namespace Step

theorem refl (w : MethodWriter) : Step w w where
  pool := .refl w.pool
  frames _ h := h
  methods := rfl
  declaration := rfl
  context := rfl
  compute := rfl
  size := Nat.le_refl _
  places _ _ h := .inl h
  kept _ _ h := h
  targets := .refl _

theorem trans {u v w : MethodWriter} (h : Step u v) (h' : Step v w) : Step u w where
  pool := h.pool.trans h'.pool
  frames hu hfrs := h'.frames (h.pool hu).1 (h.frames hu hfrs)
  methods := h'.methods.trans h.methods
  declaration := h'.declaration.trans h.declaration
  context := h'.context.trans h.context
  compute := h'.compute.trans h.compute
  size := Nat.le_trans h.size h'.size
  places := by
    intro l p hp
    rcases h'.places l p hp with hp | hp
    · exact (h.places l p hp).imp_right fun hle => Nat.le_trans hle h'.size
    · exact .inr hp
  kept l p hp := h'.kept l p (h.kept l p hp)
  targets := h.targets.trans h'.targets

end Step

/-- From one state of a method to a later one, at the same stage. -/
structure Inside (w w' : MethodWriter) : Prop extends Step w w' where
  stage : w'.stage = w.stage

namespace Inside

theorem refl (w : MethodWriter) : Inside w w := ⟨.refl w, rfl⟩

theorem trans {u v w : MethodWriter} (h : Inside u v) (h' : Inside v w) : Inside u w :=
  ⟨h.toStep.trans h'.toStep, h'.stage.trans h.stage⟩

end Inside

variable {w₀ : MethodWriter}

/-- What stays inside a stage is a step. -/
theorem keeps_step {α : Type} {m : MethodM α} (h : ∀ w, Keeps (Inside w) m) : Keeps (Step w₀) m :=
  fun w hw => hw.trans (h w w (.refl w)).toStep

/-- A change that touches neither the books nor the places of labels. -/
structure Aside (w w' : MethodWriter) : Prop where
  books : (w'.pool, w'.stackMap, w'.methods, w'.declaration, w'.context, w'.stage, w'.compute) =
    (w.pool, w.stackMap, w.methods, w.declaration, w.context, w.stage, w.compute)
  size : w.code.size ≤ w'.code.size
  places : ∀ l p, w'.labels.position? l = some p → w.labels.position? l = some p ∨ p ≤ w'.code.size
  kept : ∀ l p, w.labels.position? l = some p → w'.labels.position? l = some p
  targets : w.labels.Marks w'.labels

variable {w w' : MethodWriter} {map : StackMap.Builder}

theorem Aside.inside (h : Aside w w') : Inside w w' := by
  obtain ⟨hbooks, hsize, hpls, hkept, htgts⟩ := h
  simp only [Prod.mk.injEq] at hbooks
  obtain ⟨hpool, hmap, hmeths, hdecl, hcontext, hstg, hcomp⟩ := hbooks
  refine ⟨⟨hpool ▸ .refl _, fun _ hfrs map hstored => ?_, hmeths, hdecl, hcontext, hcomp, hsize, hpls,
    hkept, htgts⟩, hstg⟩
  rw [hpool]
  exact hfrs map (hmap ▸ hstored)

theorem Aside.of_unmoved (h : (w'.pool, w'.stackMap, w'.methods, w'.declaration, w'.context, w'.stage, w'.compute) =
      (w.pool, w.stackMap, w.methods, w.declaration, w.context, w.stage, w.compute))
    (hsize : w.code.size ≤ w'.code.size) (hlabs : LabelTable.Unmoved w.labels w'.labels) : Aside w w' := by
  refine ⟨h, hsize, fun l p hp => .inl ?_, fun l p hp => ?_, hlabs.targets⟩
  · rwa [hlabs.positions] at hp
  · rwa [hlabs.positions]

theorem inside_modify {f : MethodWriter → MethodWriter} (h : ∀ w, Aside w (f w)) :
    Tame (Inside w₀) (modify f : MethodM Unit) := .modifyGet fun w hw => hw.trans (h w).inside

theorem inside_updateLabels {f : LabelTable → LabelTable} (hf : ∀ labels, LabelTable.Unmoved labels (f labels)) :
    Tame (Inside w₀) (updateLabels f) := inside_modify fun w => .of_unmoved rfl (Nat.le_refl _) (hf w.labels)

/-- The pool and the labels of a method are given back. -/
theorem inside_returned {pool : Pool} {labels : LabelTable} (hpool : Develops w.pool pool)
    (hlabs : LabelTable.Unmoved w.labels labels) : Inside w { w with pool := pool, labels := labels } where
  pool := hpool
  frames hord hfrs map hmap := map.stays_refers 5 _ _ (hpool hord).2 (hfrs map hmap)
  methods := rfl
  declaration := rfl
  context := rfl
  compute := rfl
  size := Nat.le_refl _
  places l p hp := .inl (by rwa [← hlabs.positions])
  kept l p hp := by rwa [hlabs.positions]
  targets := hlabs.targets
  stage := rfl

theorem inside_interpret (op : Opcode) (arg : Nat) (operand : Operand) : Keeps (Inside w₀) (interpret op arg operand) := by
  intro w hw
  unfold interpret
  split
  · split
    · exact hw
    · rename_i frame _
      have hpool := (Interpreter.cares_execute op arg operand).keeps _ (lasting_develops w.pool) ⟨frame, w.pool⟩ (.refl _)
      dsimp only
      cases hrun : Interpreter.execute op arg operand ⟨frame, w.pool⟩ <;> rw [hrun] at hpool <;>
        exact hw.trans (inside_returned hpool (.setFrame ..))
  · exact hw

theorem inside_resolve (label : Label) : Keeps (Inside w₀) (resolve label) := by
  intro w hw
  rcases resolve_cases label w with ⟨-, hrun⟩ | ⟨hfree, code, marks, hsize, hrun⟩ <;> rw [hrun]
  · exact hw
  · have hpl : Aside w { w with labels := w.labels.placed label w.code.size, code := code, hasOversized := marks } := by
      refine ⟨rfl, Nat.le_of_eq hsize.symm, fun l p hp => ?_, fun l p hp => ?_, .update _ _ fun _ h => h⟩
      · refine w.labels.info_update_cases label l (P := fun i i' => i'.position = some p → i.position = some p ∨ p ≤ code.size)
          _ (fun _ => .inl) (fun _ hnew => ?_) hp
        cases hnew
        exact .inr (Nat.le_of_eq hsize.symm)
      · have hne : l ≠ label := by
          rintro rfl
          cases hfree.symm.trans hp
        show (LabelTable.info _ l).position = some p
        rw [LabelTable.placed, LabelTable.info_update_of_ne _ _ _ _ hne]
        exact hp
    exact hw.trans hpl.inside

theorem inside_fromPool {α : Type} {action : PoolM α} (h : Cares action) : Keeps (Inside w₀) (fromPool action) := by
  intro w hw
  have hpool := h.develops w.pool
  unfold fromPool
  dsimp only
  cases hrun : action w.pool <;> rw [hrun] at hpool <;>
    exact hw.trans (inside_returned hpool (Std.Refl.refl w.labels))

instance : Invariant (Inside w₀) where
  beside h hw := hw.trans (Aside.of_unmoved h.books h.size (.of_retouched h.labels)).inside
  fromPool := inside_fromPool
  interpret := inside_interpret
  resolve := inside_resolve

theorem inside_computeSizes : Tame (Inside w₀) computeSizes := by
  refine inside_modify fun w => .of_unmoved rfl (Nat.le_refl _) ?_
  dsimp only
  split
  · exact Std.Refl.refl _
  · exact .updateSized _ _ _

/-! ### Frames that the caller supplies -/

/-- A type that the caller names, where it is accepted. -/
theorem itemType_ok {item : FrameItem Label} {t : VerificationType} (h : itemType item w = .ok t w')
    (hord : w.pool.Orderly) : t.Refers w'.pool := by
  cases item with
  | object name =>
    obtain ⟨i, w₁, hcls, h⟩ := run_bind_ok.1 h
    obtain ⟨pool, hrun, rfl⟩ := fromPool_ok hcls
    obtain ⟨rfl, rfl⟩ := run_pure_ok.1 h
    have hends := interns_cls name w.pool hord trivial
    rw [hrun] at hends
    exact ⟨name, hends.2.2⟩
  | uninitialized label =>
    obtain ⟨_, w₁, -, h⟩ := run_bind_ok.1 h
    rw [run_get_bind] at h
    cases hpos : w₁.labels.position? label with
    | none =>
      rw [hpos] at h
      cases h
    | some pos =>
      rw [hpos] at h
      obtain ⟨rfl, -⟩ := run_pure_ok.1 h
      exact Nat.mod_lt _ (by decide)
  | _ =>
    obtain ⟨rfl, -⟩ := run_pure_ok.1 h
    trivial

/-- Types that the caller names, where they are accepted. -/
theorem itemTypes_ok {items : List (FrameItem Label)} {ts : List VerificationType}
    (h : items.mapM itemType w = .ok ts w') (hord : w.pool.Orderly) : ∀ t ∈ ts, t.Refers w'.pool := by
  induction items generalizing ts w with
  | nil =>
    obtain ⟨rfl, rfl⟩ := run_pure_ok.1 h
    simp
  | cons item items ih =>
    rw [List.mapM_cons] at h
    obtain ⟨t, w₁, hfst, h⟩ := run_bind_ok.1 h
    obtain ⟨rest, w₂, hrest, h⟩ := run_bind_ok.1 h
    obtain ⟨rfl, rfl⟩ := run_pure_ok.1 h
    have hstep : Inside w w₁ := (Tame.keeps (tame_itemType item)).ok (.refl w) hfst
    have hsteps : Inside w₁ w₂ := (Tame.mapM tame_itemType items).keeps.ok (.refl w₁) hrest
    have hord₁ := (hstep.pool hord).1
    have hlater := (hsteps.pool hord₁).2
    intro t' ht'
    rcases List.mem_cons.1 ht' with rfl | ht'
    · exact t'.stays_refers 5 _ _ hlater (itemType_ok hfst hord)
    · exact ih hrest hord₁ t' ht'

variable {shape : FrameShape VerificationType} {offset : Nat}

/-- The shape of a frame that the caller supplies, where it is accepted. -/
theorem callerShape_ok {frame : ExplicitFrame Label}
    (h : callerShape frame w = .ok shape w') (hord : w.pool.Orderly) : ∀ t ∈ shape.items, t.Refers w'.pool := by
  cases frame with
  | same =>
    obtain ⟨rfl, rfl⟩ := run_pure_ok.1 h
    simp [FrameShape.items]
  | sameOne item =>
    obtain ⟨t, w₁, hitem, h⟩ := run_bind_ok.1 h
    obtain ⟨rfl, rfl⟩ := run_pure_ok.1 h
    simpa [FrameShape.items] using itemType_ok hitem hord
  | append items =>
    change (if _ then _ else _ : MethodM _) w = _ at h
    split at h
    · cases h
    · obtain ⟨ts, w₁, hitems, h⟩ := run_bind_ok.1 h
      obtain ⟨_, w₂, hupd, h⟩ := run_bind_ok.1 h
      obtain ⟨rfl, rfl⟩ := run_pure_ok.1 h
      obtain rfl := run_modify_ok.1 hupd
      exact fun t ht => itemTypes_ok hitems hord t ht
  | chop count =>
    change (if _ then _ else _ : MethodM _) w = _ at h
    split at h
    · cases h
    · obtain ⟨_, w₁, -, h⟩ := run_bind_ok.1 h
      obtain ⟨rfl, rfl⟩ := run_pure_ok.1 h
      simp [FrameShape.items]
  | full locals stack =>
    obtain ⟨ts, w₁, hloc, h⟩ := run_bind_ok.1 h
    obtain ⟨us, w₂, hstk, h⟩ := run_bind_ok.1 h
    obtain ⟨_, w₃, hupd, h⟩ := run_bind_ok.1 h
    obtain ⟨rfl, rfl⟩ := run_pure_ok.1 h
    obtain rfl := run_modify_ok.1 hupd
    have hstep : Inside w w₁ := (Tame.mapM tame_itemType locals).keeps.ok (.refl w) hloc
    have hsteps : Inside w₁ w₂ := (Tame.mapM tame_itemType stack).keeps.ok (.refl w₁) hstk
    have hord₁ := (hstep.pool hord).1
    have hlater := (hsteps.pool hord₁).2
    intro t ht
    rcases List.mem_append.1 ht with ht | ht
    · exact t.stays_refers 5 _ _ hlater (itemTypes_ok hloc hord t ht)
    · exact itemTypes_ok hstk hord₁ t ht

/-- The frames of a method are replaced by others that refer to its pool. -/
theorem Inside.stackMap (hw : Inside w₀ w)
    (h : w₀.pool.Orderly → w.FramesRefer → map.Refers w.pool) : Inside w₀ { w with stackMap := some map } :=
  { hw with
    frames := by
      intro hord hfrs map' hmap'
      cases hmap'
      exact h hord (hw.frames hord hfrs) }

/-- A shape is added to the frames of a method. -/
theorem Inside.pushShape (hw : Inside w₀ w) (hsh : w₀.pool.Orderly → ∀ t ∈ shape.items, t.Refers w.pool) :
    Inside w₀ (stateAfter ((do
      let map := (← get).stackMap.getD (.start [])
      modify fun w => { w with stackMap := none }
      match map.pushShape offset shape with
      | .ok map => modify fun w => { w with stackMap := some map }
      | .error e =>
        modify fun w => { w with stackMap := some map }
        throw e : MethodM Unit) w)) := by
  have hbef : w.FramesRefer → (w.stackMap.getD (.start [])).Refers w.pool := by
    intro hfrs
    cases hmap : w.stackMap with
    | none => exact StackMap.Builder.refers_start _ _
    | some map => exact hfrs map hmap
  rw [run_get_bind]
  generalize w.stackMap.getD (.start []) = map at hbef
  show Inside w₀ (stateAfter ((match map.pushShape offset shape with
    | .ok map => modify fun w => { w with stackMap := some map }
    | .error e => do
      modify fun w => { w with stackMap := some map }
      throw e : MethodM Unit) { w with stackMap := none }))
  cases hpush : map.pushShape offset shape with
  | ok map' => exact hw.stackMap fun hord hfrs => (hbef hfrs).pushShape (hsh hord) hpush
  | error e => exact hw.stackMap fun _ hfrs => hbef hfrs

theorem inside_writeFrame (frame : ExplicitFrame Label) : Keeps (Inside w₀) (writeFrame frame) := by
  intro w hw
  have hstep : Inside w (stateAfter (writeFrame frame w)) := by
    unfold writeFrame
    rw [run_get_bind]
    split
    · exact .refl w
    · rw [run_bind_of_ok (run_position w)]
      have hcaller : Inside w (stateAfter (callerShape frame w)) := Tame.keeps (tame_callerShape frame) w (.refl w)
      cases hsh : callerShape frame w with
      | error e w₁ =>
        rw [hsh] at hcaller
        rw [run_bind_of_error hsh]
        exact hcaller
      | ok shape w₁ =>
        rw [hsh] at hcaller
        rw [run_bind_of_ok hsh, run_get_bind]
        -- the count of locals changes neither the pool nor the frames
        obtain ⟨w₂, huse⟩ : ∃ w₂, useLocals ((w₁.callerLocals.map FrameItem.width).foldr (· + ·) 0) w₁ = .ok () w₂ :=
          ⟨_, rfl⟩
        have hused : Inside w₁ w₂ := (Tame.keeps (tame_useLocals _)).ok (.refl w₁) huse
        rw [run_bind_of_ok huse]
        refine (hcaller.trans hused).pushShape fun hord t ht => ?_
        have hord₁ := (hcaller.pool hord).1
        exact t.stays_refers 5 _ _ (hused.pool hord₁).2 (callerShape_ok hsh hord t ht)
  exact hw.trans hstep

/-! ### Inferring frames -/

theorem inside_addCatchEdges (h : Handler Label) : Tame (Inside w₀) (addCatchEdges h) := by
  refine .bind (tame_fromPool (cares_addType _)) fun row => inside_modify fun w => .of_unmoved rfl (Nat.le_refl _) ?_
  exact .trans (.markTarget _ _) (.foldl (fun _ _ => .addTypeEdge _ _ _ _) _ _)

theorem inside_startEntry (entry : Label) : Tame (Inside w₀) (startEntry entry) := by
  refine .bind .get fun w => .ite (.throw_bind rfl _) ?_
  exact .bind (tame_fromPool (FrameInput.cares_ofMethod _ _ _ _ _)) fun input =>
    .bind (inside_updateLabels fun _ => .updateTyped _ _ fun _ h => h) fun _ =>
    .bind (tame_fromPool input.cares_verificationTypes) fun _ => .pure _

theorem inside_visitBlock (block : Label) : Tame (Inside w₀) (visitBlock block) where
  keeps w hw := by
    have hlabs : w.labels.Unmoved (markVisited block w.labels) := by
      unfold markVisited
      exact .updateTyped _ _ fun _ h => h
    have hmark : Inside w { w with labels := markVisited block w.labels } :=
      Aside.inside (.of_unmoved rfl (Nat.le_refl _) hlabs)
    unfold visitBlock
    split <;> exact hw.trans hmark
  raises w e w' hrun := by
    unfold visitBlock at hrun
    split at hrun <;> cases hrun
    rfl

theorem inside_mergeSelf (frame : Frame) (edge : Frame.Edge) (pos : Nat) :
    Tame (Inside w₀) (mergeSelf frame edge pos) where
  keeps w hw := by
    have hpool := (Frame.minds_merge frame ⟨w.context.hierarchy, w.context.thisClass⟩ edge pos).keeps _
      (lasting_develops w.pool) ⟨frame.input, w.pool⟩ (.refl _)
    unfold mergeSelf
    dsimp only
    split <;> rename_i hrun <;> rw [hrun] at hpool <;>
      exact hw.trans (inside_returned hpool (Std.Refl.refl w.labels))
  raises w e w' hrun := by
    unfold mergeSelf at hrun
    dsimp only at hrun
    split at hrun <;> cases hrun
    exact (Frame.minds_merge frame _ edge pos).raises _ _ _ ‹_›

theorem inside_mergeOther (frame : Frame) (edge : Frame.Edge) (successor : Label) (pos : Nat) :
    Tame (Inside w₀) (mergeOther frame edge successor pos) where
  keeps w hw := by
    unfold mergeOther
    split
    · exact hw
    · rename_i target _
      have hpool := (Frame.minds_merge frame ⟨w.context.hierarchy, w.context.thisClass⟩ edge pos).keeps _
        (lasting_develops w.pool) ⟨target.input, w.pool⟩ (.refl _)
      dsimp only
      split <;> rename_i hrun <;> rw [hrun] at hpool <;> exact hw.trans (inside_returned hpool (.setFrame ..))
  raises w e w' hrun := by
    unfold mergeOther at hrun
    split at hrun
    · cases hrun
      rfl
    · dsimp only at hrun
      split at hrun <;> cases hrun
      exact (Frame.minds_merge frame _ edge pos).raises _ _ _ ‹_›

theorem inside_enqueue (block : Label) (queue : List Label) : Tame (Inside w₀) (enqueue block queue) :=
  .bind .get fun _ => .ite (.pure _) (.bind (inside_updateLabels fun _ => .updateTyped _ _ fun _ h => h) fun _ => .pure _)

theorem inside_flow (block : Label) (edges : List (Frame.Edge × Label)) (frame : Frame) (queue : List Label) :
    Tame (Inside w₀) (flow block edges frame queue) := by
  induction edges generalizing frame queue with
  | nil => exact .pure _
  | cons pair edges ih =>
    refine .bind .get fun w => .bind .get fun w' => ?_
    have hqueued : ∀ (frame : Frame) (changed : Bool) (successor : Label), Tame (Inside w₀) (do
        let queue ← if changed then enqueue successor queue else pure queue
        flow block edges frame queue) := fun frame changed successor =>
      .ite (.bind (inside_enqueue _ _) fun _ => ih _ _) (ih _ _)
    refine .ite (.bind (inside_mergeSelf _ _ _) fun result => hqueued _ _ _) ?_
    exact .bind (inside_mergeOther _ _ _ _) fun changed => hqueued _ _ _

theorem inside_iterate (fuel : Nat) (queue : List Label) (largest : Nat) : Tame (Inside w₀) (iterate fuel queue largest) := by
  induction fuel generalizing queue largest with
  | zero =>
    cases queue with
    | nil => exact .pure _
    | cons block queue => exact .throw rfl
  | succ fuel ih =>
    cases queue with
    | nil => exact .pure _
    | cons block queue =>
      refine .bind (inside_visitBlock block) fun frame => .bind .get fun w => ?_
      refine .bind (inside_flow _ _ _ _) fun result => ?_
      exact .bind (inside_updateLabels fun _ => .updateTyped _ _ fun _ h => h) fun _ => ih _ _

/-- The frames that are being collected refer to the pool. -/
structure Collects (w₀ : MethodWriter) (map : StackMap.Builder) (w : MethodWriter) : Prop where
  step : Inside w₀ w
  refers : w₀.pool.Orderly → map.Refers w.pool

theorem Collects.later (h : Collects w₀ map w) (hstep : Inside w w') :
    Collects w₀ map w' where
  step := h.step.trans hstep
  refers hord := map.stays_refers 5 _ _ (hstep.pool (h.step.pool hord).1).2 (h.refers hord)

/-- A frame is added to those that are collected. -/
theorem Collects.push (h : Collects w₀ map w) {locals stack : List VerificationType}
    (htypes : w₀.pool.Orderly → (∀ t ∈ locals, t.Refers w.pool) ∧ ∀ t ∈ stack, t.Refers w.pool) :
    Outcome (fun map w => Collects w₀ map w) (Inside w₀) (checked (map.pushExpanded offset locals stack) w) := by
  cases hpush : map.pushExpanded offset locals stack with
  | error e => exact h.step
  | ok map' =>
    refine ⟨h.step, fun hord => ?_⟩
    exact (h.refers hord).pushExpanded (htypes hord).1 (htypes hord).2 hpush

/-- Asking the pool is a step, with a result where it succeeds. -/
theorem outcome_fromPool {α : Type} {action : PoolM α} {n : Nat} {Q : α → Pool → Prop} (hcares : Cares action)
    (hinterns : Interns n Any action Q) (w : MethodWriter) :
    Outcome (fun a w' => Inside w w' ∧ (w.pool.Orderly → Q a w'.pool)) (Inside w) (fromPool action w) := by
  have hstep := inside_fromPool hcares w (.refl w)
  cases hrun : fromPool action w with
  | error e w' =>
    rw [hrun] at hstep
    exact hstep
  | ok a w' =>
    rw [hrun] at hstep
    refine ⟨hstep, fun hord => ?_⟩
    obtain ⟨pool, hrun', rfl⟩ := fromPool_ok hrun
    have hends := hinterns w.pool hord trivial
    rw [hrun'] at hends
    exact hends.2.2

theorem collects_storeFrame (block : Label) (h : Collects w₀ map w) :
    Outcome (fun map w => Collects w₀ map w) (Inside w₀) (storeFrame block map w) := by
  unfold storeFrame
  rw [run_get_bind]
  split
  · exact h
  · cases (w.labels.info block).typed.frame.bind (·.input) with
    | none => exact h.step
    | some input =>
      refine Outcome.bind ((outcome_fromPool input.cares_verificationTypes input.interns_verificationTypes w).mono
        (fun _ _ h' => h') fun w' hw' => h.step.trans hw') fun types w' hw' => ?_
      exact (h.later hw'.1).push fun hord => hw'.2 (h.step.pool hord).1

theorem collects_voidBlock (block : Label) (next : Option Label) (h : Collects w₀ map w) :
    Outcome (fun result w => Collects w₀ result.1 w) (Inside w₀) (voidBlock block next map w) := by
  unfold voidBlock
  rw [run_get_bind]
  dsimp only
  split
  · exact h
  · -- the filler is as long as the block
    have hpatched : ∀ code : Bytes, code.size = w.code.size → Inside w { w with code := code } := fun code hsize =>
      Aside.inside (.of_unmoved rfl (Nat.le_of_eq hsize.symm) (Std.Refl.refl _))
    refine Outcome.bind (Q := fun _ w' => Collects w₀ map w') (h.later (hpatched _ (Bytes.size_patch _ _ _))) fun _ w₁ h₁ => ?_
    have hinterns : Interns 2 Any (Pool.cls "java/lang/Throwable") fun i pool => VerificationType.Refers pool (.object i) :=
      (interns_cls _).mono (Nat.le_refl _) (fun _ h => h) fun i pool hi => ⟨_, hi⟩
    have hcls : Outcome (fun i w' => Inside w₁ w' ∧ (w₁.pool.Orderly → VerificationType.Refers w'.pool (.object i))) (Inside w₁)
        (fromPool (Pool.cls "java/lang/Throwable") w₁) := outcome_fromPool (cares_cls _) hinterns w₁
    refine Outcome.bind (hcls.mono (fun _ _ h' => h') fun w' hw' => h₁.step.trans hw') fun i w₂ h₂ => ?_
    refine Outcome.bind ((h₁.later h₂.1).push fun hord => ?_) fun map' w₃ h₃ => ?_
    · exact ⟨by simp, by simpa using h₂.2 (h₁.step.pool hord).1⟩
    · have hcut : ∀ handlers, Inside w₃ { w₃ with handlers := handlers } := fun _ =>
        Aside.inside (.of_unmoved rfl (Nat.le_refl _) (Std.Refl.refl _))
      refine Outcome.bind (Q := fun _ w' => Collects w₀ map' w') (h₃.later (hcut _)) fun _ w₄ h₄ => ?_
      exact h₄

theorem collects_storeFrames (blocks : List Label) (largest : Nat) (h : Collects w₀ map w) :
    Outcome (fun result w => Collects w₀ result.1 w) (Inside w₀) (storeFrames blocks map largest w) := by
  induction blocks generalizing map largest w with
  | nil => exact h
  | cons block rest ih =>
    refine Outcome.bind (collects_storeFrame block h) fun map₁ w₁ h₁ => ?_
    refine Outcome.bind (collects_voidBlock block rest.head? h₁) fun result w₂ h₂ => ?_
    exact ih _ h₂

theorem inside_inferFrames : Tame (Inside w₀) inferFrames := by
  refine .bind .get fun w => ?_
  split
  · exact .pure _
  · rename_i entry _
    refine .bind .get fun w₁ => .bind (.forM inside_addCatchEdges _) fun _ => .bind (inside_startEntry entry) fun locals => ?_
    refine .bind (inside_updateLabels fun _ => .updateTyped _ _ fun _ h => h) fun _ => .bind .get fun w₂ => ?_
    refine .bind (inside_iterate _ _ _) fun largest => .bind .get fun w₃ => ⟨fun w₄ hw₄ => ?_, ?_⟩
    · have hcollects : Collects w₀ (.start locals) w₄ := ⟨hw₄, fun _ => StackMap.Builder.refers_start _ _⟩
      refine Outcome.stateAfter (Outcome.bind (collects_storeFrames w₃.blocks.toList largest hcollects) fun result w₅ h₅ => ?_)
      have hsz : Inside w₅ { w₅ with maxStack := result.2 } :=
        Aside.inside (.of_unmoved rfl (Nat.le_refl _) (Std.Refl.refl _))
      exact (h₅.step.trans hsz).stackMap fun hord _ => h₅.refers hord
    · exact .bind ((raises_storeFrames _ _ _).mono fun _ he => he.inner) fun _ => .modifyGet

/-- Closing the body changes the stage of the method last, and only where all else succeeds. -/
theorem closeCode_eq (stack locals : Nat) (w : MethodWriter) : ∃ m : MethodM Unit, (∀ w₀, Tame (Inside w₀) m) ∧
    closeCode stack locals w = (m >>= fun _ => modify fun w => { w with stage := .sealed }) w := by
  unfold closeCode
  rw [run_get_bind]
  cases w.labels.findIdx? (!·.waiting.isEmpty) with
  | some label => exact ⟨throw (.unresolvedLabel label), fun _ => .throw rfl, rfl⟩
  | none =>
    have hpl : ∀ w₀, Tame (Inside w₀) (w.handlers.toList.forM fun h => requirePlaced [h.start, h.stop, h.handler]) :=
      fun _ => .forM (fun h => tame_requirePlaced _) _
    have hgiven : ∀ w₀, Tame (Inside w₀) (modify fun w => { w with maxStack := stack, maxLocals := locals } : MethodM Unit) :=
      fun _ => inside_modify fun _ => .of_unmoved rfl (Nat.le_refl _) (Std.Refl.refl _)
    dsimp only
    cases w.compute with
    | asGiven => exact ⟨_ >>= fun _ => _, fun w₀ => .bind (hpl w₀) fun _ => hgiven w₀, (congrFun (bind_assoc ..) w).symm⟩
    | maxs => exact ⟨_ >>= fun _ => _, fun w₀ => .bind (hpl w₀) fun _ => inside_computeSizes, (congrFun (bind_assoc ..) w).symm⟩
    | frames => exact ⟨_ >>= fun _ => _, fun w₀ => .bind (hpl w₀) fun _ => inside_inferFrames, (congrFun (bind_assoc ..) w).symm⟩

theorem closeCode_error {stack locals : Nat} {e : Error} (h : closeCode stack locals w = .error e w') :
    Inside w w' := by
  obtain ⟨m, hm, heq⟩ := closeCode_eq stack locals w
  have hkeeps := (hm w).keeps w (.refl w)
  rw [heq] at h
  cases hrun : m w with
  | ok u v =>
    rw [run_bind_of_ok hrun] at h
    cases h
  | error e' v =>
    rw [run_bind_of_error hrun] at h
    cases h
    rwa [hrun] at hkeeps

/-- The stage is not in the books. -/
theorem Step.atStage (h : Step w₀ w) (stage : Stage) : Step w₀ { w with stage := stage } :=
  ⟨h.pool, h.frames, h.methods, h.declaration, h.context, h.compute, h.size, h.places, h.kept, h.targets⟩

instance : Invariant (Step w₀) where
  beside h hw := hw.trans (Aside.of_unmoved h.books h.size (.of_retouched h.labels)).inside.toStep
  fromPool h := keeps_step fun _ => inside_fromPool h
  interpret op arg operand := keeps_step fun _ => inside_interpret op arg operand
  resolve label := keeps_step fun _ => inside_resolve label

theorem steps_closeCode (stack locals : Nat) : Keeps (Step w₀) (closeCode stack locals) := by
  intro w hw
  obtain ⟨m, hm, heq⟩ := closeCode_eq stack locals w
  rw [heq]
  exact Keeps.bind (keeps_step fun w => (hm w).keeps) (fun _ => .modify fun _ hv => hv.atStage _) w hw

/-- **Every event but the last** is a step, whether it is accepted or not. -/
theorem steps_dispatch (finish : MethodM Unit) (event : MethodEvent Label) (hev : event ≠ .finish) :
    Keeps (Step w₀) (dispatch finish event) := by
  cases hends : endsBody event with
  | false => exact keeps_dispatch hends (fun _ hw => hw.atStage _) fun frame => keeps_step fun _ => inside_writeFrame frame
  | true =>
    intro w hw
    rw [dispatch_run]
    split
    · cases event with
      | maxs stack locals => exact steps_closeCode _ _ w hw
      | finish => exact absurd rfl hev
      | _ => cases hends
    · exact hw

/-! ### Stages -/

theorem inside_body {finish : MethodM Unit} {event : MethodEvent Label} (hev : isBody event = true) :
    Tame (Inside w₀) (effect finish event) := tame_body hev inside_writeFrame

/-- A label that has just been made can be placed. -/
theorem placeNew_ok (w : MethodWriter) : ∃ w', (do placeLabel (← newLabel) : MethodM Unit) w = .ok () w' := by
  have hchk : checkLabel w.labels.size { w with labels := w.labels.push {} } =
      .ok () { w with labels := w.labels.push {} } := by
    rw [checkLabel, run_get_bind, if_neg (by simp)]
    rfl
  have hfree : ¬ LabelTable.isPlaced (w.labels.push {}) w.labels.size = true := by
    rw [LabelTable.isPlaced_push, LabelTable.isPlaced, LabelTable.position?, LabelTable.info_of_size_le _ _ (Nat.le_refl _)]
    simp
  obtain ⟨w₁, hres⟩ : ∃ w₁, resolve w.labels.size { w with labels := w.labels.push {} } = .ok () w₁ := by
    rw [resolve, run_get_bind, if_neg hfree]
    exact ⟨_, rfl⟩
  show ∃ w', placeLabel w.labels.size { w with labels := w.labels.push {} } = .ok () w'
  rw [placeLabel, run_bind_of_ok hchk, run_bind_of_ok hres, run_get_bind]
  -- what is left only changes records
  cases w₁.compute with
  | asGiven => exact ⟨_, rfl⟩
  | maxs => exact ⟨_, rfl⟩
  | frames =>
    show ∃ w', placeTyped w.labels.size w₁ = .ok () w'
    rw [placeTyped, run_get_bind]
    cases w₁.placement <;> exact ⟨_, rfl⟩

/-- Opening the body never fails. -/
theorem openCode_run (w : MethodWriter) : ∃ w', openCode w = .ok () w' ∧ w'.stage = .open := by
  have hkeeps : Inside { w with stage := .open } (stateAfter (openCode w)) :=
    (Tame.bind (P := Inside { w with stage := .open }) .get fun _ => .ite tame_placeNew (.pure _)).keeps
      { w with stage := .open } (.refl _)
  obtain ⟨w', hrun⟩ : ∃ w', openCode w = .ok () w' := by
    show ∃ w', (if w.compute ≠ .asGiven then (do placeLabel (← newLabel)) else pure () : MethodM Unit)
      { w with stage := .open } = .ok () w'
    split
    · exact placeNew_ok _
    · exact ⟨_, rfl⟩
  rw [hrun] at hkeeps
  exact ⟨w', hrun, hkeeps.stage⟩

/-- Steps that lead from one stage to another where they succeed, and do not fail because of the stage. -/
def Leads {α : Type} (s t : Stage) (m : MethodM α) : Prop := ∀ w, w.stage = s →
  (∀ a w', m w = .ok a w' → w'.stage = t) ∧ ∀ e w', m w = .error e w' → e.IsInner

namespace Leads

variable {α β : Type} {s t u : Stage}

theorem pure (a : α) : Leads s s (Pure.pure a : MethodM α) := by
  intro w hw
  refine ⟨fun a' w' h => ?_, fun e w' h => ?_⟩
  · cases h
    exact hw
  · cases h

theorem throw {e : Error} (he : e.IsInner) (f : α → MethodM β) : Leads s t ((MonadExcept.throw e : MethodM α) >>= f) := by
  intro w hw
  refine ⟨fun a w' h => ?_, fun e' w' h => ?_⟩
  · cases h
  · cases h
    exact he

theorem bind {x : MethodM α} {f : α → MethodM β} (hx : Leads s t x) (hf : ∀ a, Leads t u (f a)) : Leads s u (x >>= f) := by
  intro w hw
  cases hrun : x w with
  | error e v =>
    rw [run_bind_of_error hrun]
    refine ⟨fun a w' h => ?_, fun e' w' h => ?_⟩
    · cases h
    · cases h
      exact (hx w hw).2 e v hrun
  | ok a v =>
    rw [run_bind_of_ok hrun]
    exact hf a v ((hx w hw).1 a v hrun)

theorem forM {f : α → MethodM PUnit} {as : List α} (h : ∀ a ∈ as, Leads s s (f a)) : Leads s s (as.forM f) := by
  induction as with
  | nil => exact pure _
  | cons a as ih =>
    exact bind (h a List.mem_cons_self) fun _ => ih fun a' ha' => h a' (List.mem_cons_of_mem _ ha')

/-- What stays inside a stage leads to it. -/
theorem of_inside {m : MethodM α} (h : ∀ w, Tame (Inside w) m) : Leads s s m := by
  intro w hw
  refine ⟨fun a w' hrun => ?_, fun e w' hrun => (h w).raises w e w' hrun⟩
  exact ((h w).keeps.ok (.refl w) hrun).stage.trans hw

theorem openCode : Leads s .open openCode := by
  intro w _
  obtain ⟨w', hrun, hstg⟩ := openCode_run w
  rw [hrun]
  refine ⟨fun a v h => ?_, fun e v h => ?_⟩
  · cases h
    exact hstg
  · cases h

theorem closeCode (stack locals : Nat) : Leads s .sealed (closeCode stack locals) := by
  intro w hw
  obtain ⟨m, hm, heq⟩ := closeCode_eq stack locals w
  have hseal : Leads s .sealed (modify fun w => { w with stage := .sealed } : MethodM Unit) := by
    intro w _
    refine ⟨fun a w' h => ?_, fun e w' h => ?_⟩
    · cases h
      rfl
    · cases h
  rw [heq]
  exact bind (of_inside hm) (fun _ => hseal) w hw

theorem dispatch {finish : MethodM Unit} {event : MethodEvent Label} (hallowed : event.isAllowed s = true)
    (h : Leads s t (effect finish event)) : Leads s t (dispatch finish event) := by
  intro w hw
  rw [dispatch_run, if_pos (hw ▸ hallowed)]
  exact h w hw

end Leads

/-- Every act is a step. -/
theorem step_of_perform {s s' : Session} {act : Act} (h : s.perform act = some s') : Step s.writer s'.writer := by
  cases act with
  | newLabel =>
    rw [Session.perform_newLabel h]
    exact tame_newLabel.keeps.ok (.refl _) rfl
  | event e =>
    obtain ⟨hbody, -, -, hsend⟩ := Session.perform_event h
    have hfin : e.map s.label ≠ .finish := by
      intro hfin
      rw [← MethodEvent.endsBody_map e s.label, hfin] at hbody
      cases hbody
    exact (steps_dispatch finish _ hfin).ok (.refl _) hsend

/-- A script is a sequence of steps. -/
theorem step_of_performs {initial : MethodWriter} {script : Script} {s : Session} (h : initial.Performs script s) :
    Step initial s.writer := by
  induction script using List.reverseRecOn generalizing s with
  | nil =>
    cases h
    exact .refl _
  | append_singleton script act ih =>
    obtain ⟨before, hbef, hperf⟩ := h.concat
    exact (ih hbef).trans (step_of_perform hperf)

end MethodWriter

end JvmAssembler
