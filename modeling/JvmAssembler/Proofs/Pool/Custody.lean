import JvmAssembler.Proofs.Frame.Interpreting
import JvmAssembler.Proofs.Hierarchy
import JvmAssembler.Proofs.Pool.History
import JvmAssembler.Method

/-!
# JvmAssembler.Proofs.Pool.Custody

All use of a pool is by its operations.

What every operation keeps, whether it succeeds or fails (`Lasting`), is kept by whatever asks the pool: by encoding an
attribute, by interpreting an instruction, by merging one block into another. Types are only merged by the last of these,
and by one hierarchy.
-/

namespace JvmAssembler

/-! ### Errors -/

/-- An error that is about the order of events. -/
def Error.isProtocol : Error → Bool
  | .invalidState .. => true
  | _ => false

/-- An event was accepted and failed. -/
abbrev Error.IsInner (e : Error) : Prop := e.isProtocol = false

theorem Error.IsPlain.inner {e : Error} (h : e.IsPlain) : e.IsInner := by
  cases e <;> first | rfl | cases h

namespace Hierarchy

variable {h : Hierarchy} {e : Error}

theorem isPlain_of_get {name : String} (hget : h.get name = .error e) : e.IsPlain := by
  unfold get at hget
  split at hget
  · cases hget
  · cases hget
    rfl

theorem isPlain_of_isAssignable {sub sup : String} (hassign : h.isAssignable sub sup = .error e) :
    e.IsPlain := by
  rcases isAssignable_cases h sub sup with ⟨hrun, -⟩ | ⟨hrun, -⟩ | ⟨name, hrun, -⟩
  all_goals
    rw [hrun] at hassign
    cases hassign
  rfl

theorem isPlain_of_climb {other : String} {fuel : Nat} {info : ClassInfo}
    (hclimb : climb h other fuel info = .error e) : e.IsPlain := by
  induction fuel generalizing info with
  | zero => cases hclimb
  | succ fuel ih =>
    unfold climb at hclimb
    split at hclimb
    · cases hclimb
    · split at hclimb
      · cases hclimb
        exact isPlain_of_isAssignable ‹_›
      · cases hclimb
      · split at hclimb
        · cases hclimb
          exact isPlain_of_get ‹_›
        · exact ih hclimb

theorem isPlain_of_commonSuperClass {a b : String} (hcommon : h.commonSuperClass a b = .error e) :
    e.IsPlain := by
  unfold commonSuperClass at hcommon
  rcases Success.bind_error.1 hcommon with hba | ⟨_, -, hcommon⟩
  · exact isPlain_of_isAssignable hba
  split at hcommon
  · cases hcommon
  rcases Success.bind_error.1 hcommon with hab | ⟨_, -, hcommon⟩
  · exact isPlain_of_isAssignable hab
  split at hcommon
  · cases hcommon
  rcases Success.bind_error.1 hcommon with ha | ⟨_, -, hcommon⟩
  · exact isPlain_of_get ha
  rcases Success.bind_error.1 hcommon with hb | ⟨_, -, hcommon⟩
  · exact isPlain_of_get hb
  split at hcommon
  · cases hcommon
  · exact isPlain_of_climb hcommon

end Hierarchy

/-! ### The pool -/

namespace Pool

/-- An action that appends to the tables of the pool, and remembers no merge. -/
abbrev Appends {α : Type} (m : PoolM α) : Prop := Minds (fun _ => True) Pool.merges Error.IsPlain m

theorem appends_append (entry : Entry) (info : CpInfo) : Appends (append entry info) where
  keeps G _ pool hpool := by
    unfold append
    dsimp only
    split <;> exact hpool
  raises pool e pool' h := by
    unfold append at h
    dsimp only at h
    split at h <;> cases h
    rfl

theorem Builds.appends {α : Type} {m : PoolM α} (h : Builds m) : Appends m := by
  induction h with
  | pure a => exact .pure a
  | throw he => exact .throw he
  | bind _ _ ihx ihf => exact .bind ihx ihf
  | intern entry _ ih =>
    refine .bind .get fun pool => ?_
    split
    · exact .pure _
    · exact .bind ih fun _ => appends_append _ _

theorem Interning.appends {m : PoolM Nat} {entry : Entry} (h : Interning m entry) : Appends m := h.builds.appends

theorem appends_bootstrapMethod (handle : Handle) (args : List Loadable) : Appends (bootstrapMethod handle args) := by
  have happend : ∀ entry, Appends (appendBootstrap entry) := fun entry =>
    { keeps G _ pool hpool := by
        unfold appendBootstrap
        dsimp only
        split <;> exact hpool
      raises pool e pool' h := by
        unfold appendBootstrap at h
        dsimp only at h
        split at h <;> cases h
        rfl }
  refine .bind (interning_methodHandle _).appends fun _ =>
    .bind (.mapM (fun c => (interning_loadable c).appends) _) fun _ => .bind .get fun pool => ?_
  split
  · exact .pure _
  · exact happend _

theorem merges_addRow (pool : Pool) (row : TypeRow) : (pool.addRow row).2.merges = pool.merges := by
  unfold addRow
  split <;> rfl

theorem raises_mergedType (h : Hierarchy) (i j : Nat) : Raises Error.IsPlain (mergedType h i j) := by
  refine .bind .get fun pool => ?_
  split
  · exact .pure _
  · split
    · rename_i hcommon
      refine .throw ?_
      unfold commonName at hcommon
      split at hcommon
      · exact Hierarchy.isPlain_of_commonSuperClass hcommon
      · cases hcommon
        rfl
    · exact .bind .modifyGet fun _ => .bind .modifyGet fun _ => .pure _

def Operation.MergesBy (H : Hierarchy → Prop) (op : Operation) : Prop := ∀ h i j, op = .mergedType h i j → H h

theorem Operation.appends_run (op : Operation) : (∃ h i j, op = .mergedType h i j) ∨ Appends op.run := by
  cases op with
  | utf8 text => exact .inr (interning_utf8 text).appends
  | cls name => exact .inr (interning_cls name).appends
  | integer value => exact .inr (interning_loadable (.int value)).appends
  | float bits => exact .inr (interning_loadable (.float bits)).appends
  | long value => exact .inr (interning_loadable (.long value)).appends
  | double bits => exact .inr (interning_loadable (.double bits)).appends
  | string text => exact .inr (interning_loadable (.string text)).appends
  | methodType desc => exact .inr (interning_loadable (.methodType desc)).appends
  | nameAndType name desc => exact .inr (interning_nameAndType name desc).appends
  | fieldRef owner name desc => exact .inr (interning_fieldRef owner name desc).appends
  | methodRef owner name desc isInterface => exact .inr (interning_methodRef owner name desc isInterface).appends
  | methodHandle handle => exact .inr (interning_methodHandle handle).appends
  | loadable constant => exact .inr (interning_loadable constant).appends
  | bootstrapMethod handle args => exact .inr (appends_bootstrapMethod handle args)
  | invokeDynamic name desc handle args =>
    exact .inr (.bind (appends_bootstrapMethod _ _) fun _ => (interning_callSite _ _ _).appends)
  | addType _ | addUninitialized _ _ => exact .inr (.modifyGet fun pool => merges_addRow pool _)
  | mergedType h i j => exact .inl ⟨h, i, j, rfl⟩

/-- How operations fail. -/
theorem Operation.raises_run (op : Operation) : Raises Error.IsPlain op.run := by
  rcases op.appends_run with ⟨h, i, j, rfl⟩ | happends
  · exact raises_mergedType h i j
  · exact happends.raises

/-- A property of pools that no operation ends, whether it succeeds or fails, if it merges types by some hierarchies
only. -/
def Lasting (H : Hierarchy → Prop) (G : Pool → Prop) : Prop := ∀ op : Operation, op.MergesBy H → Keeps G op.run

theorem Lasting.mono {H H' : Hierarchy → Prop} {G : Pool → Prop} (h : Lasting H' G) (hH : ∀ h, H h → H' h) : Lasting H G :=
  fun op hop => h op fun hierarchy i j heq => hH hierarchy (hop hierarchy i j heq)

/-- An action that uses the pool by its operations only, and merges types by some hierarchies only. -/
abbrev Merges {α : Type} (H : Hierarchy → Prop) (m : PoolM α) : Prop := Minds (Lasting H) id Error.IsPlain m

/-- An action that uses the pool by its operations only, and merges no types. -/
abbrev Cares {α : Type} (m : PoolM α) : Prop := Merges (fun _ => False) m

theorem Merges.run {H : Hierarchy → Prop} (op : Operation) (hop : op.MergesBy H := by simp [Operation.MergesBy]) :
    Merges H op.run := ⟨fun _ hG => hG op hop, op.raises_run⟩

theorem Cares.merges {α : Type} {m : PoolM α} (h : Cares m) (H : Hierarchy → Prop) : Merges H m :=
  h.mono (fun _ hG => hG.mono nofun) fun _ he => he

theorem Lasting.typing {H : Hierarchy → Prop} {G : Pool → Prop} (h : Lasting H G) : Typing G := by
  intro pool row
  cases row with
  | normal name => exact h (.addType name) (by simp [Operation.MergesBy]) pool
  | uninitialized name offset => exact h (.addUninitialized name offset) (by simp [Operation.MergesBy]) pool

theorem cares_utf8 (text : String) : Cares (utf8 text) := .run (.utf8 text)

theorem cares_cls (name : String) : Cares (cls name) := .run (.cls name)

theorem cares_addType (name : String) : Cares (addType name) := .run (.addType name)

theorem cares_namedAttribute (name : String) (body : List UInt8) : Cares (namedAttribute name body) :=
  .bind (cares_utf8 name) fun _ => .pure _

end Pool

/-! ### Types -/

namespace FrameType

open Pool

theorem Types.cares {α : Type} {m : PoolM α} (h : Types m) : Cares m := h.mono (fun _ => Lasting.typing) fun _ => id

theorem cares_root : Cares root := .bind (cares_addType _) fun _ => .pure _

theorem merges_joinKnown (h : Hierarchy) (t current : FrameType) : Merges (· = h) (joinKnown h t current) := by
  have hroot : Merges (· = h) root := cares_root.merges _
  refine .ite (.pure _) (.ite (.ite (.pure _) (.ite ?_ (.ite hroot (.pure _)))) (.ite (.pure _) (.pure _)))
  split
  · exact .bind (Merges.run (.mergedType h _ _)) fun _ => .pure _
  · exact hroot

theorem merges_join (h : Hierarchy) (arriving current : InputSlot) : Merges (· = h) (join h arriving current) := by
  unfold join
  split
  · exact .pure _
  · exact .pure _
  · exact .pure _
  · exact .bind (merges_joinKnown h _ _) fun _ => .pure _

theorem cares_verificationType (t : FrameType) : Cares t.verificationType := by
  refine .bind .get fun pool => .ite ?_ ?_
  · split
    · exact .bind (cares_cls _) fun _ => .pure _
    · exact .pure _
  · split
    all_goals try exact .pure _
    · exact .bind (cares_cls _) fun _ => .pure _
    · split
      · exact .pure _
      · exact .pure _

end FrameType

namespace FrameInput

open Pool

theorem cares_verificationTypes (input : FrameInput) : Cares input.verificationTypes :=
  .bind (.mapM FrameType.cares_verificationType _) fun _ =>
    .bind (.mapM FrameType.cares_verificationType _) fun _ => .pure _

theorem cares_ofMethod (thisClass : String) (isStatic isConstructor : Bool) (desc : MethodDescriptor)
    (maxLocals : Nat) : Cares (ofMethod thisClass isStatic isConstructor desc maxLocals) := by
  have hrest : ∀ recv : List FrameType, Cares (do
      let parameters ← desc.parameters.mapM FrameType.ofFieldType
      let slots := recv ++ parameters.flatMap fun t => if t.isWide then [t, .top] else [t]
      let slots := (slots.map some).toArray
      return ({ locals := slots ++ Array.replicate (maxLocals - slots.size) (some .top) } : FrameInput)) :=
    fun _ => .bind (.mapM (fun t => (FrameType.types_ofFieldType t).cares) _) fun _ => .pure _
  exact .ite (hrest _) (.ite (hrest _) (.bind (cares_addType _) fun _ => hrest _))

end FrameInput

/-! ### Interpreting instructions -/

namespace Interpreter

open Pool

/-- Steps of the interpreter use the pool by its operations only. -/
abbrev Cares {α : Type} (m : FrameM α) : Prop := Minds (Lasting fun _ => False) Interpreter.pool Error.IsPlain m

theorem cares_execute (op : Opcode) (arg : Nat) (operand : Operand) : Cares (execute op arg operand) :=
  have htends := tends_execute op arg operand
  ⟨fun G hG => htends.keeps (fun s => G s.pool) ⟨fun _ => id, fun _ => hG.typing⟩, htends.raises⟩

end Interpreter

/-! ### Merging blocks -/

namespace Frame

open Pool

theorem cares_afterConstructors (f : Frame) (context : TypeContext) (input : FrameInput) (t : InputSlot) :
    Cares (f.afterConstructors context input t) := by
  unfold afterConstructors
  cases t with
  | none => exact .pure _
  | some t =>
    have hnamed : ∀ name : String, Cares (do
        if f.initialized.any fun recv => input.resolve recv = t then
          return some (FrameType.object (← Pool.addType name))
        else return some t : PoolM InputSlot) :=
      fun name => .ite (.bind (cares_addType _) fun _ => .pure _) (.pure _)
    refine .ite (.pure _) ?_
    split
    · exact hnamed _
    · exact .bind .get fun _ => hnamed _
    · exact .pure _

/-- Steps of a merge use the pool by its operations only, and merge types by the given hierarchy. -/
abbrev KeepsPool {α : Type} (h : Hierarchy) (m : MergeM α) : Prop := Minds (Lasting (· = h)) Merging.pool Error.IsPlain m

variable {h : Hierarchy}

theorem keepsPool_fromPool {α : Type} {action : PoolM α} (haction : Merges (· = h) action) :
    KeepsPool h (Merging.fromPool action) where
  keeps G hG s hs := by
    have hpool := haction.keeps G hG s.pool hs
    unfold Merging.fromPool
    cases hrun : action s.pool <;> rw [hrun] at hpool <;> exact hpool
  raises s e t hrun := by
    unfold Merging.fromPool at hrun
    split at hrun <;> cases hrun
    exact haction.raises _ _ _ ‹_›

theorem keepsPool_joinLocal (i : Nat) (arriving : InputSlot) : KeepsPool h (Merging.joinLocal h i arriving) :=
  .bind .get fun _ => .bind (keepsPool_fromPool (FrameType.merges_join h _ _)) fun _ => .ite (.modifyGet fun _ => rfl) (.pure _)

theorem keepsPool_joinStack (i : Nat) (arriving : InputSlot) : KeepsPool h (Merging.joinStack h i arriving) :=
  .bind .get fun _ => .bind (keepsPool_fromPool (FrameType.merges_join h _ _)) fun _ => .ite (.modifyGet fun _ => rfl) (.pure _)

theorem keepsPool_forCount {step : Nat → MergeM Unit} (hstep : ∀ i, KeepsPool h (step i)) (n start : Nat) :
    KeepsPool h (forCount step n start) := by
  induction n generalizing start with
  | zero => exact .pure _
  | succ n ih => exact .bind (hstep start) fun _ => ih (start + 1)

section
variable (f : Frame) (context : TypeContext) (input : FrameInput)

theorem keepsPool_mergeLocals : KeepsPool context.hierarchy (f.mergeLocals context input) :=
  keepsPool_forCount (fun _ => .bind (keepsPool_fromPool ((cares_afterConstructors ..).merges _)) fun _ => keepsPool_joinLocal _ _) _ _

theorem keepsPool_mergeCaught (row : Nat) : KeepsPool context.hierarchy (mergeCaught context input row) :=
  .bind (keepsPool_forCount (fun _ => keepsPool_joinLocal _ _) _ _) fun _ => .bind .get fun _ =>
    .ite (.bind (.modifyGet fun _ => rfl) fun _ => keepsPool_joinStack _ _) (keepsPool_joinStack _ _)

theorem keepsPool_stackLoop (n : Nat) :
    KeepsPool context.hierarchy (forCount (fun i => do
      let t ← Merging.fromPool (f.afterConstructors context input (f.finalStack input i))
      Merging.joinStack context.hierarchy i t) n 0) :=
  keepsPool_forCount (fun _ => .bind (keepsPool_fromPool ((cares_afterConstructors ..).merges _)) fun _ => keepsPool_joinStack _ _) _ _

theorem minds_mergeInto (edge : Edge) (fresh : Bool) (pos : Nat) :
    Minds (Lasting (· = context.hierarchy)) Merging.pool Error.IsInner (f.mergeInto context input edge fresh pos) := by
  have hinner : ∀ {α : Type} {m : MergeM α}, KeepsPool context.hierarchy m → Minds (Lasting (· = context.hierarchy)) Merging.pool Error.IsInner m :=
    fun h => h.mono (fun _ hG => hG) fun _ he => he.inner
  refine .bind (.modifyGet fun _ => rfl) fun _ => .bind (hinner (keepsPool_mergeLocals f context input)) fun _ => ?_
  cases edge with
  | caught row => exact hinner (keepsPool_mergeCaught context input row)
  | normal =>
    have hstk := hinner (keepsPool_stackLoop f context input (f.finalHeight input))
    refine .ite (.bind (.modifyGet fun _ => rfl) fun _ => hstk) (.bind .get fun s => ?_)
    exact .ite (.throw_bind (by rfl) _) hstk

end

/-- **Merging** uses the pool by its operations only. -/
theorem minds_merge (f : Frame) (context : TypeContext) (edge : Edge) (pos : Nat) :
    Minds (Lasting (· = context.hierarchy)) MergeTarget.pool Error.IsInner (f.merge context edge pos) where
  keeps G hG t ht := by
    unfold merge
    cases f.input with
    | none => exact ht
    | some input =>
      have hmerged := (minds_mergeInto f context input edge t.input.isNone pos).keeps G hG
        { target := t.input.getD {}, changed := t.input.isNone, pool := t.pool } ht
      dsimp only
      cases hrun : f.mergeInto context input edge t.input.isNone pos
          { target := t.input.getD {}, changed := t.input.isNone, pool := t.pool } <;>
        rw [hrun] at hmerged <;> exact hmerged
  raises t e t' h := by
    unfold merge at h
    split at h
    · cases h
    · dsimp only at h
      split at h <;> cases h
      exact (minds_mergeInto ..).raises _ _ _ ‹_›

end Frame

end JvmAssembler
