import JvmAssembler.Proofs.Instructions
import JvmAssembler.Proofs.Labels
import JvmAssembler.Proofs.Pool.Custody

/-!
# JvmAssembler.Proofs.Invariant

What every event of the body keeps, whether it is accepted or not.

A property of methods is an `Invariant` if a few steps keep it: those that ask the pool, interpret an instruction or place a
label, and those that only change what is `Beside` the point. All other steps are made of these, so that they keep it too.
None of them complains about the order of events.
-/

namespace JvmAssembler

open Pool

/-! ### Records about blocks -/

/-- What writing may make of the records about a label. It stays where it is, and nothing is inferred of its block. -/
structure LabelInfo.Retouched (info info' : LabelInfo) : Prop where
  position : info'.position = info.position
  target : info.typed.isTarget = true → info'.typed.isTarget = true
  queued : info'.typed.isQueued = info.typed.isQueued
  reached : info'.typed.isReachable = info.typed.isReachable
  frame : info'.typed.frame = info.typed.frame ∨ ∀ f, info'.typed.frame = some f → f.input = none
  edges : ∀ e ∈ info'.typed.edges, e ∈ info.typed.edges ∨ e.1 = .normal

theorem LabelInfo.Retouched.refl (info : LabelInfo) : info.Retouched info :=
  ⟨rfl, id, rfl, rfl, .inl rfl, fun _ => .inl⟩

theorem LabelInfo.Retouched.trans {t u v : LabelInfo} (h : t.Retouched u) (h' : u.Retouched v) : t.Retouched v where
  position := h'.position.trans h.position
  target ht := h'.target (h.target ht)
  queued := h'.queued.trans h.queued
  reached := h'.reached.trans h.reached
  frame := by
    rcases h'.frame with hsame | hnew
    · rw [hsame]
      exact h.frame
    · exact .inr hnew
  edges e he := by
    rcases h'.edges e he with hold | hnew
    · exact h.edges e hold
    · exact .inr hnew

namespace LabelTable

/-- The records about labels are changed as writing does. -/
def Retouched (labels labels' : LabelTable) : Prop := ∀ l, (labels.info l).Retouched (labels'.info l)

/-- Labels are added, and the records about them are changed as writing does, but no one waits for them. -/
structure Recorded (labels labels' : LabelTable) : Prop where
  size : labels.size ≤ labels'.size
  waiting : ∀ l, (labels'.info l).waiting = (labels.info l).waiting
  retouched : labels.Retouched labels'

namespace Recorded

theorem refl (labels : LabelTable) : labels.Recorded labels := ⟨Nat.le_refl _, fun _ => rfl, fun _ => .refl _⟩

theorem trans {t u v : LabelTable} (h : t.Recorded u) (h' : u.Recorded v) : t.Recorded v :=
  ⟨Nat.le_trans h.size h'.size, fun l => (h'.waiting l).trans (h.waiting l), fun l => (h.retouched l).trans (h'.retouched l)⟩

theorem update (labels : LabelTable) (label : Label) {f : LabelInfo → LabelInfo}
    (hf : ∀ info, LabelInfo.Retouched info (f info) ∧ (f info).waiting = info.waiting) :
    labels.Recorded (labels.update label f) where
  size := by simp
  waiting l := labels.info_update_cases (P := fun i i' => i'.waiting = i.waiting) label l f (fun _ => rfl) fun info => (hf info).2
  retouched l := labels.info_update_cases (P := LabelInfo.Retouched) label l f .refl fun info => (hf info).1

theorem markTarget (labels : LabelTable) (label : Label) : labels.Recorded (labels.markTarget label) :=
  update _ _ fun _ => ⟨⟨rfl, fun _ => rfl, rfl, rfl, .inl rfl, fun _ => .inl⟩, rfl⟩

theorem addTypeEdge (labels : LabelTable) (block successor : Label) :
    labels.Recorded (labels.addTypeEdge block .normal successor) := by
  refine update _ _ fun info => ⟨⟨rfl, id, rfl, rfl, .inl rfl, fun e he => ?_⟩, rfl⟩
  rcases Array.mem_push.1 he with hold | rfl
  · exact .inl hold
  · exact .inr rfl

theorem updateSized (labels : LabelTable) (label : Label) (f : SizedBlock → SizedBlock) :
    labels.Recorded (labels.updateSized label f) :=
  update _ _ fun _ => ⟨⟨rfl, id, rfl, rfl, .inl rfl, fun _ => .inl⟩, rfl⟩

theorem push (labels : LabelTable) : labels.Recorded (labels.push {}) :=
  ⟨by simp, fun l => by rw [info_push], fun l => by rw [info_push]; exact .refl _⟩

theorem foldl {α : Type} {f : LabelTable → α → LabelTable} (h : ∀ labels a, Recorded labels (f labels a))
    (as : List α) (labels : LabelTable) : labels.Recorded (as.foldl f labels) := by
  induction as generalizing labels with
  | nil => exact .refl _
  | cons a as ih => exact (h labels a).trans (ih _)

end Recorded

end LabelTable

namespace MethodWriter

/-! ### Steps -/

/-- Steps keep a property of the method, and do not fail because of the order of events. -/
structure Tame (P : MethodWriter → Prop) {α : Type} (m : MethodM α) : Prop where
  keeps : Keeps P m
  raises : Raises Error.IsInner m

namespace Tame

variable {α β : Type} {P : MethodWriter → Prop}

theorem pure (a : α) : Tame P (Pure.pure a : MethodM α) := ⟨.pure a, .pure a⟩

theorem throw {e : Error} (he : e.IsInner) : Tame P (MonadExcept.throw e : MethodM α) := ⟨.throw e, .throw he⟩

theorem throw_bind {e : Error} (he : e.IsInner) (f : α → MethodM β) :
    Tame P ((MonadExcept.throw e : MethodM α) >>= f) := ⟨.throw_bind e f, .throw_bind he f⟩

theorem get : Tame P (MonadState.get : MethodM MethodWriter) := ⟨.get, .get⟩

theorem modifyGet {f : MethodWriter → α × MethodWriter} (h : ∀ w, P w → P (f w).2) :
    Tame P (MonadStateOf.modifyGet f : MethodM α) := ⟨.modifyGet h, .modifyGet⟩

theorem bind {x : MethodM α} {f : α → MethodM β} (hx : Tame P x) (hf : ∀ a, Tame P (f a)) : Tame P (x >>= f) :=
  ⟨.bind hx.keeps fun a => (hf a).keeps, .bind hx.raises fun a => (hf a).raises⟩

theorem ite {c : Prop} [Decidable c] {x y : MethodM α} (hx : Tame P x) (hy : Tame P y) : Tame P (if c then x else y) :=
  ⟨.ite hx.keeps hy.keeps, .ite hx.raises hy.raises⟩

theorem mapM {f : α → MethodM β} (h : ∀ a, Tame P (f a)) (as : List α) : Tame P (as.mapM f) :=
  ⟨.mapM (fun a => (h a).keeps) as, .mapM (fun a => (h a).raises) as⟩

theorem forM {f : α → MethodM PUnit} (h : ∀ a, Tame P (f a)) (as : List α) : Tame P (as.forM f) :=
  ⟨.forM (fun a => (h a).keeps) as, .forM (fun a => (h a).raises) as⟩

end Tame

/-- A kind of steps to which everything belongs that is made of such steps. -/
class Steps (C : (α : Type) → MethodM α → Prop) : Prop where
  pure {α : Type} (a : α) : C α (Pure.pure a)
  throw {α : Type} {e : Error} : e.IsInner → C α (MonadExcept.throw e)
  get : C MethodWriter MonadState.get
  bind {α β : Type} {x : MethodM α} {f : α → MethodM β} : C α x → (∀ a, C β (f a)) → C β (x >>= f)

namespace Steps

variable {C : (α : Type) → MethodM α → Prop} {α β : Type}

theorem ite {c : Prop} [Decidable c] {x y : MethodM α} (hx : C α x) (hy : C α y) : C α (if c then x else y) := by
  split
  · exact hx
  · exact hy

variable [Steps C]

theorem throw_bind {e : Error} (he : e.IsInner) (f : α → MethodM β) : C β ((MonadExcept.throw e : MethodM α) >>= f) :=
  throw (C := C) he

theorem mapM {f : α → MethodM β} (h : ∀ a, C β (f a)) (as : List α) : C (List β) (as.mapM f) := by
  induction as with
  | nil => exact pure []
  | cons a as ih =>
    rw [List.mapM_cons]
    exact bind (h a) fun _ => bind ih fun _ => pure _

end Steps

instance (P : MethodWriter → Prop) : Steps (@Tame P) := ⟨.pure, .throw, .get, .bind⟩

/-- What becomes of the records about a label when it is referred to. -/
structure LabelInfo.Referred (info info' : LabelInfo) : Prop where
  rest : ∃ waiting isTarget, info' = { info with waiting := waiting, typed := { info.typed with isTarget := isTarget } }
  target : info.typed.isTarget = true → info'.typed.isTarget = true

/-- Code is appended, labels are referred to, and debug information is added. -/
structure Amends (w w' : MethodWriter) : Prop where
  rest : ∃ code labels lines locals, w' = { w with code := code, labels := labels, lines := lines, locals := locals }
  size : w.code.size ≤ w'.code.size
  count : w'.labels.size = w.labels.size
  labels : ∀ l, LabelInfo.Referred (w.labels.info l) (w'.labels.info l)

theorem LabelInfo.Referred.refl (info : LabelInfo) : LabelInfo.Referred info info := ⟨⟨_, _, rfl⟩, id⟩

theorem amends_update (w : MethodWriter) (label : Label) {f : LabelInfo → LabelInfo}
    (hf : ∀ info, LabelInfo.Referred info (f info)) : Amends w { w with labels := w.labels.update label f } :=
  ⟨⟨_, _, _, _, rfl⟩, Nat.le_refl _, w.labels.size_update _ _,
    fun l => w.labels.info_update_cases (P := LabelInfo.Referred) label l f .refl hf⟩

/-- Steps that only emit and refer to labels are of this kind. -/
class Emitting (C : (α : Type) → MethodM α → Prop) : Prop extends Steps C where
  amend {f : MethodWriter → MethodWriter} : (∀ w, Amends w (f w)) → C Unit (modify f)

/-- Steps that have names put in the pool are of this kind. -/
class Naming (C : (α : Type) → MethodM α → Prop) : Prop extends Steps C where
  utf8 (text : String) : C Nat (fromPool (Pool.utf8 text))
  cls (name : String) : C Nat (fromPool (Pool.cls name))

/-- Steps that count locals are of this kind. -/
class Counting (C : (α : Type) → MethodM α → Prop) : Prop extends Steps C where
  count {f : MethodWriter → MethodWriter} : (∀ w, ∃ n items, f w = { w with maxLocals := n, callerLocals := items }) → C Unit (modify f)

/-- What may change where nothing is written: the records about blocks, and the handlers. -/
structure Records (w w' : MethodWriter) : Prop where
  rest : ∃ labels blocks current height peak calls handlers, w' = { w with
    labels := labels, blocks := blocks, current := current, height := height, peak := peak, hasSubroutines := calls, handlers := handlers }
  labels : w.labels.Recorded w'.labels

theorem Records.of_recorded {w : MethodWriter} {labels : LabelTable} (h : w.labels.Recorded labels) :
    Records w { w with labels := labels } := ⟨⟨_, _, _, _, _, _, _, rfl⟩, h⟩

theorem Records.rest_only {w : MethodWriter} {blocks : Array Label} {current : Option Label} {height peak : Int} {calls : Bool}
    {handlers : Array (Handler Label)} : Records w { w with
      blocks := blocks, current := current, height := height, peak := peak, hasSubroutines := calls, handlers := handlers } :=
  ⟨⟨_, _, _, _, _, _, _, rfl⟩, .refl _⟩

/-- Steps that record something about blocks are of this kind. -/
class Recording (C : (α : Type) → MethodM α → Prop) : Prop extends Steps C where
  record {α : Type} {f : MethodWriter → α × MethodWriter} : (∀ w, Records w (f w).2) → C α (MonadStateOf.modifyGet f)

/-- Steps that interpret instructions and divide a method into blocks are of this kind. -/
class Dividing (C : (α : Type) → MethodM α → Prop) : Prop extends Recording C where
  interpret (op : Opcode) (arg : Nat) (operand : Operand) : C Unit (interpret op arg operand)
  endBlock : C Unit endBlock
  placeNew : C Unit (do placeLabel (← newLabel))

/-- A change that keeps the books of a method, and of its labels only records about blocks. -/
structure Beside (w w' : MethodWriter) : Prop where
  books : (w'.pool, w'.stackMap, w'.methods, w'.declaration, w'.context, w'.stage, w'.compute) =
    (w.pool, w.stackMap, w.methods, w.declaration, w.context, w.stage, w.compute)
  size : w.code.size ≤ w'.code.size
  labels : w.labels.Retouched w'.labels

/-- Labels and code are left alone. -/
theorem Beside.of_eq {w w' : MethodWriter}
    (h : (w'.pool, w'.stackMap, w'.methods, w'.declaration, w'.context, w'.stage, w'.compute) =
      (w.pool, w.stackMap, w.methods, w.declaration, w.context, w.stage, w.compute))
    (hcode : w'.code = w.code) (hlabs : w'.labels = w.labels) : Beside w w' :=
  ⟨h, by rw [hcode], fun l => by rw [hlabs]; exact .refl _⟩

/-- A change that leaves the counts of locals alone, too. -/
structure Aloof (w w' : MethodWriter) : Prop extends Beside w w' where
  locals : (w'.maxLocals, w'.callerLocals) = (w.maxLocals, w.callerLocals)

/-- A property of methods that is about none of this. -/
class Still (P : MethodWriter → Prop) : Prop where
  aloof {w w' : MethodWriter} : Aloof w w' → P w → P w'

/-- A property of methods that their body keeps while it is written, as long as no locals are used. -/
class Steady (P : MethodWriter → Prop) : Prop extends Still P where
  fromPool {α : Type} {action : PoolM α} : Cares action → Keeps P (fromPool action)
  interpret (op : Opcode) (arg : Nat) (operand : Operand) : Keeps P (interpret op arg operand)
  resolve (label : Label) : Keeps P (resolve label)

/-- A property of methods that their body keeps while it is written. -/
class Invariant (P : MethodWriter → Prop) : Prop extends Steady P where
  beside {w w' : MethodWriter} : Beside w w' → P w → P w'
  aloof h := beside h.toBeside

theorem raises_fromPool {α : Type} {E : Error → Prop} {action : PoolM α} (h : Raises E action) :
    Raises E (fromPool action) := by
  intro w e w' hrun
  unfold fromPool at hrun
  dsimp only at hrun
  split at hrun <;> cases hrun
  exact h _ _ _ ‹_›

variable {P : MethodWriter → Prop}

theorem tame_checked {α : Type} {result : Except Error α} (h : ∀ e, result = .error e → e.IsPlain) :
    Tame P (checked result) := by
  unfold MethodWriter.checked
  split
  · exact .pure _
  · exact .throw (h _ rfl).inner

/-! ### Steps of any kind -/

section
variable {C : (α : Type) → MethodM α → Prop}

section
variable [Steps C]

theorem tame_position : C Nat position := Steps.bind Steps.get fun _ => Steps.pure _

theorem tame_checkLabel (label : Label) : C Unit (checkLabel label) :=
  Steps.bind Steps.get fun _ => Steps.ite (Steps.throw rfl) (Steps.pure _)

theorem tame_checkLabels (labels : List Label) : C Unit (checkLabels labels) := by
  induction labels with
  | nil => exact Steps.pure _
  | cons label labels ih => exact Steps.bind (tame_checkLabel label) fun _ => ih

end

section
variable [Emitting C]

theorem tame_emit (bytes : List UInt8) : C Unit (emit bytes) :=
  Emitting.amend fun _ => ⟨⟨_, _, _, _, rfl⟩, by rw [Bytes.size_write]; exact Nat.le_add_right _ _, rfl, fun _ => .refl _⟩

theorem tame_refer (label : Label) {f : LabelInfo → LabelInfo} (hf : ∀ info, LabelInfo.Referred info (f info)) :
    C Unit (updateLabels (·.update label f)) :=
  Emitting.amend fun w => amends_update w label hf

theorem tame_emitReference (label : Label) (source : Nat) (wide : Bool) : C Unit (emitReference label source wide) := by
  refine Steps.bind Steps.get fun _ => ?_
  split
  · exact tame_emit _
  · refine Steps.bind tame_position fun site => Steps.bind (tame_refer label fun _ => ?_) fun _ => tame_emit _
    exact ⟨⟨_, _, rfl⟩, id⟩

theorem tame_emitReferences (source : Nat) (labels : List Label) : C Unit (emitReferences source labels) := by
  induction labels with
  | nil => exact Steps.pure _
  | cons label labels ih => exact Steps.bind (tame_emitReference label source true) fun _ => ih

theorem tame_emitPairs (source : Nat) (pairs : List (Int32 × Label)) : C Unit (emitPairs source pairs) := by
  induction pairs with
  | nil => exact Steps.pure _
  | cons pair pairs ih => exact Steps.bind (tame_emit _) fun _ => Steps.bind (tame_emitReference _ _ _) fun _ => ih

theorem tame_emitSwitch (op : Opcode) : C Unit (emitSwitch op) :=
  Steps.bind (tame_emit _) fun _ => Steps.bind tame_position fun _ => tame_emit _

theorem tame_emitJump (op base : Opcode) (wide : Bool) (label : Label) (next : Option Label) :
    C Unit (emitJump op base wide label next) := by
  have hdirect : ∀ (op : Opcode) here wide, C Unit (do emit [op]; emitReference label here wide) :=
    fun op here wide => Steps.bind (tame_emit _) fun _ => tame_emitReference _ _ _
  have hover : ∀ here : Nat, C Unit (do
      emitShort base.invert 8
      emit [Opcode.gotoW]
      emitReference label (here + 3) true) :=
    fun here => Steps.bind (tame_emit _) fun _ => hdirect _ _ _
  refine Steps.bind tame_position fun here => Steps.bind Steps.get fun w => ?_
  refine Steps.ite (hdirect _ _ _) (Steps.ite (hdirect _ _ _) (Steps.ite (hdirect _ _ _) (Steps.ite (hdirect _ _ _) ?_)))
  cases next with
  | none => exact hover here
  | some next => exact Steps.bind (tame_refer next fun _ => ⟨⟨_, _, rfl⟩, fun _ => rfl⟩) fun _ => hover here

theorem tame_writeLine (line : UInt16) (start : Label) : C Unit (writeLine line start) :=
  Steps.bind (tame_checkLabel _) fun _ =>
    Emitting.amend fun _ => ⟨⟨_, _, _, _, rfl⟩, Nat.le_refl _, rfl, fun _ => .refl _⟩

end

section
variable [Recording C]

theorem tame_record {f : MethodWriter → MethodWriter} (h : ∀ w, Records w (f w)) : C Unit (modify f) := Recording.record h

theorem tame_updateLabels {f : LabelTable → LabelTable} (hf : ∀ labels, LabelTable.Recorded labels (f labels)) :
    C Unit (updateLabels f) := tame_record fun w => .of_recorded (hf w.labels)

theorem Recording.newLabel : C Label newLabel := record fun w => .of_recorded (.push w.labels)

theorem tame_updateCurrent {f : LabelTable → Label → LabelTable}
    (hf : ∀ labels block, LabelTable.Recorded labels (f labels block)) : C Unit (updateCurrent f) := by
  refine tame_record fun w => ?_
  split
  · exact .rest_only
  · exact .of_recorded (hf _ _)

theorem tame_growStack (delta : Int) : C Unit (growStack delta) := by
  refine tame_record fun w => ?_
  split <;> exact .rest_only

theorem tame_collapse (label block : Label) : C Unit (collapse label block) := by
  refine tame_updateLabels fun labels => LabelTable.Recorded.trans (.update labels label fun _ => ?_)
    (.update _ block fun _ => ?_)
  · exact ⟨⟨rfl, id, rfl, rfl, .inr (by simp), fun _ => .inl⟩, rfl⟩
  · exact ⟨⟨rfl, fun h => by simp [h], rfl, rfl, .inl rfl, fun _ => .inl⟩, rfl⟩

theorem tame_startFrame (label : Label) : C Unit (startFrame label) := by
  refine tame_updateLabels fun labels => .update labels label fun _ => ⟨⟨rfl, id, rfl, rfl, .inr fun f hf => ?_, fun _ => .inl⟩, rfl⟩
  cases hf
  rfl

theorem tame_pushBlock (label : Label) : C Unit (pushBlock label) := tame_record fun _ => .rest_only

theorem tame_enter (current : Option Label) : C Unit (modify fun w => { w with current := current }) :=
  tame_record fun _ => .rest_only

theorem tame_placeTyped (label : Label) : C Unit (placeTyped label) := by
  have hedge : C Unit (updateCurrent fun labels current => labels.addTypeEdge current .normal label) :=
    tame_updateCurrent fun _ _ => .addTypeEdge _ _ _
  refine Steps.bind Steps.get fun _ => ?_
  split
  · exact tame_collapse _ _
  · exact Steps.bind hedge fun _ => Steps.bind (tame_collapse _ _) fun _ => tame_enter _
  · exact Steps.bind hedge fun _ => Steps.bind (tame_startFrame _) fun _ => Steps.bind (tame_pushBlock _) fun _ => tame_enter _

/-- The current block is left. -/
theorem tame_leave (f : MethodWriter → SizedBlock → SizedBlock) : C Unit (modify fun w =>
    match w.current with
    | none => w
    | some block => { w with labels := w.labels.updateSized block (f w) }) := by
  refine tame_record fun w => ?_
  split
  · exact .rest_only
  · exact .of_recorded (.updateSized _ _ _)

theorem tame_placeSized (label : Label) : C Unit (placeSized label) :=
  Steps.bind (tame_leave _) fun _ => Steps.bind (tame_record fun _ => .rest_only) fun _ => tame_pushBlock _

/-- What follows the placing of a label. -/
theorem tame_head (label : Label) : C Unit (do
    match (← get).compute with
    | .frames => placeTyped label
    | .maxs => placeSized label
    | .asGiven => pure ()) := by
  refine Steps.bind Steps.get fun _ => ?_
  split
  · exact tame_placeTyped label
  · exact tame_placeSized label
  · exact Steps.pure _

theorem tame_writeHandler [Naming C] (h : Handler Label) : C Unit (writeHandler h) := by
  have hpush : C Unit (modify fun w => { w with handlers := w.handlers.push h }) :=
    tame_record fun _ => .rest_only
  refine Steps.bind (tame_checkLabels _) fun _ => ?_
  split
  · exact hpush
  · exact Steps.bind (Naming.cls _) fun _ => hpush

end

section
variable [Dividing C]

theorem tame_conclude (i : Instruction Label) : C Unit (conclude i) := by
  unfold conclude
  split
  · exact Steps.bind Steps.get fun _ => Steps.ite Dividing.endBlock (Steps.pure _)
  · exact Steps.bind Steps.get fun _ => Steps.ite Dividing.placeNew (Steps.pure _)
  · exact Steps.pure _

theorem tame_recordJump (op base : Opcode) (label : Label) : C (Option Label) (recordJump op base label) := by
  have hnew : C (Option Label) (do return some (← newLabel)) := Steps.bind Recording.newLabel fun _ => Steps.pure _
  refine Steps.bind Steps.get fun w => ?_
  split
  · exact Steps.bind (Dividing.interpret _ _ _) fun _ =>
      Steps.bind (tame_updateLabels fun _ => .trans (.markTarget _ _) (.addTypeEdge _ _ _)) fun _ => Steps.ite (Steps.pure _) hnew
  · refine Steps.ite ?_ ?_
    · exact Steps.bind (tame_updateLabels fun _ => .trans (.updateSized _ _ _) (.updateSized _ _ _)) fun _ =>
        Steps.bind (tame_record fun _ => .rest_only) fun _ => hnew
    · exact Steps.bind (tame_record fun _ => .rest_only) fun _ =>
        Steps.bind (tame_updateLabels fun _ => .updateSized _ _ _) fun _ => Steps.pure _
  · exact Steps.pure _

theorem tame_recordSwitch (targets : List Label) : C Unit (recordSwitch targets) := by
  refine Steps.bind Steps.get fun w => ?_
  split
  · exact Steps.pure _
  · exact Steps.bind (Dividing.interpret _ _ _) fun _ => Steps.bind (tame_updateLabels fun labels =>
      .foldl (fun _ _ => .trans (.markTarget _ _) (.addTypeEdge _ _ _)) targets labels) fun _ => Dividing.endBlock
  · exact Steps.bind (tame_record fun _ => .rest_only) fun _ => Steps.bind (tame_updateLabels fun labels =>
      .foldl (fun _ _ => .updateSized _ _ _) targets labels) fun _ => Dividing.endBlock
  · exact Dividing.endBlock

end

theorem tame_itemType [Naming C] (item : FrameItem Label) : C VerificationType (itemType item) := by
  cases item with
  | object name => exact Steps.bind (Naming.cls name) fun _ => Steps.pure _
  | uninitialized label =>
    refine Steps.bind (tame_checkLabel label) fun _ => Steps.bind Steps.get fun w => ?_
    split
    · exact Steps.pure _
    · exact Steps.throw rfl
  | _ => exact Steps.pure _

section
variable [Counting C]

theorem tame_useLocals (count : Nat) : C Unit (useLocals count) := by
  refine Counting.count fun w => ?_
  split <;> exact ⟨_, _, rfl⟩

theorem tame_account [Dividing C] (i : Instruction Label) : C Unit (account i) := by
  unfold account
  split
  · refine Steps.bind Steps.get fun w => Steps.ite (Steps.throw_bind rfl _) (Steps.ite ?_ ?_)
    · exact Steps.bind (tame_updateCurrent fun _ _ => .updateSized _ _ _) fun _ => Steps.bind Dividing.endBlock fun _ => tame_useLocals _
    · exact Steps.bind (Dividing.interpret _ _ _) fun _ => Steps.bind (tame_growStack _) fun _ => tame_useLocals _
  · exact Steps.bind (Dividing.interpret _ _ _) fun _ => tame_useLocals _
  · exact Steps.bind tame_position fun _ => Steps.bind (Dividing.interpret _ _ _) fun _ => tame_growStack _

theorem tame_updateCallerLocals (f : List (FrameItem Label) → List (FrameItem Label)) :
    C Unit (updateCallerLocals f) := Counting.count fun _ => ⟨_, _, rfl⟩

theorem tame_writeLocal [Emitting C] [Naming C] (s : LocalScope Label) : C Unit (writeLocal s) := by
  have hrest : ∀ count, C Unit (do
      useLocals count
      modify fun w => { w with locals := w.locals.push s }) :=
    fun count => Steps.bind (tame_useLocals _) fun _ =>
      Emitting.amend fun _ => ⟨⟨_, _, _, _, rfl⟩, Nat.le_refl _, rfl, fun _ => .refl _⟩
  refine Steps.bind (tame_checkLabels _) fun _ => Steps.bind (Naming.utf8 _) fun _ => Steps.bind (Naming.utf8 _) fun _ => ?_
  split
  · exact hrest _
  · exact Steps.bind (Naming.utf8 _) fun _ => hrest _

theorem tame_callerShape [Naming C] (frame : ExplicitFrame Label) : C (FrameShape VerificationType) (callerShape frame) := by
  cases frame with
  | same => exact Steps.pure _
  | sameOne item => exact Steps.bind (tame_itemType item) fun _ => Steps.pure _
  | append items =>
    exact Steps.ite (Steps.throw_bind rfl _) (Steps.bind (Steps.mapM tame_itemType items) fun _ =>
      Steps.bind (tame_updateCallerLocals _) fun _ => Steps.pure _)
  | chop count => exact Steps.ite (Steps.throw_bind rfl _) (Steps.bind (tame_updateCallerLocals _) fun _ => Steps.pure _)
  | full locals stack =>
    exact Steps.bind (Steps.mapM tame_itemType locals) fun _ => Steps.bind (Steps.mapM tame_itemType stack) fun _ =>
      Steps.bind (tame_updateCallerLocals _) fun _ => Steps.pure _

theorem isPlain_of_pushShape {map : StackMap.Builder} {offset : Nat} {shape : FrameShape VerificationType} {e : Error}
    (h : map.pushShape offset shape = .error e) : e.IsPlain := by
  unfold StackMap.Builder.pushShape at h
  split at h
  · cases h
  · split at h <;> cases h
    rfl

/-- Frames of the caller, for steps to which changes of the stack map belong. -/
theorem tame_writeFrame [Naming C] (hmap : ∀ map, C Unit (modify fun w => { w with stackMap := map }))
    (frame : ExplicitFrame Label) : C Unit (writeFrame frame) := by
  refine Steps.bind Steps.get fun _ => Steps.ite (Steps.pure _) (Steps.bind tame_position fun _ => ?_)
  refine Steps.bind (tame_callerShape frame) fun _ => Steps.bind Steps.get fun _ => Steps.bind (tame_useLocals _) fun _ => ?_
  refine Steps.bind Steps.get fun _ => Steps.bind (hmap _) fun _ => ?_
  split
  · exact hmap _
  · exact Steps.bind (hmap _) fun _ => Steps.throw (isPlain_of_pushShape ‹_›).inner

end

end

theorem raises_requirePlaced (labels : List Label) : Raises Error.IsPlain (requirePlaced labels) := by
  induction labels with
  | nil => exact .pure _
  | cons label labels ih => exact .bind .get fun _ => .ite (.throw_bind (by rfl) _) ih

theorem tame_requirePlaced (labels : List Label) : Tame P (requirePlaced labels) where
  keeps w hw := by
    rw [show stateAfter (requirePlaced labels w) = w from keeps_requirePlaced w labels w rfl]
    exact hw
  raises := (raises_requirePlaced labels).mono fun _ he => he.inner

section
variable [Still P]

theorem Amends.aloof {w w' : MethodWriter} (h : Amends w w') : Aloof w w' := by
  obtain ⟨⟨code, labels, lines, locals, rfl⟩, hsize, -, hlabs⟩ := h
  refine ⟨⟨rfl, hsize, fun l => ?_⟩, rfl⟩
  obtain ⟨⟨waiting, isTarget, heq⟩, htgt⟩ := hlabs l
  dsimp only at heq htgt ⊢
  rw [heq] at htgt ⊢
  exact ⟨rfl, htgt, rfl, rfl, .inl rfl, fun _ => .inl⟩

theorem Records.aloof {w w' : MethodWriter} (h : Records w w') : Aloof w w' := by
  obtain ⟨⟨_, _, _, _, _, _, _, rfl⟩, hlabs⟩ := h
  exact ⟨⟨rfl, Nat.le_refl _, hlabs.retouched⟩, rfl⟩

instance : Emitting (@Tame P) where
  amend h := .modifyGet fun w hw => Still.aloof (h w).aloof hw

instance : Recording (@Tame P) where
  record h := .modifyGet fun w hw => Still.aloof (h w).aloof hw

theorem tame_newLabel : Tame P newLabel := Recording.newLabel

end

section
variable [Steady P]

theorem tame_fromPool {α : Type} {action : PoolM α} (h : Cares action) : Tame P (fromPool action) where
  keeps := Steady.fromPool h
  raises := (raises_fromPool h.raises).mono fun _ he => he.inner

instance : Naming (@Tame P) where
  utf8 text := tame_fromPool (cares_utf8 text)
  cls name := tame_fromPool (cares_cls name)

theorem tame_interpret (op : Opcode) (arg : Nat) (operand : Operand) : Tame P (interpret op arg operand) where
  keeps := Steady.interpret op arg operand
  raises w e w' hrun := by
    unfold interpret at hrun
    split at hrun
    · split at hrun
      · cases hrun
      · dsimp only at hrun
        split at hrun <;> cases hrun
        exact ((Interpreter.cares_execute op arg operand).raises _ _ _ ‹_›).inner
    · cases hrun

theorem tame_resolve (label : Label) : Tame P (resolve label) where
  keeps := Steady.resolve label
  raises := .bind .get fun _ => .ite (.throw_bind (by rfl) _) .modifyGet

theorem tame_placeLabel (label : Label) : Tame P (placeLabel label) :=
  .bind (tame_checkLabel label) fun _ => .bind (tame_resolve label) fun _ => tame_head label

theorem tame_endBlock : Tame P endBlock := by
  refine .bind .get fun _ => ?_
  split
  · exact .bind tame_newLabel fun _ => .bind (tame_resolve _) fun _ => .bind (tame_startFrame _) fun _ =>
      .bind (tame_pushBlock _) fun _ => tame_enter none
  · exact .bind (tame_leave _) fun _ => tame_enter none
  · exact tame_enter none

/-! ### Instructions -/

theorem tame_placeNew : Tame P (do placeLabel (← newLabel) : MethodM Unit) :=
  .bind tame_newLabel fun _ => tame_placeLabel _

instance : Dividing (@Tame P) := ⟨tame_interpret, tame_endBlock, tame_placeNew⟩

theorem cares_plainBytes (i : Instruction Label) : Cares (plainBytes i) := by
  cases i with
  | type op name => exact .bind (cares_cls name) fun _ => .pure _
  | field op m => exact .bind (Merges.run (.fieldRef m.owner m.name m.descriptor)) fun _ => .pure _
  | method op m isInterface => exact .bind (Merges.run (.methodRef m.owner m.name m.descriptor _)) fun _ => .pure _
  | invokeDynamic name text bootstrap arguments => exact .bind (Merges.run (.invokeDynamic name text bootstrap arguments)) fun _ => .pure _
  | ldc constant => exact .bind (Merges.run (.loadable constant)) fun _ => .pure _
  | multiNewArray descriptor dimensions => exact .bind (cares_cls descriptor) fun _ => .pure _
  | _ => exact .pure _

/-- An instruction without labels, once the current block takes account of it. -/
theorem tame_writePlain {i : Instruction Label} (hi : hasLabels i = false) (haccount : Tame P (account i)) : Tame P (write i) := by
  rcases amountsTo_write hi with ⟨-, heq⟩ | ⟨e, he, heq⟩
  · rw [heq]
    exact .bind (tame_fromPool (cares_plainBytes i)) fun bs => .bind haccount fun _ => .bind (tame_emit bs) fun _ => tame_conclude i
  · rw [heq]
    exact .throw he.inner

/-- Where a jump has been written, its block ends. -/
theorem tame_endJump (base : Opcode) (next : Option Label) : Tame P (do
    if (← get).current.isSome then
      match next with
      | some next => placeLabel next
      | none => pure ()
      if base = Opcode.goto then endBlock) := by
  refine .bind .get fun w => .ite ?_ (.pure _)
  cases next with
  | none => exact .ite tame_endBlock (.pure _)
  | some next => exact .bind (tame_placeLabel _) fun _ => .ite tame_endBlock (.pure _)

theorem tame_writeJump (op : Opcode) (label : Label) : Tame P (writeJump op label) := by
  refine .bind (tame_checkLabel label) fun _ => ?_
  split
  · exact .throw rfl
  · refine .bind .get fun w => .ite (.throw_bind rfl _) ?_
    exact .bind (tame_recordJump _ _ _) fun next => .bind (tame_emitJump _ _ _ _ _) fun _ => tame_endJump _ next

theorem tame_writeTableSwitch (low high : Int) (fallback : Label) (targets : List Label) :
    Tame P (writeTableSwitch low high fallback targets) := by
  unfold writeTableSwitch
  refine .ite (.throw_bind rfl _) ?_
  exact .bind (tame_checkLabels _) fun _ => .bind tame_position fun _ => .bind (tame_emitSwitch _) fun _ =>
    .bind (tame_emitReference _ _ _) fun _ => .bind (tame_emit _) fun _ => .bind (tame_emitReferences _ _) fun _ =>
    tame_recordSwitch _

theorem tame_writeLookupSwitch (fallback : Label) (keys : List Int32) (targets : List Label) :
    Tame P (writeLookupSwitch fallback keys targets) := by
  unfold writeLookupSwitch
  refine .ite (.throw_bind rfl _) (.ite (.throw_bind rfl _) ?_)
  exact .bind (tame_checkLabels _) fun _ => .bind tame_position fun _ => .bind (tame_emitSwitch _) fun _ =>
    .bind (tame_emitReference _ _ _) fun _ => .bind (tame_emit _) fun _ => .bind (tame_emitPairs _ _) fun _ =>
    tame_recordSwitch _

/-! ### Other events of the body -/

/-- Opening the body changes the stage. -/
theorem tame_openCode (h : ∀ w, P w → P { w with stage := .open }) : Tame P openCode :=
  .bind (.modifyGet fun w hw => h w hw) fun _ => .bind .get fun _ => .ite tame_placeNew (.pure _)

end

/-! ### Locals -/

section
variable [Invariant P]

instance : Counting (@Tame P) where
  count h := by
    refine .modifyGet fun w hw => Invariant.beside ?_ hw
    obtain ⟨n, items, heq⟩ := h w
    rw [heq]
    exact .of_eq rfl rfl rfl

theorem tame_write (i : Instruction Label) : Tame P (write i) := by
  cases i with
  | jump op target => exact tame_writeJump op target
  | tableSwitch low high fallback targets => exact tame_writeTableSwitch low.toInt high.toInt fallback targets
  | lookupSwitch fallback keys targets => exact tame_writeLookupSwitch fallback keys targets
  | _ => exact tame_writePlain rfl (tame_account _)

end

theorem raises_writeFrame (frame : ExplicitFrame Label) : Raises Error.IsInner (writeFrame frame) := by
  have : Invariant fun _ => True := { beside _ _ := trivial, fromPool _ _ _ := trivial, interpret _ _ _ _ _ := trivial, resolve _ _ _ := trivial }
  exact (tame_writeFrame (C := @Tame fun _ => True) (fun _ => .modifyGet fun _ _ => trivial) frame).raises

/-! ### Closing the body -/

theorem raises_addCatchEdges (h : Handler Label) : Raises Error.IsPlain (addCatchEdges h) :=
  .bind (raises_fromPool (cares_addType _).raises) fun _ => .modifyGet

theorem raises_startEntry (entry : Label) : Raises Error.IsPlain (startEntry entry) := by
  refine .bind .get fun w => .ite (.throw_bind (by rfl) _) ?_
  exact .bind (raises_fromPool (FrameInput.cares_ofMethod ..).raises) fun input => .bind .modifyGet fun _ =>
    .bind (raises_fromPool input.cares_verificationTypes.raises) fun _ => .pure _

theorem raises_pushExpanded (map : StackMap.Builder) (start : Nat) (locals stack : List VerificationType) :
    Raises Error.IsPlain (checked (map.pushExpanded start locals stack)) := by
  unfold StackMap.Builder.pushExpanded
  split
  · exact .throw rfl
  · exact .pure _

theorem raises_storeFrames (blocks : List Label) (map : StackMap.Builder) (largest : Nat) :
    Raises Error.IsPlain (storeFrames blocks map largest) := by
  induction blocks generalizing map largest with
  | nil => exact .pure _
  | cons block rest ih =>
    refine .bind (.bind .get fun w => .ite (.pure _) ?_) fun _ => .bind (.bind .get fun w => .ite (.pure _) ?_)
      fun _ => ih _ _
    · split
      · exact .throw rfl
      · exact .bind (raises_fromPool (FrameInput.cares_verificationTypes _).raises) fun _ => raises_pushExpanded _ _ _ _
    · exact .bind .modifyGet fun _ => .bind (raises_fromPool (cares_cls _).raises) fun _ =>
        .bind (raises_pushExpanded _ _ _ _) fun _ => .bind .modifyGet fun _ => .pure _

/-! ### Events -/

/-- The events of which there may be any number. -/
def isBody : MethodEvent Label → Bool
  | .code | .maxs .. | .finish => false
  | _ => true

/-- What an event does where it is allowed. -/
def effect (finish : MethodM Unit) : MethodEvent Label → MethodM Unit
  | .code => openCode
  | .frame frame => writeFrame frame
  | .instruction i => write i
  | .label label => placeLabel label
  | .tryCatch h => writeHandler h
  | .localVariable s => writeLocal s
  | .lineNumber line start => writeLine line start
  | .maxs stack locals => closeCode stack.toNat locals.toNat
  | .finish => finish

theorem dispatch_run (finish : MethodM Unit) (event : MethodEvent Label) (w : MethodWriter) :
    dispatch finish event w = if event.isAllowed w.stage then effect finish event w
      else .error (.invalidState event.name w.stage.moment) w := by
  unfold dispatch
  rw [Success.run_get_bind]
  dsimp only
  cases event.isAllowed w.stage with
  | false => rfl
  | true => cases event <;> rfl

variable [Invariant P]

variable {finish : MethodM Unit} {event : MethodEvent Label}

/-- **Every event of the body** keeps an invariant, if frames of the caller do. -/
theorem tame_body (hev : isBody event = true)
    (hfr : ∀ frame, Keeps P (writeFrame frame)) : Tame P (effect finish event) := by
  cases event with
  | frame frame => exact ⟨hfr frame, raises_writeFrame frame⟩
  | instruction i => exact tame_write i
  | label label => exact tame_placeLabel label
  | tryCatch h => exact tame_writeHandler h
  | localVariable s => exact tame_writeLocal s
  | lineNumber line start => exact tame_writeLine line start
  | code | maxs | finish => cases hev

theorem tame_effect (hev : endsBody event = false)
    (hopen : ∀ w, P w → P { w with stage := .open }) (hfr : ∀ frame, Keeps P (writeFrame frame)) :
    Tame P (effect finish event) := by
  cases event with
  | code => exact tame_openCode hopen
  | maxs | finish => cases hev
  | _ => exact tame_body rfl hfr

theorem keeps_dispatch (hev : endsBody event = false)
    (hopen : ∀ w, P w → P { w with stage := .open }) (hfr : ∀ frame, Keeps P (writeFrame frame)) :
    Keeps P (dispatch finish event) := by
  intro w hw
  rw [dispatch_run]
  split
  · exact (tame_effect hev hopen hfr).keeps w hw
  · exact hw

end MethodWriter

end JvmAssembler
