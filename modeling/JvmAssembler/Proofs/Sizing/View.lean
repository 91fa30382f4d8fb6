import JvmAssembler.Proofs.Invariant

/-!
# JvmAssembler.Proofs.Sizing.View

What sizing does while a method is written, as a function on the part of the writer that it works on.

`View` is that part. `View.event` says what becomes of it by an event that is accepted, and `view_run` that a script is
performed by doing this for one act after the other. From there on the writer plays no role.
-/

namespace JvmAssembler

open Success

open Instruction (isCall isReturn fallsThrough places)

namespace Sizing

/-- What sizing keeps of a method that is being written. -/
structure View where
  stage : Stage := .declared
  placed : Label → Bool := fun _ => false
  current : Option Label := none
  height : Int := 0
  peak : Int := 0
  blocks : List Label := []
  /-- The label that is made next. -/
  fresh : Label := 0
  sized : Label → SizedBlock := fun _ => {}
  handlers : List (Handler Label) := []
  hasSubroutines : Bool := false

namespace View

def onCurrent (f : SizedBlock → SizedBlock) (v : View) : View :=
  match v.current with
  | none => v
  | some b => { v with sized := fun l => if l = b then f (v.sized l) else v.sized l }

/-- The stack height changes. -/
def grow (delta : Int) (v : View) : View :=
  match v.current with
  | none => v
  | some _ => { v with height := v.height + delta, peak := max v.peak (v.height + delta) }

/-- Successors of the current block. -/
def leave (targets : List Label) (v : View) : View :=
  v.onCurrent fun b => { b with edges := b.edges ++ (targets.map fun l => (.flow v.height, l)).toArray }

def place (label : Label) (v : View) : View := { v with placed := fun l => l == label || v.placed l }

/-- A block starts at a label. -/
def enter (label : Label) (v : View) : View :=
  { v with current := some label, height := 0, peak := 0, blocks := v.blocks ++ [label] }

/-- A block starts at a label, and the current block falls through to it. -/
def begin (label : Label) (v : View) : View :=
  View.enter label ((v.place label).onCurrent fun b =>
    let edge : HeightEdge := if b.calls then .returnSite v.height else .flow v.height
    { b with peak := v.peak, edges := b.edges.push (edge, label) })

/-- The current block ends. -/
def stop (v : View) : View :=
  { v.onCurrent fun b => { b with peak := v.peak } with current := none }

/-- The current block calls a subroutine. -/
def call (target : Label) (v : View) : View :=
  let calling := { v with fresh := v.fresh + 1, hasSubroutines := true }.onCurrent fun b =>
    { b with calls := true, edges := b.edges.push (.call (v.height + 1), target) }
  calling.begin v.fresh

/-- The current block returns from a subroutine. -/
def goBack (v : View) : View := (v.onCurrent fun b => { b with returnHeight := some v.height }).stop

/-- What an instruction of the current block does. -/
def execute (i : Instruction Label) (v : View) : View :=
  if i.isCall then v.call (i.places.headD 0)
  else if i.isReturn then v.goBack
  else
    let v := (v.grow i.delta).leave i.places
    if i.fallsThrough then v else v.stop

def instruction (i : Instruction Label) (v : View) : View := if v.current.isNone then v else v.execute i

def event (v : View) : MethodEvent Label → View
  | .code => { v with stage := .open, fresh := v.fresh + 1 }.begin v.fresh
  | .instruction i => v.instruction i
  | .label l => v.begin l
  | .tryCatch h => { v with handlers := v.handlers ++ [h] }
  | _ => v

end View

/-! ### The writer -/

/-- What sizing keeps of a method. -/
def view (w : MethodWriter) : View where
  stage := w.stage
  placed l := w.labels.isPlaced l
  current := w.current
  height := w.height
  peak := w.peak
  blocks := w.blocks.toList
  fresh := w.labels.size
  sized l := (w.labels.info l).sized
  handlers := w.handlers.toList
  hasSubroutines := w.hasSubroutines

/-- The current block is a label of the method, and its peak is up to date. -/
structure View.Sound (v : View) : Prop where
  current : ∀ b, v.current = some b → b < v.fresh
  peak : v.height ≤ v.peak

/-- Sizes are computed for the method. -/
structure Sized (w : MethodWriter) : Prop where
  compute : w.compute = .maxs
  sound : (view w).Sound

/-- Where these steps succeed, sizing sees this function. -/
def Sizes (f : View → View) {α : Type} (m : MethodM α) : Prop :=
  ∀ w a w', Sized w → m w = .ok a w' → Sized w' ∧ view w' = f (view w)

namespace Sizes

variable {α β : Type} {f g : View → View}

theorem congr {m : MethodM α} (h : Sizes f m) (hfg : ∀ v, v.Sound → f v = g v) : Sizes g m := by
  intro w a w' hw hrun
  obtain ⟨hw', hview⟩ := h w a w' hw hrun
  exact ⟨hw', hview.trans (hfg _ hw.sound)⟩

theorem pure (a : α) : Sizes id (Pure.pure a : MethodM α) := by
  intro w b w' hw h
  cases h
  exact ⟨hw, rfl⟩

theorem throw (e : Error) : Sizes f (MonadExcept.throw e : MethodM α) := by
  intro w b w' hw h
  cases h

theorem throw_bind (e : Error) (k : α → MethodM β) : Sizes f ((MonadExcept.throw e : MethodM α) >>= k) :=
  fun _ _ _ _ h => nomatch h

theorem get : Sizes id (MonadState.get : MethodM MethodWriter) := by
  intro w b w' hw h
  cases h
  exact ⟨hw, rfl⟩

variable {x : MethodM α} {k : α → MethodM β}

theorem bind (hx : Sizes f x) (hk : ∀ a, Sizes g (k a)) :
    Sizes (g ∘ f) (x >>= k) := by
  intro w b w' hw h
  obtain ⟨a, w₁, hfst, h⟩ := run_bind_ok.1 h
  obtain ⟨hw₁, hview₁⟩ := hx w a w₁ hw hfst
  obtain ⟨hw', hview⟩ := hk a w₁ b w' hw₁ h
  exact ⟨hw', by rw [hview, hview₁]; rfl⟩

/-- Steps that sizing does not see, and then others. -/
theorem after (hx : Sizes id x) (hk : ∀ a, Sizes g (k a)) : Sizes g (x >>= k) :=
  hx.bind hk

theorem ite {c : Prop} [Decidable c] {y : MethodM α} (hx : c → Sizes f x) (hy : ¬ c → Sizes f y) :
    Sizes f (if c then x else y) := by
  split
  · exact hx ‹_›
  · exact hy ‹_›

/-- The state is looked at before a step. -/
theorem get_bind {k : MethodWriter → MethodM α}
    (h : ∀ w, Sized w → ∀ a w', k w w = .ok a w' → Sized w' ∧ view w' = f (view w)) : Sizes f (MonadState.get >>= k) :=
  fun w a w' hw hrun => h w hw a w' hrun

theorem modify {f : MethodWriter → MethodWriter} {g : View → View} (hg : ∀ v, v.Sound → (g v).Sound)
    (h : ∀ w, Sized w → (f w).compute = w.compute ∧ view (f w) = g (view w)) :
    Sizes g (MonadStateOf.modifyGet (fun w => ((), f w)) : MethodM Unit) := by
  intro w a w' hw hrun
  cases hrun
  obtain ⟨hcomp, hview⟩ := h w hw
  exact ⟨⟨hcomp.trans hw.compute, by rw [hview]; exact hg _ hw.sound⟩, hview⟩

/-- A change that sizing does not see. -/
theorem unseen {f : MethodWriter → MethodWriter} (h : ∀ w, (f w).compute = w.compute ∧ view (f w) = view w) :
    Sizes id (MonadStateOf.modifyGet (fun w => ((), f w)) : MethodM Unit) :=
  modify (fun _ hv => hv) fun w _ => h w

end Sizes

/-! ### Steps that sizing does not see -/

section Steps

open MethodWriter

theorem sizes_fromPool {α : Type} (action : PoolM α) : Sizes id (fromPool action) := by
  intro w a w' hw h
  obtain ⟨pool, -, rfl⟩ := fromPool_ok h
  exact ⟨⟨hw.compute, hw.sound⟩, rfl⟩

instance : Steps (@Sizes id) := ⟨.pure, fun _ => .throw _, .get, .after⟩

instance : Naming (@Sizes id) where
  utf8 _ := sizes_fromPool _
  cls _ := sizes_fromPool _

instance : Counting (@Sizes id) where
  count h := .unseen fun w => by
    obtain ⟨n, items, heq⟩ := h w
    rw [heq]
    exact ⟨rfl, rfl⟩

/-- Of a label only its heights are seen, and whether it is placed. -/
theorem view_amends {w w' : MethodWriter} (h : Amends w w') : w'.compute = w.compute ∧ view w' = view w := by
  obtain ⟨⟨code, labels, lines, locals, rfl⟩, -, hcnt, hlabs⟩ := h
  have hsz : (fun l => (labels.info l).sized) = fun l => (w.labels.info l).sized := funext fun l => by
    obtain ⟨⟨_, _, hinfo⟩, -⟩ := hlabs l
    exact (congrArg LabelInfo.sized hinfo).trans rfl
  have hpl : (fun l => labels.isPlaced l) = fun l => w.labels.isPlaced l := funext fun l => by
    obtain ⟨⟨_, _, hinfo⟩, -⟩ := hlabs l
    exact (congrArg (fun info => info.position.isSome) hinfo).trans rfl
  exact ⟨rfl, by simp only [view, hsz, hpl, hcnt]⟩

instance : Emitting (@Sizes id) where
  amend h := .unseen fun w => view_amends (h w)

theorem sizes_useLocals (count : Nat) : Sizes id (useLocals count) := tame_useLocals count

/-- Nothing is interpreted where sizes are computed. -/
theorem sizes_interpret (op : Opcode) (arg : Nat) (operand : Operand) : Sizes id (interpret op arg operand) := by
  intro w a w' hw h
  unfold interpret at h
  rw [hw.compute] at h
  cases h
  exact ⟨hw, rfl⟩

variable {w w' : MethodWriter} {label b : Label} {u : Unit} {v : View} {i : Instruction Label} {delta : Int}

/-! ### Steps that sizing sees -/

theorem sizes_growStack (delta : Int) : Sizes (View.grow delta) (growStack delta) := by
  refine .modify (fun v hv => ?_) fun w hw => ?_
  · unfold View.grow
    split
    · exact hv
    · exact ⟨hv.current, Int.le_max_right _ _⟩
  · cases hcur : w.current with
    | none => simp [View.grow, view, hcur]
    | some b => simp [View.grow, view, hcur, hw.compute]

/-- A label of the method is placed only once. -/
theorem resolve_sized (hw : Sized w) (hlab : label < w.labels.size) (h : resolve label w = .ok u w') :
    (view w).placed label = false ∧ Sized w' ∧ view w' = (view w).place label := by
  rcases resolve_cases label w with ⟨-, hrun⟩ | ⟨hnone, code, marks, -, hrun⟩ <;> cases hrun.symm.trans h
  have hsz : (fun l => ((w.labels.placed label w.code.size).info l).sized) = fun l => (w.labels.info l).sized := funext fun l =>
    w.labels.info_update_cases (P := fun before after => after.sized = before.sized) label l _ (fun _ => rfl) fun _ => rfl
  have hpl : (fun l => (w.labels.placed label w.code.size).isPlaced l) = fun l => l == label || w.labels.isPlaced l := by
    funext l
    rw [LabelTable.isPlaced, LabelTable.position?_placed_cases hlab]
    by_cases hl : l = label <;> simp [hl, LabelTable.isPlaced]
  have hview : view { w with labels := w.labels.placed label w.code.size, code := code, hasOversized := marks } =
      (view w).place label := by
    have hsize : (w.labels.placed label w.code.size).size = w.labels.size := w.labels.size_update _ _
    simp only [view, View.place, hsz, hpl, hsize]
  refine ⟨by simp [view, LabelTable.isPlaced, hnone], ⟨hw.compute, ?_⟩, hview⟩
  rw [hview]
  exact ⟨hw.sound.current, hw.sound.peak⟩

/-- Heights of a block that is in the table. -/
theorem sized_updateSized {labels : LabelTable} (hb : b < labels.size) (f : SizedBlock → SizedBlock) :
    (fun l => ((labels.updateSized b f).info l).sized) =
      fun l => if l = b then f (labels.info l).sized else (labels.info l).sized := by
  funext l
  by_cases hl : l = b
  · subst hl
    rw [if_pos rfl]
    exact congrArg LabelInfo.sized (labels.info_update_self l _ hb)
  · rw [if_neg hl]
    exact congrArg LabelInfo.sized (labels.info_update_of_ne b l _ hl)

/-- A change of the current block. -/
theorem view_updateSized (hw : Sized w) (hcur : w.current = some b)
    (f : SizedBlock → SizedBlock) : view { w with labels := w.labels.updateSized b f } = (view w).onCurrent f := by
  have hb : b < w.labels.size := hw.sound.current b hcur
  unfold View.onCurrent
  simp only [view, hcur, sized_updateSized hb, LabelTable.size_updateSized, LabelTable.isPlaced_updateSized]

theorem View.onCurrent_sound (hv : v.Sound) (f : SizedBlock → SizedBlock) : (v.onCurrent f).Sound := by
  unfold View.onCurrent
  split
  · exact hv
  · exact ⟨hv.current, hv.peak⟩

theorem sizes_onCurrent (f : View → SizedBlock → SizedBlock) :
    Sizes (fun v => v.onCurrent (f v)) (modify fun w =>
      match w.current with
      | none => w
      | some block => { w with labels := w.labels.updateSized block (f (view w)) } : MethodM Unit) := by
  refine .modify (fun v hv => v.onCurrent_sound hv _) fun w hw => ?_
  split
  next hcur => exact ⟨rfl, by simp [View.onCurrent, view, hcur]⟩
  next b hcur => exact ⟨rfl, view_updateSized hw hcur _⟩

theorem View.fresh_onCurrent (v : View) (f : SizedBlock → SizedBlock) : (v.onCurrent f).fresh = v.fresh := by
  unfold View.onCurrent
  split <;> rfl

theorem sizes_endBlock : Sizes View.stop endBlock := by
  refine .get_bind fun w hw a w' h => ?_
  simp only [hw.compute] at h
  have htail : Sizes (fun v => { v with current := none }) (modify fun w => { w with current := none } : MethodM Unit) :=
    .modify (fun v hv => ⟨nofun, hv.peak⟩) fun w _ => ⟨rfl, rfl⟩
  exact (sizes_onCurrent fun v b => { b with peak := v.peak }).bind (fun _ => htail) w a w' hw h

/-- Placing a label of the method starts a block. -/
theorem sizes_placeLabel (label : Label) : Sizes (View.begin label) (placeLabel label) := by
  intro w a w' hw h
  obtain ⟨_, _, hchk, h⟩ := run_bind_ok.1 h
  obtain ⟨hlab, rfl⟩ := checkLabel_ok hchk
  obtain ⟨_, w₁, hres, h⟩ := run_bind_ok.1 h
  obtain ⟨-, hw₁, hview⟩ := resolve_sized hw hlab hres
  obtain ⟨_, _, hget, h⟩ := run_bind_ok.1 h
  obtain ⟨rfl, rfl⟩ := run_get_ok.1 hget
  simp only [hw₁.compute] at h
  obtain ⟨_, w₂, hedge, h⟩ := run_bind_ok.1 h
  obtain ⟨hw₂, hview₂⟩ := sizes_onCurrent (fun v b =>
    { b with peak := v.peak, edges := b.edges.push (if b.calls then .returnSite v.height else .flow v.height, label) })
    w₁ _ w₂ hw₁ hedge
  rw [hview] at hview₂
  have hfresh : label < w₂.labels.size := by
    have hsize : (view w₂).fresh = (view w).fresh := by
      rw [hview₂, View.fresh_onCurrent]
      rfl
    show label < (view w₂).fresh
    exact hsize ▸ hlab
  cases h
  refine ⟨⟨hw₂.compute, ⟨?_, Int.le_refl _⟩⟩, ?_⟩
  · intro b hb
    cases hb
    exact hfresh
  · calc
      _ = (view w₂).enter label := by simp [View.enter, view]
      _ = (view w).begin label := by rw [hview₂]; rfl

/-- Make a label and place it here. -/
theorem sizes_placeNew : Sizes (fun v => { v with fresh := v.fresh + 1 }.begin v.fresh) (newLabel >>= placeLabel) := by
  intro w a w' hw h
  obtain ⟨label, w₁, hnew, h⟩ := run_bind_ok.1 h
  cases hnew
  have hview : view { w with labels := w.labels.push {} } = { view w with fresh := (view w).fresh + 1 } := by
    simp [view]
  have hw₁ : Sized { w with labels := w.labels.push {} } := by
    refine ⟨hw.compute, ?_⟩
    rw [hview]
    exact ⟨fun b hb => Nat.lt_succ_of_lt (hw.sound.current b hb), hw.sound.peak⟩
  obtain ⟨hw', hview'⟩ := sizes_placeLabel _ _ a w' hw₁ h
  exact ⟨hw', by rw [hview', hview]; rfl⟩

/-! ### Instructions -/

theorem View.instruction_of_none (hcur : v.current = none) (i : Instruction Label) :
    v.instruction i = v := by
  simp [View.instruction, hcur]

theorem View.grow_of_none (hcur : v.current = none) (delta : Int) : v.grow delta = v := by
  simp [View.grow, hcur]

theorem View.stop_of_none (hcur : v.current = none) : v.stop = v := by
  cases v
  cases hcur
  rfl

theorem View.leave_nil (v : View) : v.leave [] = v := by
  unfold View.leave View.onCurrent
  split
  · rfl
  · simp

/-- Control only passes through an instruction. -/
def Straight (i : Instruction Label) : Prop :=
  i.isCall = false ∧ i.isReturn = false ∧ i.places = [] ∧ i.fallsThrough = true

theorem View.instruction_straight (hi : Straight i) (v : View) :
    v.instruction i = v.grow i.delta := by
  obtain ⟨hcall, hreturn, hpls, hfalls⟩ := hi
  unfold View.instruction View.execute
  cases hcur : v.current with
  | none => simp [View.grow, hcur]
  | some b => simp [hcall, hreturn, hpls, hfalls, View.leave_nil]

/-- End the current block, if there is one, in some cases. -/
theorem sizes_endIf (c : Bool) : Sizes (fun v => if c then v.stop else v)
    (do if c && (← get).current.isSome then endBlock) := by
  refine .get_bind fun w hw a w' h => ?_
  cases hc : c && w.current.isSome with
  | true =>
    rw [hc] at h
    obtain ⟨rfl, -⟩ := Bool.and_eq_true_iff.1 hc
    exact sizes_endBlock w a w' hw h
  | false =>
    rw [hc] at h
    cases h
    refine ⟨hw, ?_⟩
    cases c with
    | false => rfl
    | true =>
      have hcur : w.current = none := by simpa using hc
      exact (View.stop_of_none hcur).symm

theorem sizes_executed (hi : Straight i) (op : Opcode) (arg : Nat) (operand : Operand) :
    Sizes (View.instruction i) (do interpret op arg operand; growStack i.delta) :=
  (sizes_interpret _ _ _).after fun _ => (sizes_growStack _).congr fun v _ => (View.instruction_straight hi v).symm

/-- An access to a local, or a return from a subroutine. -/
theorem sizes_account_var (op : Opcode) (index : UInt16) :
    Sizes (View.instruction (.var op index)) (account (.var op index)) := by
  refine .get_bind fun w hw a w' h => ?_
  rw [if_neg (by simp [hw.compute])] at h
  by_cases hret : op = Opcode.ret
  · subst hret
    cases hcur : w.current with
    | none =>
      rw [if_neg (by simp [hcur])] at h
      rw [View.instruction_of_none hcur]
      obtain ⟨hw', hview⟩ := (sizes_interpret _ _ _).after
        (fun _ => (sizes_growStack _).bind fun _ => sizes_useLocals _) w a w' hw h
      exact ⟨hw', hview.trans (View.grow_of_none hcur _)⟩
    | some b =>
      rw [if_pos (by simp [hw.compute, hcur])] at h
      obtain ⟨_, w₁, hht, h⟩ := run_bind_ok.1 h
      obtain ⟨hw₁, hview₁⟩ := sizes_onCurrent (fun v b => { b with returnHeight := some v.height }) w _ w₁ hw hht
      obtain ⟨hw', hview⟩ := sizes_endBlock.bind (fun _ => sizes_useLocals _) w₁ a w' hw₁ h
      refine ⟨hw', hview.trans ?_⟩
      rw [hview₁]
      simp [View.instruction, View.execute, View.goBack, isCall, isReturn, view, hcur]
  · rw [if_neg (by simp [hret])] at h
    have hstraight : Straight (.var op index) := ⟨rfl, beq_eq_false_iff_ne.2 hret, rfl, by simpa [fallsThrough]⟩
    exact (sizes_executed hstraight op index.toNat .none).bind (fun _ => sizes_useLocals _) w a w' hw (by simpa [bind_assoc] using h)

theorem sizes_account_iinc (index : UInt16) (increment : Int16) :
    Sizes (View.instruction (.iinc index increment)) (account (.iinc index increment)) := by
  refine Sizes.congr (f := id) ((sizes_interpret _ _ _).after fun _ => sizes_useLocals _) fun v hv => ?_
  rw [View.instruction_straight ⟨rfl, rfl, rfl, rfl⟩]
  unfold View.grow
  split
  · rfl
  · have hpeak : max v.peak v.height = v.peak := Int.max_eq_left hv.peak
    simp [Instruction.delta, hpeak]

/-- An instruction that may end its block does so once it is written. -/
theorem sizes_writeBytes_plain (op : Opcode) (bs : List UInt8) :
    Sizes (View.instruction (.plain op)) (writeBytes (.plain op) bs) := by
  have hgrows : Sizes (View.grow (Instruction.plain op : Instruction Label).delta) (account (.plain op)) :=
    .after tame_position fun _ => (sizes_interpret _ _ _).after fun _ => sizes_growStack _
  refine (hgrows.bind fun _ => .after (tame_emit bs) fun _ => sizes_endIf op.isExit).congr fun v _ => ?_
  show (if op.isExit then (v.grow _).stop else v.grow _) = _
  cases hcur : v.current with
  | none => rw [View.instruction_of_none hcur, View.grow_of_none hcur, View.stop_of_none hcur, ite_self]
  | some b =>
    cases hexit : op.isExit <;>
      simp [View.instruction, View.execute, hcur, isCall, isReturn, places,
        fallsThrough, View.leave_nil, hexit]

theorem sizes_writeBytes (hi : hasLabels i = false) (bs : List UInt8) : Sizes (View.instruction i) (writeBytes i bs) := by
  have hstraight : Straight i → Sizes (View.instruction i) (do
      let p ← position
      interpret (i.reading p).1 (i.reading p).2.1 (i.reading p).2.2
      growStack i.delta) := fun h => .after tame_position fun _ => sizes_executed h _ _ _
  have hsto : ∀ op : Opcode, Sizes id (do if Opcode.istore ≤ op ∧ (← get).compute = .frames then placeLabel (← newLabel)) := by
    refine fun op => .get_bind fun w hw a w' h => ?_
    rw [if_neg (by simp [hw.compute])] at h
    cases h
    exact ⟨hw, rfl⟩
  cases i with
  | plain op => exact sizes_writeBytes_plain op bs
  | var op index => exact (sizes_account_var op index).bind fun _ => .after (tame_emit bs) fun _ => hsto op
  | iinc index increment => exact (sizes_account_iinc index increment).bind fun _ => .after (tame_emit bs) fun _ => .pure _
  | jump | tableSwitch | lookupSwitch => cases hi
  | _ => exact (hstraight ⟨rfl, rfl, rfl, rfl⟩).bind fun _ => .after (tame_emit bs) fun _ => .pure _

theorem sizes_writePlain (hi : hasLabels i = false) : Sizes (View.instruction i) (write i) := by
  intro w a w' hw h
  obtain ⟨-, bs, pool, -, h⟩ := write_plain_ok hi h
  exact sizes_writeBytes hi bs { w with pool := pool } a w' ⟨hw.compute, hw.sound⟩ h

/-! ### Jumps -/

/-- A jump that does not push leaves the peak as it is. -/
theorem View.grow_of_nonpos (hv : v.Sound) (hcur : v.current = some b)
    (hdel : delta ≤ 0) : v.grow delta = { v with height := v.height + delta } := by
  have hpeak := hv.peak
  simp only [View.grow, hcur]
  congr 1
  omega

/-- Successors of the current block, in the label table. -/
theorem addHeightEdges (labels : LabelTable) (block : Label) (edge : HeightEdge) (targets : List Label) :
    targets.foldl (fun labels label => labels.addHeightEdge block edge label) labels =
      labels.updateSized block fun b => { b with edges := b.edges ++ (targets.map fun l => (edge, l)).toArray } := by
  induction targets generalizing labels with
  | nil =>
    refine Array.ext_getElem? fun i => ?_
    simp [LabelTable.updateSized, Array.getElem?_modify]
  | cons target targets ih =>
    rw [List.foldl_cons, ih]
    refine Array.ext_getElem? fun i => ?_
    simp only [LabelTable.addHeightEdge, LabelTable.updateSized, Array.getElem?_modify]
    split
    · simp [Option.map_map, Function.comp_def]
    · rfl

/-- The state after the current block, which leaves the stack lower by so much, gets successors. -/
theorem sizes_leave (hw : Sized w) (hcur : w.current = some b) (hdel : delta ≤ 0) (targets : List Label) :
    let w' := { w with
      height := w.height + delta
      labels := targets.foldl (fun labels l => labels.addHeightEdge b (.flow (w.height + delta)) l) w.labels }
    Sized w' ∧ view w' = ((view w).grow delta).leave targets := by
  intro w'
  have hlower : Sized { w with height := w.height + delta } := by
    refine ⟨hw.compute, hw.sound.current, ?_⟩
    have hpeak : w.height ≤ w.peak := hw.sound.peak
    show w.height + delta ≤ w.peak
    omega
  have hview : view { w with height := w.height + delta } = (view w).grow delta :=
    (View.grow_of_nonpos hw.sound hcur hdel).symm
  have hleave := view_updateSized hlower hcur fun s =>
    { s with edges := s.edges ++ (targets.map fun l => (.flow (w.height + delta), l)).toArray }
  have hview' : view w' = ((view w).grow delta).leave targets := by
    rw [← hview]
    simp only [w', addHeightEdges]
    exact hleave
  refine ⟨⟨hw.compute, ?_⟩, hview'⟩
  rw [hview', ← hview]
  exact View.onCurrent_sound hlower.sound _

theorem recordJump_of_none (hw : Sized w) (hcur : w.current = none) (op base : Opcode)
    (label : Label) : recordJump op base label w = .ok none w := by
  unfold recordJump
  rw [run_get_bind]
  simp only [hw.compute, hcur]
  rfl

theorem recordJump_jump (hw : Sized w) (hcur : w.current = some b) {base : Opcode}
    (hbase : base ≠ Opcode.jsr) (op : Opcode) (label : Label) :
    recordJump op base label w = .ok none { w with
      height := w.height + base.delta
      labels := w.labels.addHeightEdge b (.flow (w.height + base.delta)) label } := by
  unfold recordJump
  rw [run_get_bind]
  conv => lhs; simp only [hw.compute, hcur, if_neg hbase]
  rfl

theorem addCallEdge (labels : LabelTable) (block label : Label) (height : Int) :
    (labels.updateSized block fun s => { s with calls := true }).addHeightEdge block (.call height) label =
      labels.updateSized block fun s => { s with calls := true, edges := s.edges.push (.call height, label) } := by
  refine Array.ext_getElem? fun i => ?_
  simp only [LabelTable.addHeightEdge, LabelTable.updateSized, Array.getElem?_modify]
  split
  · simp [Option.map_map, Function.comp_def]
  · rfl

/-- A call of a subroutine, up to where the subroutine returns to. -/
theorem recordJump_call (hw : Sized w) (hcur : w.current = some b) (op : Opcode) (label : Label) :
    ∃ w', recordJump op Opcode.jsr label w = .ok (some w.labels.size) w' ∧ w'.current = some b ∧ Sized w' ∧
      (view w').begin w.labels.size = (view w).call label := by
  let called := { w with labels := w.labels.updateSized b fun s =>
    { s with calls := true, edges := s.edges.push (.call (w.height + 1), label) } }
  have hcalled : view called = (view w).onCurrent fun s =>
      { s with calls := true, edges := s.edges.push (.call (w.height + 1), label) } :=
    view_updateSized hw hcur _
  have hsize : called.labels.size = w.labels.size := by simp [called, LabelTable.updateSized]
  refine ⟨{ called with hasSubroutines := true, labels := called.labels.push {} }, ?_, hcur, ?_, ?_⟩
  · unfold recordJump
    rw [run_get_bind]
    conv => lhs; simp only [hw.compute, hcur, if_pos, addCallEdge]
    rw [← hsize]
    rfl
  · refine ⟨hw.compute, ⟨?_, hw.sound.peak⟩⟩
    intro c hc
    have hlt : c < w.labels.size := hw.sound.current c hc
    simp only [view, Array.size_push, hsize]
    exact Nat.lt_succ_of_lt hlt
  · have hview : view { called with hasSubroutines := true, labels := called.labels.push {} } =
        { view called with fresh := (view called).fresh + 1, hasSubroutines := true } := by
      simp [view]
    rw [hview, hcalled]
    simp only [View.call, View.onCurrent, view, hcur]

variable {op : Opcode} {event : MethodEvent Label}

/-- A jump that is no call. -/
theorem View.instruction_jump (hcur : v.current = some b) (label : Label)
    (hcall : (op == Opcode.jsr || op == Opcode.jsrW) = false) :
    v.instruction (.jump op label) =
      if op == Opcode.goto || op == Opcode.gotoW then ((v.grow op.delta).leave [label]).stop
      else (v.grow op.delta).leave [label] := by
  have hne : op ≠ Opcode.jsr ∧ op ≠ Opcode.jsrW := by simpa using hcall
  have hdel : op.delta = (Instruction.jump op label : Instruction Label).delta := delta_eq_use op hne.1 hne.2
  have hfalls : (Instruction.jump op label : Instruction Label).fallsThrough = !(op == Opcode.goto || op == Opcode.gotoW) := by
    simp [fallsThrough, bne, beq_eq_false_iff_ne.2 hne.1, beq_eq_false_iff_ne.2 hne.2]
  rw [hdel]
  unfold View.instruction View.execute
  rw [hfalls]
  cases op == Opcode.goto || op == Opcode.gotoW <;>
    simp [hcur, isCall, hcall, isReturn, places]

theorem sizes_writeJump (op : Opcode) (label : Label) : Sizes (View.instruction (.jump op label)) (writeJump op label) := by
  intro w a w' hw h
  obtain ⟨base, isWide, next, w₁, w₂, -, hform, -, hrec, hemit, hrest⟩ := writeJump_ok h
  have hemitted : Sized w₁ → Sized w₂ ∧ view w₂ = view w₁ := fun hw₁ => (tame_emitJump _ _ _ _ _ : Sizes id _) w₁ _ w₂ hw₁ hemit
  obtain ⟨hcall, hgoto, hjump⟩ := jumpForm_kind op _ hform
  cases hcur : w.current with
  | none =>
    rw [recordJump_of_none hw hcur] at hrec
    cases hrec
    obtain ⟨hw₂, hview₂⟩ := hemitted hw
    have hcur₂ : w₂.current = none := (congrArg View.current hview₂).trans hcur
    simp only [hcur₂, Option.isSome_none, Bool.false_eq_true, if_false] at hrest
    cases hrest
    exact ⟨hw₂, hview₂.trans (View.instruction_of_none hcur _).symm⟩
  | some b =>
    by_cases hbase : base = Opcode.jsr
    · subst hbase
      obtain ⟨called, hrun, hcalled, hsz, hview⟩ := recordJump_call hw hcur op label
      rw [hrun] at hrec
      cases hrec
      obtain ⟨hw₂, hview₂⟩ := hemitted hsz
      have hcur₂ : w₂.current = some b := (congrArg View.current hview₂).trans hcalled
      simp only [hcur₂, Option.isSome_some, if_true] at hrest
      obtain ⟨_, w₃, hplc, hend⟩ := run_bind_ok.1 hrest
      rw [if_neg (by decide)] at hend
      cases hend
      obtain ⟨hw', hview'⟩ := sizes_placeLabel w.labels.size w₂ _ _ hw₂ hplc
      have hisCall : (Instruction.jump op label : Instruction Label).isCall = true := hcall.trans rfl
      refine ⟨hw', ?_⟩
      rw [hview', hview₂, hview]
      simp [View.instruction, View.execute, hisCall, places, view, hcur]
    · rw [recordJump_jump hw hcur hbase] at hrec
      cases hrec
      obtain ⟨hdel, hdown⟩ := hjump hbase
      rw [show base.delta = op.delta from hdel] at hemitted
      obtain ⟨hw₁, hview₁⟩ := sizes_leave hw hcur hdown [label]
      obtain ⟨hw₂, hview₂⟩ := hemitted hw₁
      have hcur₂ : w₂.current = some b := (congrArg View.current hview₂).trans hcur
      simp only [hcur₂, Option.isSome_some, if_true] at hrest
      rw [View.instruction_jump hcur label (hcall.trans (beq_eq_false_iff_ne.2 hbase)), hgoto]
      by_cases hend : base = Opcode.goto
      · rw [if_pos hend] at hrest
        obtain ⟨hw', hview'⟩ := sizes_endBlock w₂ a w' hw₂ hrest
        exact ⟨hw', by simp [hend, hview', hview₂, ← hview₁]⟩
      · rw [if_neg hend] at hrest
        cases hrest
        exact ⟨hw₂, by simp [hend, hview₂, ← hview₁]⟩

/-! ### Switches -/

theorem sizes_recordSwitch (hi : i.isCall = false ∧ i.isReturn = false ∧ i.fallsThrough = false)
    (hdel : i.delta = -1) : Sizes (View.instruction i) (recordSwitch i.places) := by
  refine .get_bind fun w hw a w' h => ?_
  obtain ⟨hcall, hreturn, hfalls⟩ := hi
  cases hcur : w.current with
  | none =>
    simp only [hw.compute, hcur] at h
    cases h
    exact ⟨hw, (View.instruction_of_none hcur i).symm⟩
  | some b =>
    simp only [hw.compute, hcur] at h
    obtain ⟨hw₁, hview₁⟩ := sizes_leave hw hcur (by omega : (-1 : Int) ≤ 0) i.places
    obtain ⟨hw', hview'⟩ := sizes_endBlock _ a w' hw₁ h
    refine ⟨hw', ?_⟩
    rw [hview', hview₁, ← hdel]
    simp [View.instruction, View.execute, hcall, hreturn, hfalls, view, hcur]

theorem sizes_writeTableSwitch (low high : Int32) (dflt : Label) (targets : List Label) :
    Sizes (View.instruction (.tableSwitch low high dflt targets))
      (writeTableSwitch low.toInt high.toInt dflt targets) := by
  refine .ite (fun _ => .throw_bind _ _) fun _ => .after (tame_checkLabels _) fun _ => .after tame_position fun _ => ?_
  refine .after (tame_emitSwitch _) fun _ => .after (tame_emitReference _ _ _) fun _ => .after (tame_emit _) fun _ => ?_
  exact .after (tame_emitReferences _ _) fun _ => sizes_recordSwitch ⟨rfl, rfl, rfl⟩ rfl

theorem sizes_writeLookupSwitch (dflt : Label) (keys : List Int32) (targets : List Label) :
    Sizes (View.instruction (.lookupSwitch dflt keys targets)) (writeLookupSwitch dflt keys targets) := by
  refine .ite (fun _ => .throw_bind _ _) fun _ => .ite (fun _ => .throw_bind _ _) fun _ => ?_
  refine .after (tame_checkLabels _) fun _ => .after tame_position fun _ => .after (tame_emitSwitch _) fun _ => ?_
  refine .after (tame_emitReference _ _ _) fun _ => .after (tame_emit _) fun _ => .after (tame_emitPairs _ _) fun _ => ?_
  exact sizes_recordSwitch ⟨rfl, rfl, rfl⟩ rfl

theorem sizes_write (i : Instruction Label) : Sizes (View.instruction i) (write i) := by
  cases i with
  | jump op target => exact sizes_writeJump op target
  | tableSwitch low high dflt targets => exact sizes_writeTableSwitch low high dflt targets
  | lookupSwitch dflt keys targets => exact sizes_writeLookupSwitch dflt keys targets
  | _ => exact sizes_writePlain rfl

/-! ### Events -/

theorem sizes_writeFrame (frame : ExplicitFrame Label) : Sizes id (writeFrame frame) :=
  tame_writeFrame (fun _ => .unseen fun _ => ⟨rfl, rfl⟩) frame

theorem sizes_writeHandler (h : Handler Label) :
    Sizes (fun v => { v with handlers := v.handlers ++ [h] }) (writeHandler h) := by
  have hpush : Sizes (fun v => { v with handlers := v.handlers ++ [h] })
      (modify fun w => { w with handlers := w.handlers.push h } : MethodM Unit) :=
    .modify (fun v hv => ⟨hv.current, hv.peak⟩) fun w _ => ⟨rfl, by simp [view]⟩
  refine .after (tame_checkLabels _) fun _ => ?_
  split
  · exact hpush
  · exact (sizes_fromPool _).after fun _ => hpush

theorem sizes_openCode : Sizes (View.event · .code) openCode := by
  have hopen : Sizes (fun v => { v with stage := .open }) (modify fun w => { w with stage := .open } : MethodM Unit) :=
    .modify (fun v hv => ⟨hv.current, hv.peak⟩) fun w _ => ⟨rfl, rfl⟩
  refine hopen.bind (g := fun v => { v with fresh := v.fresh + 1 }.begin v.fresh) fun _ => ?_
  refine .get_bind fun w hw a w' h => ?_
  rw [if_pos (by simp [hw.compute])] at h
  exact sizes_placeNew w a w' hw h

/-- What an event of the body does. -/
theorem sizes_send (hev : endsBody event = false) :
    Sizes (View.event · event) (send event) := by
  refine Sizes.get.after fun _ => .ite (fun _ => .throw_bind _ _) fun _ => ?_
  cases event with
  | code => exact sizes_openCode
  | frame frame => exact sizes_writeFrame frame
  | instruction i => exact sizes_write i
  | label l => exact sizes_placeLabel l
  | tryCatch h => exact sizes_writeHandler h
  | localVariable s => exact (tame_writeLocal s : Sizes id _)
  | lineNumber line start => exact (tame_writeLine line start : Sizes id _)
  | maxs stack locals => cases hev
  | finish => cases hev

/-- What has to hold for an event to be accepted, as far as sizing is concerned. -/
def View.Allows (v : View) : MethodEvent Label → Prop
  | .code => v.stage = .declared
  | .label l => v.stage = .open ∧ l < v.fresh ∧ v.placed l = false
  | _ => v.stage = .open

theorem send_allowed (hev : endsBody event = false)
    (hw : Sized w) (h : send event w = .ok u w') : (view w).Allows event := by
  unfold send dispatch at h
  rw [run_get_bind] at h
  dsimp only at h
  split at h
  · cases h
  · rename_i hallowed
    have hstg : event.isAllowed (view w).stage = true := by
      show event.isAllowed w.stage = true
      simpa using hallowed
    cases event with
    | label l =>
      obtain ⟨_, _, hchk, hplc⟩ := run_bind_ok.1 h
      obtain ⟨hlab, rfl⟩ := checkLabel_ok hchk
      obtain ⟨_, _, hres, -⟩ := run_bind_ok.1 hplc
      exact ⟨by simpa [MethodEvent.isAllowed] using hstg, hlab, (resolve_sized hw hlab hres).1⟩
    | maxs stack locals => cases hev
    | finish => cases hev
    | _ => simpa [MethodEvent.isAllowed, View.Allows] using hstg

end Steps

end Sizing

end JvmAssembler
