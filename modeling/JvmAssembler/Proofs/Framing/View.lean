import JvmAssembler.Proofs.Invariant

/-!
# JvmAssembler.Proofs.Framing.View

What happens to the blocks of a method while it is written, where frames are computed.

`View` is the part of the writer that inference works on later. Each instruction does the same things to it, one after the
other: it is interpreted in the current block, it is emitted, and then it may lead elsewhere, end the block, or start
another one (`View.Writes`).
-/

namespace JvmAssembler

open Success

def Instruction.isStore {L : Type} : Instruction L → Bool
  | var op _ => decide (Opcode.istore ≤ op)
  | _ => false

/-- Whether a block starts behind an instruction that control can pass. -/
def Instruction.splits {L : Type} : Instruction L → Bool
  | jump op _ => op != Opcode.goto && op != Opcode.gotoW
  | i => i.isStore

namespace Framing

/-- A function with one value replaced. -/
def set {α : Type} (f : Label → α) (l : Label) (a : α) : Label → α := fun m => if m = l then a else f m

@[simp] theorem set_self {α : Type} (f : Label → α) (l : Label) (a : α) : set f l a l = a := if_pos rfl

theorem set_of_ne {α : Type} (f : Label → α) {l m : Label} (a : α) (h : m ≠ l) : set f l a m = f m := if_neg h

@[simp] theorem set_same {α : Type} (f : Label → α) (l : Label) : set f l (f l) = f := by
  funext m
  by_cases h : m = l
  · rw [h, set_self]
  · rw [set_of_ne f _ h]

/-- What inference keeps of a method that is being written. -/
structure View where
  stage : Stage := .declared
  current : Option Label := none
  blocks : List Label := []
  /-- Nothing has been emitted since the last block started. -/
  bare : Bool := false
  /-- The label whose block another label has joined. -/
  joined : Label → Option Label := fun _ => none
  frame : Label → Option Frame := fun _ => none
  edges : Label → List (Frame.Edge × Label) := fun _ => []
  handlers : List (Handler Label) := []
  /-- The label that is made next. -/
  fresh : Label := 0
  /-- The position of the next instruction. -/
  size : Nat := 0
  pool : Pool

namespace View

/-- Successors of a block. -/
def leave (b : Label) (targets : List Label) (v : View) : View :=
  { v with edges := set v.edges b (v.edges b ++ targets.map fun l => (.normal, l)) }

/-- The current block falls through to a label. -/
def fall (l : Label) (v : View) : View :=
  match v.current with
  | none => v
  | some b => v.leave b [l]

/-- A block starts at a label. -/
def head (l : Label) (v : View) : View :=
  { v with frame := set v.frame l (some {}), blocks := v.blocks ++ [l], bare := true }

/-- A block starts at a label, and the current one falls through to it. -/
def begin (l : Label) (v : View) : View := { (v.fall l).head l with current := some l }

/-- A label joins the last block, which starts where the label is placed. -/
def join (l : Label) (v : View) : View :=
  { v with joined := set v.joined l v.blocks.getLast?, frame := set v.frame l none, current := v.blocks.getLast? }

def Placed (v : View) (l : Label) : Prop := l ∈ v.blocks ∨ v.joined l ≠ none

def place (l : Label) (v : View) : View := if v.bare then v.join l else v.begin l

/-- A label is made and used. -/
def withNew (f : Label → View → View) (v : View) : View := f v.fresh { v with fresh := v.fresh + 1 }

/-- The current block ends, and what follows belongs to none. -/
def stop : View → View := withNew fun l v => { v.head l with current := none }

/-- What an instruction does once it is emitted. -/
def follow (i : Instruction Label) (v : View) : View :=
  match v.current with
  | none => if i.isStore then v.withNew begin else v
  | some b =>
    let v := v.leave b i.places
    if i.splits then v.withNew begin else if i.fallsThrough then v else v.stop

def Places (l : Label) (v v' : View) : Prop := l < v.fresh ∧ ¬ v.Placed l ∧ v' = v.place l

/-- Constants may have been added to the pool. -/
def Rests (v v' : View) : Prop := ∃ pool, Pool.Enlarges v.pool pool ∧ v' = { v with pool := pool }

/-- Something has been emitted. -/
def Spends (v v' : View) : Prop := ∃ n, 0 < n ∧ v' = { v with bare := false, size := v.size + n }

/-- The summary of the current block has changed. -/
def Interprets (m : FrameM Unit) (v v' : View) : Prop :=
  match v.current with
  | none => v' = v
  | some b => ∃ f s, v.frame b = some f ∧ m ⟨f, v.pool⟩ = .ok () s ∧
      v' = { v with frame := set v.frame b (some s.frame), pool := s.pool }

theorem interprets_none {m : FrameM Unit} {v v' : View} (h : v.current = none) : v.Interprets m v' ↔ v' = v := by
  rw [Interprets, h]

theorem interprets_some {m : FrameM Unit} {v v' : View} {b : Label} (h : v.current = some b) :
    v.Interprets m v' ↔ ∃ f s, v.frame b = some f ∧ m ⟨f, v.pool⟩ = .ok () s ∧
      v' = { v with frame := set v.frame b (some s.frame), pool := s.pool } := by
  rw [Interprets, h]

/-- Interpreting an instruction changes frames and adds to the pool. -/
theorem Interprets.same {m : FrameM Unit} {v v' : View} (h : v.Interprets m v') :
    ∃ frame pool, v' = { v with frame := frame, pool := pool } := by
  unfold Interprets at h
  split at h
  · exact ⟨v.frame, v.pool, h⟩
  · obtain ⟨f, s, -, -, rfl⟩ := h
    exact ⟨_, s.pool, rfl⟩

@[simp] theorem fresh_fall (l : Label) (v : View) : (v.fall l).fresh = v.fresh := by
  unfold fall
  split <;> rfl

@[simp] theorem size_fall (l : Label) (v : View) : (v.fall l).size = v.size := by
  unfold fall
  split <;> rfl

/-- **What an instruction does.** -/
def Writes (i : Instruction Label) (v v' : View) : Prop :=
  ∃ v₁ v₂ v₃, v.Rests v₁ ∧ v₁.Interprets (i.interpretation v.size) v₂ ∧ v₂.Spends v₃ ∧ v' = v₃.follow i

def Sends (v v' : View) : MethodEvent Label → Prop
  | .code => v.stage = .declared ∧ v' = { v with stage := .open }.withNew place
  | .instruction i => v.stage = .open ∧ v.Writes i v'
  | .label l => v.stage = .open ∧ v.Places l v'
  | .tryCatch h => v.stage = .open ∧ { v with handlers := v.handlers ++ [h] }.Rests v'
  | .frame _ | .localVariable _ | .lineNumber .. => v.stage = .open ∧ v.Rests v'
  | .maxs .. | .finish => False

end View

/-! ### The writer -/

def startsAt (labels : LabelTable) (blocks : Array Label) (position : Nat) : Bool :=
  blocks.back?.any fun b => labels.position? b == some position

/-- What inference keeps of a method. -/
def view (w : MethodWriter) : View where
  stage := w.stage
  current := w.current
  blocks := w.blocks.toList
  bare := startsAt w.labels w.blocks w.code.size
  joined l := (w.labels.info l).canonical
  frame l := (w.labels.info l).typed.frame
  edges l := (w.labels.info l).typed.edges.toList
  handlers := w.handlers.toList
  fresh := w.labels.size
  size := w.code.size
  pool := w.pool

/-- Frames are computed for the method. -/
structure Framed (w : MethodWriter) : Prop where
  compute : w.compute = .frames
  behind : ∀ l p, w.labels.position? l = some p → p ≤ w.code.size
  last : ∀ b, w.current = some b → w.blocks.back? = some b
  placed : ∀ l, l ∈ w.blocks ∨ (w.labels.info l).canonical ≠ none → w.labels.isPlaced l = true
  frames : ∀ b ∈ w.blocks, (w.labels.info b).typed.frame ≠ none

/-- Where these steps succeed, inference sees such a change. -/
def Frames (R : View → View → Prop) {α : Type} (m : MethodM α) : Prop :=
  ∀ w a w', Framed w → m w = .ok a w' → Framed w' ∧ R (view w) (view w')

namespace Frames

variable {α β : Type} {R S : View → View → Prop}

theorem mono {m : MethodM α} (h : Frames R m) (hRS : ∀ v v', R v v' → S v v') : Frames S m := by
  intro w a w' hw hrun
  obtain ⟨hw', hview⟩ := h w a w' hw hrun
  exact ⟨hw', hRS _ _ hview⟩

theorem pure (a : α) : Frames (fun v v' => v' = v) (Pure.pure a : MethodM α) := by
  intro w b w' hw h
  cases h
  exact ⟨hw, rfl⟩

theorem throw_bind (e : Error) (k : α → MethodM β) : Frames R ((MonadExcept.throw e : MethodM α) >>= k) :=
  fun _ _ _ _ h => nomatch h

theorem get : Frames (fun v v' => v' = v) (MonadState.get : MethodM MethodWriter) := by
  intro w b w' hw h
  cases h
  exact ⟨hw, rfl⟩

theorem bind {x : MethodM α} {k : α → MethodM β} (hx : Frames R x) (hk : ∀ a, Frames S (k a)) :
    Frames (fun v v' => ∃ u, R v u ∧ S u v') (x >>= k) := by
  intro w b w' hw h
  obtain ⟨a, w₁, hfst, h⟩ := run_bind_ok.1 h
  obtain ⟨hw₁, hview₁⟩ := hx w a w₁ hw hfst
  obtain ⟨hw', hview⟩ := hk a w₁ b w' hw₁ h
  exact ⟨hw', _, hview₁, hview⟩

/-- Steps that inference does not see, and then others. -/
theorem after {x : MethodM α} {k : α → MethodM β} (hx : Frames (fun v v' => v' = v) x) (hk : ∀ a, Frames R (k a)) :
    Frames R (x >>= k) :=
  (hx.bind hk).mono fun _ _ ⟨_, hu, h⟩ => hu ▸ h

theorem ite {c : Prop} [Decidable c] {x y : MethodM α} (hx : c → Frames R x) (hy : ¬ c → Frames R y) :
    Frames R (if c then x else y) := by
  split
  · exact hx ‹_›
  · exact hy ‹_›

/-- The state is looked at before a step. -/
theorem get_bind {k : MethodWriter → MethodM α}
    (h : ∀ w, Framed w → ∀ a w', k w w = .ok a w' → Framed w' ∧ R (view w) (view w')) :
    Frames R (MonadState.get >>= k) :=
  fun w a w' hw hrun => h w hw a w' hrun

end Frames

/-! ### Steps -/

open MethodWriter LabelTable

theorem View.Rests.refl (v : View) : v.Rests v := ⟨v.pool, Std.Refl.refl _, rfl⟩

theorem View.Rests.trans {u v w : View} (h : u.Rests v) (h' : v.Rests w) : u.Rests w := by
  obtain ⟨pool, henl, rfl⟩ := h
  obtain ⟨pool', henl', rfl⟩ := h'
  exact ⟨pool', Trans.trans henl henl', rfl⟩

theorem View.Spends.trans {u v w : View} (h : u.Spends v) (h' : v.Spends w) : u.Spends w := by
  obtain ⟨n, hn, rfl⟩ := h
  obtain ⟨m, hm, rfl⟩ := h'
  exact ⟨n + m, by omega, by simp [Nat.add_assoc]⟩

theorem frames_fromPool {α : Type} {action : PoolM α} (h : Moves Pool.Enlarges action) :
    Frames View.Rests (fromPool action) := by
  intro w a w' hw hrun
  obtain ⟨pool, haction, rfl⟩ := fromPool_ok hrun
  exact ⟨⟨hw.compute, hw.behind, hw.last, hw.placed, hw.frames⟩, pool, h _ _ _ haction, rfl⟩

instance : Steps (@Frames fun v v' => v' = v) := ⟨.pure, fun _ _ _ _ _ h => (nomatch h), .get, .after⟩

theorem frames_checkLabels (labels : List Label) : Frames (fun v v' => v' = v) (checkLabels labels) := tame_checkLabels labels

theorem frames_position : Frames (fun v v' => v' = v) position := tame_position

theorem frames_useLocals (count : Nat) : Frames (fun v v' => v' = v) (useLocals count) := by
  intro w a w' hw h
  obtain rfl := run_modify_ok.1 h
  split
  · exact ⟨hw, rfl⟩
  · exact ⟨⟨hw.compute, hw.behind, hw.last, hw.placed, hw.frames⟩, rfl⟩

/-- Heights are not tracked where frames are computed. -/
theorem frames_growStack (delta : Int) : Frames (fun v v' => v' = v) (growStack delta) := by
  intro w a w' hw h
  obtain rfl := run_modify_ok.1 h
  rw [if_neg (by simp [hw.compute])]
  exact ⟨hw, rfl⟩

theorem startsAt_of_lt {labels : LabelTable} {position : Nat} (h : ∀ l p, labels.position? l = some p → p < position)
    (blocks : Array Label) : startsAt labels blocks position = false := by
  unfold startsAt
  cases blocks.back? with
  | none => rfl
  | some b =>
    rw [Option.any_some, beq_eq_false_iff_ne]
    exact fun hb => Nat.lt_irrefl _ (h b position hb)

theorem startsAt_congr {labels labels' : LabelTable} {blocks : Array Label}
    (h : ∀ b ∈ blocks, labels'.position? b = labels.position? b) (position : Nat) :
    startsAt labels' blocks position = startsAt labels blocks position := by
  unfold startsAt
  cases hb : blocks.back? with
  | none => rfl
  | some b => rw [Option.any_some, Option.any_some, h b (Array.mem_of_back? hb)]

theorem frames_emit {bytes : List UInt8} (hbs : bytes ≠ []) : Frames View.Spends (emit bytes) := by
  intro w a w' hw h
  obtain rfl := run_modify_ok.1 h
  have hlen : 0 < bytes.length := List.length_pos_iff.2 hbs
  have hsize : (w.code.write bytes).size = w.code.size + bytes.length := by simp [Bytes.write]
  have hbef : ∀ l p, w.labels.position? l = some p → p < w.code.size + bytes.length := by
    intro l p hp
    have := hw.behind l p hp
    omega
  refine ⟨⟨hw.compute, fun l p hp => ?_, hw.last, hw.placed, hw.frames⟩, bytes.length, hlen, ?_⟩
  · dsimp only at hp ⊢
    rw [hsize]
    exact Nat.le_of_lt (hbef l p hp)
  · simp only [view, hsize, startsAt_of_lt hbef]

variable {u : Unit} {w w' : MethodWriter} {b label : Label} {f : LabelInfo → LabelInfo}

/-- A change of one label. -/
theorem view_update (w : MethodWriter) (hb : b < w.labels.size)
    (hf : b ∈ w.blocks → (f (w.labels.info b)).position = (w.labels.info b).position) :
    view { w with labels := w.labels.update b f } =
      { view w with
        joined := set (view w).joined b (f (w.labels.info b)).canonical
        frame := set (view w).frame b (f (w.labels.info b)).typed.frame
        edges := set (view w).edges b (f (w.labels.info b)).typed.edges.toList } := by
  have hself := w.labels.info_update_self b f hb
  have hoth := fun l (hl : l ≠ b) => w.labels.info_update_of_ne b l f hl
  have hpos : ∀ l ∈ w.blocks, (w.labels.update b f).position? l = w.labels.position? l := by
    intro l hmem
    by_cases hl : l = b
    · subst hl
      rw [position?, hself, position?, hf hmem]
    · rw [position?, hoth l hl, position?]
  have hset : ∀ {α : Type} (g : LabelInfo → α),
      (fun l => g ((w.labels.update b f).info l)) = set (fun l => g (w.labels.info l)) b (g (f (w.labels.info b))) := by
    intro α g
    funext l
    by_cases hl : l = b
    · rw [hl, hself, set_self]
    · rw [hoth l hl, set_of_ne _ _ hl]
  simp only [view, hset fun info => info.canonical, hset fun info => info.typed.frame,
    hset fun info => info.typed.edges.toList, size_update, startsAt_congr hpos]

/-- The label that changes may be a block, which keeps its position and has a frame afterwards, or it may be placed. -/
theorem framed_update (hw : Framed w) (hb : b < w.labels.size)
    (hbeh : ∀ p, (f (w.labels.info b)).position = some p → p ≤ w.code.size)
    (hpl : b ∈ w.blocks ∨ (f (w.labels.info b)).canonical ≠ none → (f (w.labels.info b)).position.isSome)
    (hfr : b ∈ w.blocks → (f (w.labels.info b)).typed.frame ≠ none) :
    Framed { w with labels := w.labels.update b f } := by
  have hself := w.labels.info_update_self b f hb
  have hoth := fun l (hl : l ≠ b) => w.labels.info_update_of_ne b l f hl
  refine ⟨hw.compute, fun l p hp => ?_, hw.last, fun l hl => ?_, fun l hl => ?_⟩
  · dsimp only at hp ⊢
    by_cases heq : l = b
    · rw [heq, position?, hself] at hp
      exact hbeh p hp
    · rw [position?, hoth l heq] at hp
      exact hw.behind l p hp
  · dsimp only at hl ⊢
    by_cases heq : l = b
    · subst heq
      rw [hself] at hl
      rw [isPlaced, position?, hself]
      exact hpl hl
    · rw [hoth l heq] at hl
      rw [isPlaced, position?, hoth l heq]
      exact hw.placed l hl
  · dsimp only
    by_cases heq : l = b
    · subst heq
      rw [hself]
      exact hfr hl
    · rw [hoth l heq]
      exact hw.frames l hl

theorem view_updateTyped (w : MethodWriter) (hb : b < w.labels.size) (f : TypedBlock → TypedBlock) :
    view { w with labels := w.labels.updateTyped b f } =
      { view w with
        frame := set (view w).frame b (f (w.labels.info b).typed).frame
        edges := set (view w).edges b (f (w.labels.info b).typed).edges.toList } := by
  rw [updateTyped_eq, view_update w hb fun _ => rfl]
  exact congrArg (fun joined => { view w with
    joined := joined
    frame := set (view w).frame b (f (w.labels.info b).typed).frame
    edges := set (view w).edges b (f (w.labels.info b).typed).edges.toList }) (set_same (view w).joined b)

theorem view_setFrame (w : MethodWriter) (hb : b < w.labels.size) (frame : Option Frame) :
    view { w with labels := w.labels.updateTyped b fun t => { t with frame := frame } } =
      { view w with frame := set (view w).frame b frame } := by
  rw [view_updateTyped w hb]
  exact congrArg (fun edges => { view w with frame := set (view w).frame b frame, edges := edges })
    (set_same (view w).edges b)

theorem framed_updateTyped (hw : Framed w) (hb : b < w.labels.size)
    {f : TypedBlock → TypedBlock} (hf : b ∈ w.blocks → (f (w.labels.info b).typed).frame ≠ none) :
    Framed { w with labels := w.labels.updateTyped b f } := by
  rw [updateTyped_eq]
  exact framed_update hw hb (hw.behind b) (hw.placed b) hf

/-- Of references to labels inference sees nothing. -/
theorem amends_framed (hw : Framed w) (h : Amends w w') :
    Framed w' ∧ (w'.code.size = w.code.size → view w' = view w) ∧ (w.code.size < w'.code.size → (view w).Spends (view w')) := by
  obtain ⟨⟨code, labels, lines, locals, rfl⟩, hsize, hcnt, hlabs⟩ := h
  have hinfo : ∀ l, (labels.info l).position = (w.labels.info l).position ∧ (labels.info l).canonical = (w.labels.info l).canonical ∧
      (labels.info l).typed.frame = (w.labels.info l).typed.frame ∧ (labels.info l).typed.edges = (w.labels.info l).typed.edges := by
    intro l
    obtain ⟨⟨_, _, heq⟩, -⟩ := hlabs l
    dsimp only at heq
    rw [heq]
    exact ⟨rfl, rfl, rfl, rfl⟩
  have hpos : ∀ l, labels.position? l = w.labels.position? l := fun l => (hinfo l).1
  refine ⟨⟨hw.compute, fun l p hp => Nat.le_trans (hw.behind l p (hpos l ▸ hp)) hsize, hw.last, fun l hl => ?_, fun b hb => ?_⟩, ?_, ?_⟩
  · rw [isPlaced, hpos]
    exact hw.placed l (by rwa [← (hinfo l).2.1])
  · rw [(hinfo b).2.2.1]
    exact hw.frames b hb
  · intro hsame
    simp only [view, hinfo, hsame, hcnt, startsAt_congr fun b _ => hpos b]
  · intro hmore
    have hbef : ∀ l p, labels.position? l = some p → p < code.size := fun l p hp =>
      Nat.lt_of_le_of_lt (hw.behind l p (hpos l ▸ hp)) hmore
    refine ⟨code.size - w.code.size, Nat.sub_pos_of_lt hmore, ?_⟩
    simp only [view, hinfo, hcnt, startsAt_of_lt hbef, Nat.add_sub_cancel' hsize]

/-- Something may have been emitted. -/
def View.Grows (v v' : View) : Prop := v' = v ∨ v.Spends v'

theorem View.Grows.trans {u v w : View} (h : u.Grows v) (h' : v.Grows w) : u.Grows w := by
  rcases h with rfl | h
  · exact h'
  · exact .inr (h'.elim (fun heq => heq ▸ h) h.trans)

instance : Emitting (@Frames View.Grows) where
  pure a := (Frames.pure a).mono fun _ _ => .inl
  throw _ _ _ _ _ h := nomatch h
  get := Frames.get.mono fun _ _ => .inl
  bind hx hf := (hx.bind hf).mono fun _ _ ⟨_, hu, h⟩ => hu.trans h
  amend hf w a w' hw h := by
    obtain rfl := run_modify_ok.1 h
    obtain ⟨hfrd, hsame, hmore⟩ := amends_framed hw (hf w)
    exact ⟨hfrd, (Nat.eq_or_lt_of_le (hf w).size).imp (fun heq => hsame heq.symm) hmore⟩

/-- Something is emitted before other things are. -/
theorem Frames.spends {α β : Type} {x : MethodM α} {k : α → MethodM β} (hx : Frames View.Spends x)
    (hk : ∀ a, Frames View.Grows (k a)) : Frames View.Spends (x >>= k) :=
  (hx.bind hk).mono fun _ _ ⟨_, hu, h⟩ => h.elim (fun heq => heq ▸ hu) hu.trans

/-- A label is referred to. -/
theorem refer_framed (hw : Framed w) (label : Label) (hf : ∀ info, LabelInfo.Referred info (f info)) :
    Framed { w with labels := w.labels.update label f } ∧ view { w with labels := w.labels.update label f } = view w := by
  obtain ⟨hfrd, hsame, -⟩ := amends_framed hw (amends_update w label hf)
  exact ⟨hfrd, hsame rfl⟩

theorem frames_emitSwitch (op : Opcode) : Frames View.Spends (emitSwitch op) :=
  .spends (frames_emit (by simp)) fun _ => Steps.bind tame_position fun _ => tame_emit _

theorem frames_emitJump (op base : Opcode) (wide : Bool) (label : Label) (next : Option Label) :
    Frames View.Spends (emitJump op base wide label next) := by
  have hdirect : ∀ (op : Opcode) here wide, Frames View.Spends (do emit [op]; emitReference label here wide) :=
    fun op here wide => .spends (frames_emit (by simp)) fun _ => tame_emitReference _ _ _
  have hover : ∀ here : Nat, Frames View.Spends (do
      emitShort base.invert 8
      emit [Opcode.gotoW]
      emitReference label (here + 3) true) :=
    fun here => .spends (frames_emit (by simp)) fun _ => (hdirect _ _ _).mono fun _ _ => .inr
  refine frames_position.after fun here => Frames.get.after fun w => ?_
  refine .ite (fun _ => hdirect _ _ _) fun _ => .ite (fun _ => hdirect _ _ _) fun _ => ?_
  refine .ite (fun _ => hdirect _ _ _) fun _ => .ite (fun _ => hdirect _ _ _) fun _ => ?_
  cases next with
  | none => exact hover here
  | some next =>
    refine .after (fun w a w' hw h => ?_) fun _ => hover here
    obtain rfl := run_modify_ok.1 h
    exact refer_framed hw next fun _ => ⟨⟨_, _, rfl⟩, fun _ => rfl⟩

/-! ### Blocks -/

theorem Framed.lt_size (hw : Framed w) (hb : b ∈ w.blocks) : b < w.labels.size := by
  obtain ⟨f, hf⟩ := Option.ne_none_iff_exists'.1 (hw.frames b hb)
  exact w.labels.lt_size_of_frame b hf

theorem Framed.mem_of_current (hw : Framed w) (hb : w.current = some b) : b ∈ w.blocks :=
  Array.mem_of_back? (hw.last b hb)

theorem frames_interpret (op : Opcode) (arg : Nat) (operand : Operand) :
    Frames (View.Interprets (Interpreter.execute op arg operand)) (interpret op arg operand) := by
  intro w a w' hw h
  unfold interpret at h
  rw [hw.compute] at h
  cases hcur : w.current with
  | none =>
    rw [hcur] at h
    cases h
    exact ⟨hw, (View.interprets_none hcur).2 rfl⟩
  | some b =>
    rw [hcur] at h
    have hmem := hw.mem_of_current hcur
    have hb := hw.lt_size hmem
    obtain ⟨frame, hfr⟩ := Option.ne_none_iff_exists'.1 (hw.frames b hmem)
    dsimp only at h
    rw [hfr] at h
    dsimp only at h
    cases hrun : Interpreter.execute op arg operand ⟨frame, w.pool⟩ with
    | error e s =>
      rw [hrun] at h
      cases h
    | ok u s =>
      rw [hrun] at h
      cases h
      -- the frame is taken out of the table and put back
      rw [updateTyped_updateTyped]
      have hfrd : Framed { w with labels := w.labels.updateTyped b fun t => { t with frame := some s.frame } } :=
        framed_updateTyped hw hb fun _ => by simp
      refine ⟨⟨rfl, hfrd.behind, ?_, hfrd.placed, hfrd.frames⟩,
        (View.interprets_some hcur).2 ⟨frame, s, hfr, hrun, ?_⟩⟩
      · rw [← hcur]
        exact hfrd.last
      · refine Eq.trans ?_ (congrArg (fun v : View => { v with pool := s.pool }) (view_setFrame w hb (some s.frame)))
        simp only [view, hcur]

theorem newLabel_framed (hw : Framed w) :
    Framed { w with labels := w.labels.push {} } ∧
      view { w with labels := w.labels.push {} } = { view w with fresh := (view w).fresh + 1 } := by
  refine ⟨⟨hw.compute, fun l p hp => hw.behind l p ?_, hw.last, fun l hl => ?_, fun b hb => ?_⟩, ?_⟩
  · simpa [position?] using hp
  · simpa using hw.placed l (by simpa using hl)
  · simpa using hw.frames b hb
  · have hstarts : startsAt (w.labels.push {}) w.blocks w.code.size = startsAt w.labels w.blocks w.code.size :=
      startsAt_congr (fun b _ => by simp [position?]) _
    simp [view, hstarts]

theorem Framed.isPlaced (hw : Framed w) {l : Label} (h : (view w).Placed l) :
    w.labels.isPlaced l = true :=
  hw.placed l (h.imp_left Array.mem_toList_iff.1)

theorem resolve_framed (hw : Framed w) (hlab : label < w.labels.size) (h : resolve label w = .ok u w') :
    ¬ (view w).Placed label ∧ Framed w' ∧ view w' = view w ∧ w'.labels.position? label = some w'.code.size := by
  rcases resolve_cases label w with ⟨-, hrun⟩ | ⟨hunpl, code, marks, hsize, hrun⟩ <;> cases hrun.symm.trans h
  have hnot : ¬ (view w).Placed label := fun hpl => by simpa [isPlaced, hunpl] using hw.isPlaced hpl
  have hmem : label ∉ w.blocks := fun hmem => hnot (.inl (Array.mem_toList_iff.2 hmem))
  have hfrd : Framed { w with labels := w.labels.placed label w.code.size } :=
    framed_update hw hlab (fun p hp => Nat.le_of_eq (Option.some.inj hp).symm) (fun _ => rfl) fun hb => absurd hb hmem
  have hview : view { w with labels := w.labels.placed label w.code.size } = view w := by
    rw [placed, view_update w hlab fun hb => absurd hb hmem]
    simp only [view, set_same]
  refine ⟨hnot, ⟨hfrd.compute, fun l p hp => ?_, hfrd.last, hfrd.placed, hfrd.frames⟩, ?_, ?_⟩
  · exact hsize ▸ hfrd.behind l p hp
  · rw [← hview]
    simp only [view, hsize]
  · rw [hsize]
    exact position?_placed hlab _

/-! ### Placing labels -/

theorem placement_of_bare (hw : Framed w) (h : (view w).bare = true) :
    ∃ b, w.blocks.back? = some b ∧
      (w.current = some b ∧ w.placement = .joinCurrent b ∨ w.current = none ∧ w.placement = .joinLast b) := by
  obtain ⟨b, hback, hstarts⟩ := (Option.any_eq_true _ _).1 h
  refine ⟨b, hback, ?_⟩
  have hkept : (some b).filter (fun b => decide (w.labels.position? b = some w.code.size)) = some b := by
    simpa [Option.filter] using hstarts
  unfold placement
  dsimp only
  cases hcur : w.current with
  | none =>
    rw [hback, hkept]
    exact .inr ⟨rfl, rfl⟩
  | some c =>
    obtain rfl := Option.some.inj ((hw.last c hcur).symm.trans hback)
    rw [hkept]
    exact .inl ⟨rfl, rfl⟩

theorem placement_of_not_bare (hw : Framed w) (h : (view w).bare = false) : w.placement = .head := by
  have hback : w.blocks.back?.filter (fun b => decide (w.labels.position? b = some w.code.size)) = none := by
    rw [Option.filter_eq_none_iff]
    intro b hb hpos
    have : (view w).bare = true := (Option.any_eq_true _ _).2 ⟨b, hb, by simpa using hpos⟩
    rw [h] at this
    cases this
  have hcur : w.current.filter (fun b => decide (w.labels.position? b = some w.code.size)) = none := by
    rw [Option.filter_eq_none_iff] at hback ⊢
    exact fun b hb => hback b (hw.last b hb)
  unfold placement
  dsimp only
  rw [hback, hcur]

/-- A label becomes part of a block. -/
theorem collapse_framed {block : Label} (hw : Framed w)
    (hlab : label < w.labels.size) (hpl : w.labels.isPlaced label = true) (hnot : label ∉ w.blocks)
    (h : collapse label block w = .ok u w') :
    Framed w' ∧ view w' = { view w with
      joined := set (view w).joined label (some block), frame := set (view w).frame label none } := by
  obtain rfl := run_modify_ok.1 h
  dsimp only
  let table := w.labels.update label fun info =>
    { info with canonical := some block, typed := { info.typed with frame := none } }
  have hfrd : Framed { w with labels := table } :=
    framed_update hw hlab (hw.behind label) (fun _ => hpl) fun hmem => absurd hmem hnot
  have hview : view { w with labels := table } = { view w with
      joined := set (view w).joined label (some block), frame := set (view w).frame label none } := by
    refine (view_update w hlab fun _ => rfl).trans ?_
    exact congrArg (fun edges => { view w with
      joined := set (view w).joined label (some block), frame := set (view w).frame label none, edges := edges })
      (set_same (view w).edges label)
  obtain ⟨hw', hview'⟩ := refer_framed hfrd block (f := fun info =>
    { info with typed := { info.typed with isTarget := info.typed.isTarget || (w.labels.info label).typed.isTarget } })
    fun _ => ⟨⟨_, _, rfl⟩, fun h => by simp [h]⟩
  exact ⟨hw', hview'.trans hview⟩

theorem leave_framed (hw : Framed w) (hb : b ∈ w.blocks) (label : Label) :
    Framed { w with labels := w.labels.addTypeEdge b .normal label } ∧
      view { w with labels := w.labels.addTypeEdge b .normal label } = (view w).leave b [label] := by
  refine ⟨framed_updateTyped hw (hw.lt_size hb) (hw.frames b), (view_updateTyped w (hw.lt_size hb) _).trans ?_⟩
  simp only [View.leave, Array.toList_push, List.map_cons, List.map_nil]
  exact congrArg (fun frame => { view w with
    frame := frame, edges := set (view w).edges b ((view w).edges b ++ [(Frame.Edge.normal, label)]) }) (set_same (view w).frame b)

theorem updateCurrent_none (h : w.current = none) (f : LabelTable → Label → LabelTable) :
    updateCurrent f w = .ok () w := by
  show EStateM.Result.ok () (match w.current with
    | none => w
    | some block => { w with labels := f w.labels block }) = _
  rw [h]

theorem updateCurrent_some (h : w.current = some b)
    (f : LabelTable → Label → LabelTable) : updateCurrent f w = .ok () { w with labels := f w.labels b } := by
  show EStateM.Result.ok () (match w.current with
    | none => w
    | some block => { w with labels := f w.labels block }) = _
  rw [h]

/-- The current block goes on at a label. -/
theorem fall_framed (hw : Framed w)
    (h : updateCurrent (fun labels current => labels.addTypeEdge current .normal label) w = .ok u w') :
    Framed w' ∧ view w' = (view w).fall label ∧ ∀ l, w'.labels.position? l = w.labels.position? l := by
  unfold View.fall
  cases hcur : w.current with
  | none =>
    cases (updateCurrent_none hcur _).symm.trans h
    rw [show (view w).current = none from hcur]
    exact ⟨hw, rfl, fun _ => rfl⟩
  | some b =>
    cases (updateCurrent_some hcur _).symm.trans h
    rw [show (view w).current = some b from hcur]
    obtain ⟨hw', hview⟩ := leave_framed hw (hw.mem_of_current hcur) label
    refine ⟨hw', hview, fun l => ?_⟩
    exact w.labels.info_update_cases (P := fun i i' => i'.position = i.position) b l _ (fun _ => rfl) fun _ => rfl

/-- A block starts at a label that has just been placed. -/
theorem head_framed (hw : Framed w) (hlab : label < w.labels.size)
    (hpos : w.labels.position? label = some w.code.size) (current : Option Label)
    (hcur : ∀ b, current = some b → b = label) :
    Framed { w with
      labels := w.labels.updateTyped label fun t => { t with frame := some {} }
      blocks := w.blocks.push label
      current := current } ∧
    view { w with
      labels := w.labels.updateTyped label fun t => { t with frame := some {} }
      blocks := w.blocks.push label
      current := current } = { (view w).head label with current := current } := by
  let table := w.labels.updateTyped label fun t => { t with frame := some {} }
  have hself : table.info label = { w.labels.info label with typed := { (w.labels.info label).typed with frame := some {} } } :=
    w.labels.info_update_self label _ hlab
  have hfrd : Framed { w with labels := table } := framed_updateTyped hw hlab fun _ => by simp
  have hpos' : table.position? label = some w.code.size := by
    rw [position?, hself]
    exact hpos
  refine ⟨⟨hw.compute, hfrd.behind, fun b hb => ?_, fun l hl => ?_, fun b hb => ?_⟩, ?_⟩
  · rw [hcur b hb, Array.back?_push]
  · rcases hl with hl | hl
    · rcases Array.mem_push.1 hl with hl | rfl
      · exact hfrd.placed l (.inl hl)
      · rw [isPlaced, hpos']
        rfl
    · exact hfrd.placed l (.inr hl)
  · rcases Array.mem_push.1 hb with hb | rfl
    · exact hfrd.frames b hb
    · show (table.info b).typed.frame ≠ none
      rw [hself]
      simp
  · have hbare : startsAt table (w.blocks.push label) w.code.size = true := by simp [startsAt, hpos']
    have hview : view { w with labels := table } = { view w with frame := set (view w).frame label (some {}) } :=
      view_setFrame w hlab (some {})
    calc
      _ = { view { w with labels := table } with
            current := current, blocks := (w.blocks.push label).toList
            bare := startsAt table (w.blocks.push label) w.code.size } := rfl
      _ = { (view w).head label with current := current } := by
        rw [hview, hbare, Array.toList_push]
        rfl

theorem placeTyped_framed (hw : Framed w)
    (hlab : label < w.labels.size) (hpos : w.labels.position? label = some w.code.size)
    (hnot : ¬ (view w).Placed label) (h : placeTyped label w = .ok u w') :
    Framed w' ∧ view w' = (view w).place label := by
  have hmem : label ∉ w.blocks := fun hmem => hnot (.inl (Array.mem_toList_iff.2 hmem))
  have hpl : w.labels.isPlaced label = true := by rw [isPlaced, hpos]; rfl
  unfold placeTyped at h
  rw [run_get_bind] at h
  unfold View.place
  cases hbare : (view w).bare with
  | true =>
    rw [if_pos rfl]
    obtain ⟨b, hback, hcase⟩ := placement_of_bare hw hbare
    have hlast : (view w).blocks.getLast? = some b := by
      simpa [view, Array.back?_eq_getElem?, List.getLast?_eq_getElem?] using hback
    rcases hcase with ⟨hcur, hplacement⟩ | ⟨hcur, hplacement⟩
    · rw [hplacement] at h
      obtain ⟨hw', hview⟩ := collapse_framed hw hlab hpl hmem h
      refine ⟨hw', hview.trans ?_⟩
      rw [View.join, hlast, ← hcur]
      rfl
    · rw [hplacement] at h
      dsimp only at h
      obtain ⟨_, w₁, hedge, h⟩ := run_bind_ok.1 h
      cases (updateCurrent_none hcur _).symm.trans hedge
      obtain ⟨_, w₂, hcollapse, h⟩ := run_bind_ok.1 h
      obtain ⟨hw₂, hview⟩ := collapse_framed hw hlab hpl hmem hcollapse
      obtain rfl := run_modify_ok.1 h
      have hblks : w₂.blocks = w.blocks := by
        rw [← Array.toList_inj]
        exact congrArg View.blocks hview
      refine ⟨⟨hw₂.compute, hw₂.behind, fun c hc => ?_, hw₂.placed, hw₂.frames⟩, ?_⟩
      · cases hc
        rw [hblks, hback]
      · rw [View.join, hlast]
        exact congrArg (fun v : View => { v with current := some b }) hview
  | false =>
    rw [placement_of_not_bare hw hbare] at h
    dsimp only at h
    obtain ⟨_, w₁, hedge, h⟩ := run_bind_ok.1 h
    obtain ⟨hw₁, hview₁, hkept⟩ := fall_framed hw hedge
    have hfresh : w₁.labels.size = w.labels.size := by
      show (view w₁).fresh = (view w).fresh
      rw [hview₁, View.fresh_fall]
    have hsize : w₁.code.size = w.code.size := by
      show (view w₁).size = (view w).size
      rw [hview₁, View.size_fall]
    cases h
    obtain ⟨hw', hview⟩ := head_framed hw₁ (hfresh ▸ hlab) (by rw [hkept, hpos, hsize]) (some label)
      fun b hb => (Option.some.inj hb).symm
    exact ⟨hw', hview.trans (by rw [hview₁]; rfl)⟩

/-- Placing a label. -/
theorem frames_placeLabel (label : Label) : Frames (View.Places label) (placeLabel label) := by
  intro w a w' hw h
  obtain ⟨_, _, hchk, h⟩ := run_bind_ok.1 h
  obtain ⟨hlab, rfl⟩ := checkLabel_ok hchk
  obtain ⟨_, w₁, hres, h⟩ := run_bind_ok.1 h
  obtain ⟨hnot, hw₁, hview, hpos⟩ := resolve_framed hw hlab hres
  rw [run_get_bind, hw₁.compute] at h
  have hfresh : label < w₁.labels.size := by
    show label < (view w₁).fresh
    rw [hview]
    exact hlab
  obtain ⟨hw', hview'⟩ := placeTyped_framed hw₁ hfresh hpos (by rwa [hview]) h
  exact ⟨hw', hlab, hnot, by rw [hview', hview]⟩

/-- A label is made and placed. -/
theorem frames_placeNew : Frames (fun v v' => v' = v.withNew View.place) (newLabel >>= placeLabel) := by
  intro w a w' hw h
  obtain ⟨label, w₁, hnew, h⟩ := run_bind_ok.1 h
  cases hnew
  obtain ⟨hw₁, hview⟩ := newLabel_framed hw
  obtain ⟨hw', -, -, hview'⟩ := frames_placeLabel _ _ a w' hw₁ h
  refine ⟨hw', ?_⟩
  rw [hview', hview]
  rfl

/-- What follows belongs to no block. -/
theorem frames_endBlock : Frames (fun v v' => v' = v.stop) endBlock := by
  intro w a w' hw h
  unfold endBlock at h
  rw [run_get_bind, hw.compute] at h
  dsimp only at h
  obtain ⟨label, w₁, hnew, h⟩ := run_bind_ok.1 h
  cases hnew
  obtain ⟨hw₁, hview₁⟩ := newLabel_framed hw
  obtain ⟨_, w₂, hres, h⟩ := run_bind_ok.1 h
  obtain ⟨-, hw₂, hview₂, hpos⟩ := resolve_framed hw₁ (by simp) hres
  have hfresh : w.labels.size < w₂.labels.size := by
    show (view w).fresh < (view w₂).fresh
    rw [hview₂, hview₁]
    exact Nat.lt_succ_self _
  obtain ⟨hw', hview⟩ := head_framed hw₂ hfresh hpos none nofun
  cases h
  refine ⟨hw', hview.trans ?_⟩
  rw [hview₂, hview₁]
  rfl

end Framing

end JvmAssembler
