import JvmAssembler.Proofs.Framing.View

/-!
# JvmAssembler.Proofs.Framing.Writing

What the events of a method do to its blocks, where frames are computed: `frames_write` for instructions, and `frames_send`
for all events of the body.
-/

namespace JvmAssembler

open Success

namespace Framing

open MethodWriter

open Instruction (isStore places splits fallsThrough interpretation reading)

/-! ### Instructions -/

/-- An instruction that control passes, and that starts no block. -/
def Straight (i : Instruction Label) : Prop :=
  i.places = [] ∧ i.fallsThrough = true ∧ i.splits = false ∧ i.isStore = false

theorem View.leave_nil (b : Label) (v : View) : v.leave b [] = v := by
  simp [View.leave]

variable {i : Instruction Label} {v : View} {w : MethodWriter} {b : Label}

theorem View.follow_straight (hi : Straight i) (v : View) : v.follow i = v := by
  obtain ⟨hpls, hfalls, hsplits, hsto⟩ := hi
  unfold View.follow
  split
  · rw [hsto]
    rfl
  · simp only [hpls, View.leave_nil, hsplits, hfalls]
    rfl

variable {m : MethodM Unit} {u v' : View} {op base : Opcode} {α : Type}

/-- End the current block, if there is one, in some cases. -/
theorem frames_endIf (c : Bool) : Frames (fun v v' => v' = if c && v.current.isSome then v.stop else v)
    (do if c && (← get).current.isSome then endBlock) := by
  refine .get_bind fun w hw a w' h => ?_
  cases hc : c && w.current.isSome with
  | true =>
    rw [hc] at h
    obtain ⟨hw', hview⟩ := frames_endBlock w a w' hw h
    exact ⟨hw', hview.trans (if_pos hc).symm⟩
  | false =>
    rw [hc] at h
    cases h
    exact ⟨hw, (if_neg (by simpa [view] using hc)).symm⟩

/-- A store ends its block. -/
theorem frames_splitIf (c : Prop) [Decidable c] :
    Frames (fun v v' => v' = if c then v.withNew View.place else v)
      (do if c ∧ (← get).compute = .frames then placeLabel (← newLabel)) := by
  refine .get_bind fun w hw a w' h => ?_
  by_cases hc : c
  · rw [if_pos ⟨hc, hw.compute⟩] at h
    rw [if_pos hc]
    exact frames_placeNew w a w' hw h
  · rw [if_neg (by simp [hc])] at h
    rw [if_neg hc]
    cases h
    exact ⟨hw, rfl⟩

theorem frames_account (i : Instruction Label) :
    Frames (fun v v' => v.Interprets (i.interpretation v.size) v') (account i) := by
  intro w a w' hw h
  unfold account at h
  split at h
  next op index =>
    rw [run_get_bind] at h
    -- a return from a subroutine is refused
    by_cases hret : op = Opcode.ret
    · rw [if_pos ⟨hret, hw.compute⟩] at h
      cases h
    rw [if_neg (by simp [hret]), if_neg (by simp [hret])] at h
    obtain ⟨hw', u, hintp, hsame⟩ := (frames_interpret op index.toNat .none).bind
      (fun _ => (frames_growStack _).after fun _ => frames_useLocals _) w a w' hw h
    exact ⟨hw', hsame ▸ hintp⟩
  · obtain ⟨hw', u, hintp, hsame⟩ := (frames_interpret _ _ _).bind (fun _ => frames_useLocals _) w a w' hw h
    exact ⟨hw', hsame ▸ hintp⟩
  · obtain ⟨hw', u, hintp, hsame⟩ := (frames_interpret _ _ _).bind (fun _ => frames_growStack _) w a w' hw h
    exact ⟨hw', hsame ▸ hintp⟩

theorem frames_conclude (hi : hasLabels i = false) : Frames (fun v v' => v.bare = false → v' = v.follow i) (conclude i) := by
  cases i with
  | plain op =>
    refine (frames_endIf op.isExit).mono fun v v' hend _ => ?_
    rw [hend, View.follow]
    cases v.current with
    | none => simp [isStore]
    | some b => cases hexit : op.isExit <;>
        simp [places, View.leave_nil, splits, isStore, fallsThrough, hexit]
  | var op index =>
    refine (frames_splitIf (Opcode.istore ≤ op)).mono fun v v' hend hbare => ?_
    have hret : ¬ Opcode.istore ≤ op → op ≠ Opcode.ret := by
      rintro hload rfl
      exact hload (by decide)
    have hplc : v.withNew View.place = v.withNew View.begin := by simp [View.withNew, View.place, hbare]
    rw [hend, hplc, View.follow]
    by_cases hsto : Opcode.istore ≤ op <;> cases v.current <;>
      simp_all [places, View.leave_nil, splits, isStore, fallsThrough]
  | jump | tableSwitch | lookupSwitch => cases hi
  | _ => exact (Frames.pure _).mono fun v _ heq _ => heq.trans (View.follow_straight ⟨rfl, rfl, rfl, rfl⟩ v).symm

theorem View.writes_of_interprets {u' : View} (h : v.Interprets (i.interpretation v.size) u)
    (h' : u.Spends u') : v.Writes i (u'.follow i) := ⟨v, u, u', .refl v, h, h', rfl⟩

theorem frames_writePlain (hi : hasLabels i = false) : Frames (View.Writes i) (write i) := by
  intro w a w' hw h
  obtain ⟨-, bs, pool, hbs, h⟩ := write_plain_ok hi h
  have hw₁ : Framed { w with pool := pool } := ⟨hw.compute, hw.behind, hw.last, hw.placed, hw.frames⟩
  obtain ⟨hw', u, hintp, u', ⟨n, hn, rfl⟩, hfollow⟩ := ((frames_account i).bind fun _ =>
    (frames_emit (plainBytes_ne_nil hi hbs)).bind fun _ => frames_conclude hi) _ a w' hw₁ h
  exact ⟨hw', _, u, _, ⟨pool, (settles_plainBytes i _ _ _ hbs).1, rfl⟩, hintp, ⟨n, hn, rfl⟩, hfollow rfl⟩

/-! ### Jumps -/

/-- A successor of a block, which becomes a target. -/
theorem record_framed (hw : Framed w) (hb : b ∈ w.blocks) (target label : Label) :
    Framed { w with labels := (w.labels.markTarget target).addTypeEdge b .normal label } ∧
      view { w with labels := (w.labels.markTarget target).addTypeEdge b .normal label } = (view w).leave b [label] := by
  obtain ⟨hmark, hview⟩ := refer_framed hw target (f := fun info => { info with typed := { info.typed with isTarget := true } })
    fun _ => ⟨⟨_, _, rfl⟩, fun _ => rfl⟩
  obtain ⟨hw', hview'⟩ := leave_framed hmark hb label
  exact ⟨hw', hview'.trans (by rw [hview])⟩

theorem View.leave_leave (b : Label) (targets targets' : List Label) (v : View) :
    (v.leave b targets).leave b targets' = v.leave b (targets ++ targets') := by
  simp only [View.leave, set_self, List.map_append, List.append_assoc]
  congr 1
  funext l
  by_cases hl : l = b
  · rw [hl, set_self, set_self]
  · rw [set_of_ne _ _ hl, set_of_ne _ _ hl, set_of_ne _ _ hl]

/-- The successors of a block. -/
theorem records_framed (hw : Framed w) (hb : b ∈ w.blocks) (targets : List Label) :
    Framed { w with labels := targets.foldl (fun labels label =>
      (labels.markTarget (labels.first label)).addTypeEdge b .normal label) w.labels } ∧
    view { w with labels := targets.foldl (fun labels label =>
      (labels.markTarget (labels.first label)).addTypeEdge b .normal label) w.labels } = (view w).leave b targets := by
  induction targets generalizing w with
  | nil => exact ⟨hw, (View.leave_nil b _).symm⟩
  | cons target targets ih =>
    obtain ⟨hw₁, hview₁⟩ := record_framed hw hb (w.labels.first target) target
    obtain ⟨hw', hview⟩ := ih hw₁ hb
    exact ⟨hw', hview.trans (by rw [hview₁, View.leave_leave]; rfl)⟩

theorem recordJump_of_none (hcur : w.current = none) (op base : Opcode) (label : Label) :
    recordJump op base label w = .ok none w := by
  unfold recordJump
  rw [run_get_bind, hcur]
  cases w.compute <;> rfl

/-- A jump is interpreted, its block gets a successor, and a label is made for what follows. -/
theorem recordJump_framed {w' : MethodWriter} (hw : Framed w) (hcur : w.current = some b) {label : Label} {next : Option Label} (h : recordJump op base label w = .ok next w') :
    Framed w' ∧ ∃ u, (view w).Interprets (Interpreter.execute op w.code.size .none) u ∧
      if base = Opcode.goto then next = none ∧ view w' = u.leave b [label]
      else next = some u.fresh ∧ view w' = { u.leave b [label] with fresh := u.fresh + 1 } := by
  unfold recordJump at h
  rw [run_get_bind, hw.compute, hcur] at h
  dsimp only at h
  obtain ⟨_, w₁, hintr, h⟩ := run_bind_ok.1 h
  obtain ⟨hw₁, hview₁⟩ := frames_interpret _ _ _ w _ w₁ hw hintr
  obtain ⟨frame, pool, hsame⟩ := hview₁.same
  have hb : b ∈ w₁.blocks := by
    have hblks : w₁.blocks.toList = w.blocks.toList := congrArg View.blocks hsame
    rw [← Array.mem_toList_iff, hblks, Array.mem_toList_iff]
    exact hw.mem_of_current hcur
  obtain ⟨_, w₂, hrec, h⟩ := run_bind_ok.1 h
  obtain rfl := run_modify_ok.1 hrec
  obtain ⟨hw₂, hview₂⟩ := record_framed hw₁ hb (w₁.labels.first label) label
  split at h
  next hbase =>
    cases h
    exact ⟨hw₂, _, hview₁, by rw [if_pos hbase]; exact ⟨rfl, hview₂⟩⟩
  next hbase =>
    cases h
    obtain ⟨hw', hview'⟩ := newLabel_framed hw₂
    refine ⟨hw', _, hview₁, ?_⟩
    rw [hview₂] at hview'
    rw [if_neg hbase]
    refine ⟨?_, hview'⟩
    show some (view _).fresh = _
    rw [hview₂]
    rfl

theorem View.follow_jump (hcur : v.current = some b)
    (hgoto : (op == Opcode.goto || op == Opcode.gotoW) = (base == Opcode.goto))
    (hcall : (op == Opcode.jsr || op == Opcode.jsrW) = false) (label : Label) :
    v.follow (.jump op label) =
      if base = Opcode.goto then (v.leave b [label]).stop else (v.leave b [label]).withNew View.begin := by
  unfold View.follow
  rw [hcur]
  obtain ⟨hjsr, hjsrW⟩ := Bool.or_eq_false_iff.1 hcall
  by_cases hbase : base = Opcode.goto
  · rw [beq_iff_eq.2 hbase] at hgoto
    have hsplits : (op != Opcode.goto && op != Opcode.gotoW) = false := by
      rw [bne, bne, ← Bool.not_or, hgoto]
      rfl
    simp [places, splits, fallsThrough, hsplits, hbase]
  · rw [beq_eq_false_iff_ne.2 hbase] at hgoto
    have hsplits : (op != Opcode.goto && op != Opcode.gotoW) = true := by
      rw [bne, bne, ← Bool.not_or, hgoto]
      rfl
    simp [places, splits, hsplits, hbase]

theorem frames_writeJump (op : Opcode) (label : Label) : Frames (View.Writes (.jump op label)) (writeJump op label) := by
  intro w a w' hw h
  obtain ⟨base, isWide, next, w₁, w₂, -, hform, hallowed, hrec, hemit, hrest⟩ := writeJump_ok h
  obtain ⟨hcall, hgoto, -⟩ := jumpForm_kind op _ hform
  have hbase : base ≠ Opcode.jsr := fun hbase => hallowed ⟨hbase, hw.compute⟩
  cases hcur : w.current with
  | none =>
    cases (recordJump_of_none hcur op base label).symm.trans hrec
    obtain ⟨hw₂, n, hn, hview₂⟩ := frames_emitJump _ _ _ _ _ w _ w₂ hw hemit
    have hcur₂ : w₂.current = none := (congrArg View.current hview₂).trans hcur
    have hfollow : (view w₂).follow (.jump op label) = view w₂ := by
      rw [View.follow, show (view w₂).current = none from hcur₂]
      rfl
    rw [hcur₂] at hrest
    obtain ⟨-, rfl⟩ := run_pure_ok.1 hrest
    refine ⟨hw₂, ?_⟩
    rw [← hfollow]
    exact View.writes_of_interprets ((View.interprets_none hcur).2 rfl) ⟨n, hn, hview₂⟩
  | some b =>
    obtain ⟨hw₁, u, hintp, hnext⟩ := recordJump_framed hw hcur hrec
    obtain ⟨hw₂, n, hn, hview₂⟩ := frames_emitJump _ _ _ _ _ w₁ _ w₂ hw₁ hemit
    obtain ⟨frame, pool, hsame⟩ := hintp.same
    have hcurrentU : u.current = some b := (congrArg View.current hsame).trans hcur
    let v : View := { u with bare := false, size := u.size + n }
    have hspends : u.Spends v := ⟨n, hn, rfl⟩
    have hfollow : Framed w' ∧ view w' = v.follow (.jump op label) := by
      rw [View.follow_jump (v := v) hcurrentU hgoto (by rw [hcall]; simpa using hbase)]
      have hcur₂ : w₂.current = some b := by
        refine (congrArg View.current hview₂).trans ?_
        split at hnext
        · exact (congrArg View.current hnext.2).trans hcurrentU
        · exact (congrArg View.current hnext.2).trans hcurrentU
      rw [hcur₂] at hrest
      split at hnext
      next hgotoBase =>
        obtain ⟨rfl, hview₁⟩ := hnext
        rw [if_pos hgotoBase] at hrest ⊢
        obtain ⟨hw', hview⟩ := frames_endBlock w₂ a w' hw₂ hrest
        rw [hview, hview₂, hview₁]
        exact ⟨hw', rfl⟩
      next hgotoBase =>
        obtain ⟨rfl, hview₁⟩ := hnext
        rw [if_neg hgotoBase] at hrest ⊢
        obtain ⟨_, w₃, hplc, hend⟩ := run_bind_ok.1 hrest
        cases hend
        obtain ⟨hw', -, -, hview⟩ := frames_placeLabel _ w₂ _ _ hw₂ hplc
        rw [hview, hview₂, hview₁]
        exact ⟨hw', rfl⟩
    refine ⟨hfollow.1, ?_⟩
    rw [hfollow.2]
    exact View.writes_of_interprets hintp hspends

/-! ### Switches -/

/-- A switch is interpreted after it has been emitted. -/
def View.Switches (targets : List Label) (v v' : View) : Prop :=
  match v.current with
  | none => v' = v
  | some b => ∃ u, v.Interprets (Interpreter.execute Opcode.lookupSwitch 0 .none) u ∧ v' = (u.leave b targets).stop

theorem frames_recordSwitch (targets : List Label) : Frames (View.Switches targets) (recordSwitch targets) := by
  refine .get_bind fun w hw a w' h => ?_
  unfold View.Switches
  rw [hw.compute] at h
  cases hcur : w.current with
  | none =>
    rw [hcur] at h
    cases h
    rw [show (view w).current = none from hcur]
    exact ⟨hw, rfl⟩
  | some b =>
    rw [hcur] at h
    dsimp only at h
    obtain ⟨_, w₁, hintr, h⟩ := run_bind_ok.1 h
    obtain ⟨hw₁, hview₁⟩ := frames_interpret _ _ _ w _ w₁ hw hintr
    obtain ⟨_, w₂, hrec, h⟩ := run_bind_ok.1 h
    obtain rfl := run_modify_ok.1 hrec
    obtain ⟨frame, pool, hsame⟩ := hview₁.same
    have hb : b ∈ w₁.blocks := by
      have hblks : w₁.blocks.toList = w.blocks.toList := congrArg View.blocks hsame
      rw [← Array.mem_toList_iff, hblks, Array.mem_toList_iff]
      exact hw.mem_of_current hcur
    obtain ⟨hw₂, hview₂⟩ := records_framed hw₁ hb targets
    obtain ⟨hw', hview⟩ := frames_endBlock _ a w' hw₂ h
    rw [show (view w).current = some b from hcur]
    exact ⟨hw', view w₁, hview₁, by rw [hview, hview₂]⟩

/-- What is emitted first does not matter to the block. -/
theorem View.writes_of_switches {targets : List Label} (hpls : i.places = targets)
    (hsplits : i.splits = false) (hsto : i.isStore = false) (hfalls : i.fallsThrough = false)
    (hi : ∀ p, i.interpretation p = Interpreter.execute Opcode.lookupSwitch 0 .none) (hu : v.Spends u)
    (h : u.Switches targets v') : v.Writes i v' := by
  obtain ⟨n, hn, rfl⟩ := hu
  cases hcur : v.current with
  | none =>
    have hfollow : View.follow i { v with bare := false, size := v.size + n } = v' := by
      unfold View.Switches at h
      simp only [hcur] at h
      simp only [View.follow, hcur, hsto, h]
      rfl
    rw [← hfollow]
    exact View.writes_of_interprets ((View.interprets_none hcur).2 rfl) ⟨n, hn, rfl⟩
  | some b =>
    unfold View.Switches at h
    simp only [hcur] at h
    obtain ⟨u, hintp, rfl⟩ := h
    obtain ⟨f, s, hfr, hrun, rfl⟩ := (View.interprets_some rfl).1 hintp
    let x : View := { v with frame := set v.frame b (some s.frame), pool := s.pool }
    have hx : v.Interprets (i.interpretation v.size) x := by
      rw [hi]
      exact (View.interprets_some hcur).2 ⟨f, s, hfr, hrun, rfl⟩
    have hfollow : View.follow i { x with bare := false, size := x.size + n } =
        (View.leave b targets { x with bare := false, size := x.size + n }).stop := by
      simp only [View.follow, x, hcur, hpls, hsplits, hfalls]
      rfl
    have hspends : x.Spends { x with bare := false, size := x.size + n } := ⟨n, hn, rfl⟩
    have hwrites := View.writes_of_interprets hx hspends
    rw [hfollow] at hwrites
    simp only [x, hcur] at hwrites
    exact hwrites

/-- What switches have in common: the offset of the fallback, some bytes, and the rest of the table. -/
theorem frames_table {rest : MethodM Unit} {dflt : Label} {targets : List Label} (hpls : i.places = targets)
    (hsplits : i.splits = false) (hsto : i.isStore = false) (hfalls : i.fallsThrough = false)
    (hi : ∀ p, i.interpretation p = Interpreter.execute Opcode.lookupSwitch 0 .none)
    (hrest : Frames View.Grows rest) (source : Nat) (bytes : List UInt8) :
    Frames (View.Writes i) (do
      emitSwitch op
      emitReference dflt source true
      emit bytes
      rest
      recordSwitch targets) := by
  have hbs : Frames View.Spends (do
      emitSwitch op
      emitReference dflt source true
      emit bytes
      rest) :=
    .spends (frames_emitSwitch _) fun _ => Steps.bind (tame_emitReference _ _ _) fun _ =>
      Steps.bind (tame_emit _) fun _ => hrest
  have hboth := (hbs.bind fun _ => frames_recordSwitch targets).mono fun v v' ⟨u, hspends, hswitches⟩ =>
    View.writes_of_switches hpls hsplits hsto hfalls hi hspends hswitches
  simpa only [bind_assoc] using hboth

theorem frames_writeTableSwitch (low high : Int32) (dflt : Label) (targets : List Label) :
    Frames (View.Writes (.tableSwitch low high dflt targets))
      (writeTableSwitch low.toInt high.toInt dflt targets) := by
  refine .ite (fun _ => .throw_bind _ _) fun _ => (frames_checkLabels _).after fun _ => frames_position.after fun source => ?_
  exact frames_table rfl rfl rfl rfl (fun _ => by simp only [interpretation, reading]) (tame_emitReferences _ _) source _

theorem frames_writeLookupSwitch (dflt : Label) (keys : List Int32) (targets : List Label) :
    Frames (View.Writes (.lookupSwitch dflt keys targets)) (writeLookupSwitch dflt keys targets) := by
  refine .ite (fun _ => .throw_bind _ _) fun _ => .ite (fun _ => .throw_bind _ _) fun _ => ?_
  refine (frames_checkLabels _).after fun _ => frames_position.after fun source => ?_
  exact frames_table rfl rfl rfl rfl (fun _ => by simp only [interpretation, reading]) (tame_emitPairs _ _) source _

/-- **Every instruction does the same things.** -/
theorem frames_write (i : Instruction Label) : Frames (View.Writes i) (write i) := by
  cases i with
  | jump op label => exact frames_writeJump op label
  | tableSwitch low high dflt targets => exact frames_writeTableSwitch low high dflt targets
  | lookupSwitch dflt keys targets => exact frames_writeLookupSwitch dflt keys targets
  | _ => exact frames_writePlain rfl

/-! ### Events -/

theorem Frames.rests {m : MethodM α} (h : Frames (fun v v' => v' = v) m) : Frames View.Rests m :=
  h.mono fun v _ heq => heq ▸ .refl v

theorem Frames.rests_bind {β : Type} {x : MethodM α} {k : α → MethodM β} (hx : Frames View.Rests x)
    (hk : ∀ a, Frames View.Rests (k a)) : Frames View.Rests (x >>= k) :=
  (hx.bind hk).mono fun _ _ ⟨_, hu, h⟩ => hu.trans h

/-- Changes of what inference does not see. -/
theorem frames_modify {f : MethodWriter → MethodWriter} (hf : ∀ w, Framed w → Framed (f w) ∧ view (f w) = view w) :
    Frames (fun v v' => v' = v) (modify f : MethodM Unit) := by
  intro w a w' hw h
  obtain rfl := run_modify_ok.1 h
  exact hf w hw

theorem frames_writeFrame (frame : ExplicitFrame Label) : Frames View.Rests (writeFrame frame) := by
  refine .get_bind fun w hw a w' h => ?_
  rw [if_pos hw.compute] at h
  cases h
  exact ⟨hw, .refl _⟩

theorem frames_writeHandler (h : Handler Label) :
    Frames (fun v v' => View.Rests { v with handlers := v.handlers ++ [h] } v') (writeHandler h) := by
  have hpush : Frames (fun v v' => v' = { v with handlers := v.handlers ++ [h] })
      (modify fun w => { w with handlers := w.handlers.push h } : MethodM Unit) := by
    intro w a w' hw hrun
    obtain rfl := run_modify_ok.1 hrun
    exact ⟨⟨hw.compute, hw.behind, hw.last, hw.placed, hw.frames⟩, by simp [view]⟩
  refine (frames_checkLabels _).after fun _ => ?_
  split
  · exact hpush.mono fun v v' heq => heq ▸ .refl _
  · refine ((frames_fromPool (Pool.interning_cls _).settles.moves).bind fun _ => hpush).mono fun v v' => ?_
    rintro ⟨_, ⟨pool, hpool, rfl⟩, rfl⟩
    exact ⟨pool, hpool, rfl⟩

theorem frames_writeLocal (s : LocalScope Label) : Frames View.Rests (writeLocal s) := by
  have hpush : Frames View.Rests (do
      useLocals (s.index.toNat + if s.descriptor.toList.head? = some 'J' ∨ s.descriptor.toList.head? = some 'D' then 2 else 1)
      modify fun w => { w with locals := w.locals.push s } : MethodM Unit) := by
    refine ((frames_useLocals _).after fun _ => frames_modify ?_).rests
    intro w hw
    exact ⟨⟨hw.compute, hw.behind, hw.last, hw.placed, hw.frames⟩, rfl⟩
  have htext : ∀ text, Frames View.Rests (fromPool (Pool.utf8 text)) := fun text =>
    frames_fromPool (Pool.interning_utf8 text).settles.moves
  refine (frames_checkLabels _).after fun _ => .rests_bind (htext _) fun _ => .rests_bind (htext _) fun _ => ?_
  split
  · exact hpush
  · exact .rests_bind (htext _) fun _ => hpush

theorem frames_writeLine (line : UInt16) (start : Label) : Frames View.Rests (writeLine line start) := by
  refine Frames.after (fun w a w' hw h => ?_) fun _ => (frames_modify ?_).rests
  · obtain ⟨-, rfl⟩ := checkLabel_ok h
    exact ⟨hw, rfl⟩
  · intro w hw
    exact ⟨⟨hw.compute, hw.behind, hw.last, hw.placed, hw.frames⟩, rfl⟩

theorem frames_openCode : Frames (fun v v' => v' = { v with stage := .open }.withNew View.place) openCode := by
  intro w a w' hw h
  obtain ⟨_, w₁, hopen, h⟩ := run_bind_ok.1 h
  obtain rfl := run_modify_ok.1 hopen
  rw [run_get_bind, if_pos (by simp [hw.compute])] at h
  have hopen : Framed { w with stage := .open } := ⟨hw.compute, hw.behind, hw.last, hw.placed, hw.frames⟩
  exact frames_placeNew _ a w' hopen h

/-- What an event of the body does. -/
theorem frames_send {event : MethodEvent Label} (hev : endsBody event = false) :
    Frames (fun v v' => v.Sends v' event) (send event) := by
  refine .get_bind fun w hw a w' h => ?_
  dsimp only at h
  split at h
  · cases h
  next hallowed =>
    have hallowed : event.isAllowed w.stage = true := by simpa using hallowed
    -- the stage is the same for all events but the first
    have hopen : (∀ stage, event.isAllowed stage = decide (stage = .open)) → (view w).stage = .open := by
      intro hstg
      rw [hstg] at hallowed
      exact of_decide_eq_true hallowed
    cases event with
    | code =>
      obtain ⟨hw', hview⟩ := frames_openCode w a w' hw h
      exact ⟨hw', of_decide_eq_true hallowed, hview⟩
    | frame frame =>
      obtain ⟨hw', hview⟩ := frames_writeFrame frame w a w' hw h
      exact ⟨hw', hopen fun _ => rfl, hview⟩
    | instruction i =>
      obtain ⟨hw', hview⟩ := frames_write i w a w' hw h
      exact ⟨hw', hopen fun _ => rfl, hview⟩
    | label l =>
      obtain ⟨hw', hview⟩ := frames_placeLabel l w a w' hw h
      exact ⟨hw', hopen fun _ => rfl, hview⟩
    | tryCatch handler =>
      obtain ⟨hw', hview⟩ := frames_writeHandler handler w a w' hw h
      exact ⟨hw', hopen fun _ => rfl, hview⟩
    | localVariable scope =>
      obtain ⟨hw', hview⟩ := frames_writeLocal scope w a w' hw h
      exact ⟨hw', hopen fun _ => rfl, hview⟩
    | lineNumber line start =>
      obtain ⟨hw', hview⟩ := frames_writeLine line start w a w' hw h
      exact ⟨hw', hopen fun _ => rfl, hview⟩
    | maxs stack locals => cases hev
    | finish => cases hev

theorem framed_start (context : ClassContext) (d : Declaration) (descriptor : MethodDescriptor) (pool : Pool)
    (methods : Array (Member .ofMethod)) : Framed (start context .frames d descriptor pool methods) :=
  ⟨rfl, nofun, nofun, fun l hl => by simp [start, LabelTable.info] at hl, nofun⟩

theorem view_start (context : ClassContext) (d : Declaration) (descriptor : MethodDescriptor) (pool : Pool)
    (methods : Array (Member .ofMethod)) : view (start context .frames d descriptor pool methods) = { pool := pool } := by
  simp [view, start, startsAt, LabelTable.info]

end Framing

end JvmAssembler
