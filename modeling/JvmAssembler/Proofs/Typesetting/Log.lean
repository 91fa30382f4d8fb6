import JvmAssembler.Proofs.Typesetting.Writing

/-!
# JvmAssembler.Proofs.Typesetting.Log

The instructions of a method that is being written, each with its chunks.

A `Line` is an instruction that was accepted. The code of a method is the chunks of its lines, and labels are placed only
where a line starts or the last one ends.
-/

namespace JvmAssembler

open Success

namespace Typesetting

open Bytes MethodWriter

/-- An instruction with its bytes, if it has no labels, and its chunks. -/
structure Line where
  instruction : Instruction Label
  bytes : List UInt8
  chunks : List Chunk

def chunksOf (log : List Line) : List Chunk := log.flatMap (·.chunks)

@[simp] theorem chunksOf_nil : chunksOf [] = [] := rfl

@[simp] theorem chunksOf_cons (line : Line) (log : List Line) : chunksOf (line :: log) = line.chunks ++ chunksOf log := rfl

@[simp] theorem chunksOf_append (log log' : List Line) : chunksOf (log ++ log') = chunksOf log ++ chunksOf log' :=
  List.flatMap_append

/-- What holds of a line at a position. Asking the pool again for its constants gives the same bytes. -/
structure Line.Sound (line : Line) (place : Label → Option Nat) (pool : Pool) (position : Nat) : Prop where
  valid : Valid line.instruction
  form : Form place position line.bytes line.instruction line.chunks
  settled : ∀ later, Pool.Enlarges pool later → plainBytes line.instruction later = .ok line.bytes later

/-- Lines that follow each other from a position on. -/
def Listed (place : Label → Option Nat) (pool : Pool) : Nat → List Line → Prop
  | _, [] => True
  | pos, line :: log => line.Sound place pool pos ∧ Listed place pool (pos + size line.chunks) log

/-- Where lines start, and where the last one ends. -/
def boundaries : Nat → List Line → List Nat
  | pos, [] => [pos]
  | pos, line :: log => pos :: boundaries (pos + size line.chunks) log

section
variable {place place' : Label → Option Nat} {pool pool' : Pool} {pos : Nat} {log log' : List Line}

/-- The pool gets more rows, and labels are placed after the last line. -/
theorem Listed.mono (h : Listed place pool pos log) (hpool : Pool.Enlarges pool pool')
    (hkept : ∀ l p, place l = some p → place' l = some p)
    (hnew : ∀ l p, place' l = some p → place l = some p ∨ p = pos + size (chunksOf log)) :
    Listed place' pool' pos log := by
  induction log generalizing pos with
  | nil => trivial
  | cons line log ih =>
    obtain ⟨⟨hvld, hform, hset⟩, hrest⟩ := h
    rw [chunksOf_cons, size_append, ← Nat.add_assoc] at hnew
    refine ⟨⟨hvld, hform.later hkept fun l p hp => (hnew l p hp).imp_right fun heq => ?_,
      fun later hlater => hset later (Trans.trans hpool hlater)⟩, ih hrest hnew⟩
    rw [heq, Nat.add_assoc]
    exact Nat.le_add_right _ _

theorem Listed.append : Listed place pool pos (log ++ log') ↔
    Listed place pool pos log ∧ Listed place pool (pos + size (chunksOf log)) log' := by
  induction log generalizing pos with
  | nil => simp [Listed]
  | cons line log ih => simp [Listed, ih, and_assoc, Nat.add_assoc]

end

theorem mem_boundaries_append {pos p : Nat} {log log' : List Line} :
    p ∈ boundaries pos (log ++ log') ↔
      p ∈ boundaries pos log ∨ p ∈ boundaries (pos + size (chunksOf log)) log' := by
  induction log generalizing pos with
  | nil =>
    have hhead : pos ∈ boundaries pos log' := by cases log' <;> simp [boundaries]
    simp only [List.nil_append, boundaries, List.mem_singleton, chunksOf_nil, size_nil, Nat.add_zero]
    exact ⟨.inr, fun h => h.elim (fun heq => heq ▸ hhead) id⟩
  | cons line log ih => simp [boundaries, ih, or_assoc, Nat.add_assoc]

/-- The last line ends at a boundary. -/
theorem end_mem_boundaries (pos : Nat) (log : List Line) : pos + size (chunksOf log) ∈ boundaries pos log := by
  induction log generalizing pos with
  | nil => simp [boundaries]
  | cons line log ih =>
    have := ih (pos + size line.chunks)
    simp only [boundaries, chunksOf_cons, size_append, ← Nat.add_assoc]
    exact List.mem_cons_of_mem _ this

/-- The code of a method is that of some lines. -/
structure Logged (w : MethodWriter) (log : List Line) : Prop where
  typeset : Typeset w (chunksOf log)
  listed : Listed w.labels.position? w.pool 0 log
  places : ∀ l p, w.labels.position? l = some p → p ∈ boundaries 0 log

namespace Logged

variable {w w' : MethodWriter} {log : List Line}

theorem size_eq (h : Logged w log) : w.code.size = size (chunksOf log) := h.typeset.size_eq

/-- More labels are placed at the end. -/
theorem places_later {labels : LabelTable} (h : Logged w log)
    (hnew : ∀ l p, labels.position? l = some p → w.labels.position? l = some p ∨ p = w.code.size) (l : Label) (p : Nat)
    (hp : labels.position? l = some p) : p ∈ boundaries 0 log := by
  rcases hnew l p hp with hold | rfl
  · exact h.places l p hold
  · rw [h.size_eq]
    simpa using end_mem_boundaries 0 log

theorem listed_later {labels : LabelTable} {pool : Pool} (h : Logged w log) (hpool : Pool.Enlarges w.pool pool)
    (hkept : ∀ l p, w.labels.position? l = some p → labels.position? l = some p)
    (hnew : ∀ l p, labels.position? l = some p → w.labels.position? l = some p ∨ p = w.code.size) :
    Listed labels.position? pool 0 log :=
  h.listed.mono hpool hkept fun l p hp => by
    rw [Nat.zero_add, ← h.size_eq]
    exact hnew l p hp

theorem quiet {n : Nat} (h : Logged w log) (hquiet : Quiet n Pool.Enlarges w w') : Logged w' log :=
  ⟨h.typeset.quiet hquiet, h.listed_later hquiet.pool hquiet.kept hquiet.placed, h.places_later hquiet.placed⟩

theorem silent {n : Nat} (h : Logged w log) (hsilent : Silent n w w') : Logged w' log :=
  h.quiet (hsilent.mono Pool.SameRows.enlarges (Nat.le_refl n))

/-- Nothing that matters has changed. -/
theorem congr (h : Logged w log) (hcode : w'.code = w.code) (hlabs : w'.labels = w.labels)
    (hover : w'.hasOversized = w.hasOversized) (hpool : Pool.Enlarges w.pool w'.pool) : Logged w' log := by
  obtain ⟨⟨htext, hwait, hbeh, hmark⟩, hlisted, hpls⟩ := h
  exact ⟨⟨by rw [hcode, hlabs]; exact htext, by rw [hlabs]; exact hwait, by rw [hcode, hlabs]; exact hbeh,
    by rw [hover, hlabs]; exact hmark⟩,
    by rw [hlabs]; exact hlisted.mono hpool (fun _ _ hp => hp) fun _ _ hp => .inl hp, by rw [hlabs]; exact hpls⟩

theorem settled {label : Label} (h : Logged w log) (hset : Settled w w' label) : Logged w' log := by
  have hkept : ∀ l p, w.labels.position? l = some p → w'.labels.position? l = some p := by
    intro l p hp
    rw [hset.others l ?_, hp]
    rintro rfl
    rw [hset.unplaced] at hp
    cases hp
  have hnew : ∀ l p, w'.labels.position? l = some p → w.labels.position? l = some p ∨ p = w.code.size := by
    intro l p hp
    by_cases hl : l = label
    · rw [hl, hset.self] at hp
      exact .inr (Option.some.inj hp).symm
    · exact .inl (hset.others l hl ▸ hp)
  exact ⟨hset.typeset h.typeset, h.listed_later (hset.pool ▸ Std.Refl.refl _) hkept hnew, h.places_later hnew⟩

/-- An instruction that is accepted becomes a line. -/
theorem write {i : Instruction Label} {u : Unit} (h : Logged w log) (hwr : write i w = .ok u w') :
    Pool.Enlarges w.pool w'.pool ∧ ∃ line, line.instruction = i ∧ Logged w' (log ++ [line]) := by
  obtain ⟨hvld, bs, pool, new, hbs, hform, u, v, hbef, hem, haft⟩ := write_sets h.typeset.behind hwr
  obtain ⟨hpool, hagain⟩ := settles_plainBytes i _ _ _ hbs
  have hst : Logged { w with pool := pool } log := h.congr rfl rfl rfl hpool
  have hu := hst.silent hbef
  have hpool' : v.pool = u.pool := by rw [hem.rest]
  have henl : Pool.Enlarges pool u.pool := hbef.pool.enlarges
  have hline : Line.Sound ⟨i, bs, new⟩ u.labels.position? u.pool (size (chunksOf log)) := by
    rw [← h.size_eq]
    refine ⟨hvld, hform.later hbef.kept fun l p hp => ?_, fun later hlater => hagain later (Trans.trans henl hlater)⟩
    exact (hbef.placed l p hp).imp_right fun heq => Nat.le_of_eq heq.symm
  have hgr : Pool.Enlarges w.pool w'.pool := by
    have hlast : Pool.Enlarges u.pool w'.pool := hpool' ▸ haft.pool.enlarges
    exact Trans.trans hpool (Trans.trans henl hlast)
  refine ⟨hgr, ⟨i, bs, new⟩, rfl, Logged.silent ⟨?_, ?_, fun l p hp => ?_⟩ haft⟩
  · have htypeset := hem.typeset hu.typeset
    rw [chunksOf_append]
    simpa using htypeset
  · rw [hem.places, hpool']
    refine Listed.append.2 ⟨hu.listed, ?_, trivial⟩
    rwa [Nat.zero_add]
  · rw [hem.places] at hp
    exact mem_boundaries_append.2 (.inl (hu.places l p hp))

end Logged

/-! ### Other events -/

section
variable {w w' : MethodWriter} {u : Unit}

def catchRow {L : Type} (h : Handler L) : PoolM Unit :=
  match h.catchType with
  | none => pure ()
  | some name => do
    let _ ← Pool.cls name

def scopeRows {L : Type} (s : LocalScope L) : PoolM Unit := do
  let _ ← Pool.utf8 s.name
  let _ ← Pool.utf8 s.descriptor
  match s.signature with
  | none => pure ()
  | some signature =>
    let _ ← Pool.utf8 signature

theorem settles_catchRow {L : Type} (h : Handler L) : Pool.Settles (catchRow h) := by
  unfold catchRow
  split
  · exact .pure _
  · exact .bind (Pool.interning_cls _).settles fun _ => .pure _

theorem settles_scopeRows {L : Type} (s : LocalScope L) : Pool.Settles (scopeRows s) := by
  refine .bind (Pool.interning_utf8 _).settles fun _ => .bind (Pool.interning_utf8 _).settles fun _ => ?_
  split
  · exact .pure _
  · exact .bind (Pool.interning_utf8 _).settles fun _ => .pure _

theorem writeHandler_ok {h : Handler Label} (hrun : writeHandler h w = .ok u w') :
    ∃ pool, catchRow h w.pool = .ok () pool ∧ w' = { w with pool := pool, handlers := w.handlers.push h } := by
  obtain ⟨_, w₁, hchk, hrun⟩ := run_bind_ok.1 hrun
  obtain ⟨-, rfl⟩ := checkLabels_ok hchk
  unfold catchRow
  cases hcatch : h.catchType with
  | none =>
    rw [hcatch] at hrun
    obtain rfl := run_modify_ok.1 hrun
    exact ⟨w.pool, rfl, rfl⟩
  | some name =>
    rw [hcatch] at hrun
    obtain ⟨row, w₁, hrow, hrun⟩ := run_bind_ok.1 hrun
    obtain ⟨pool, hpool, rfl⟩ := fromPool_ok hrow
    obtain rfl := run_modify_ok.1 hrun
    refine ⟨pool, ?_, rfl⟩
    dsimp only
    rw [run_bind_of_ok hpool]
    rfl

theorem writeLocal_ok {s : LocalScope Label} (hrun : writeLocal s w = .ok u w') :
    ∃ pool count, scopeRows s w.pool = .ok () pool ∧
      w' = { w with pool := pool, maxLocals := count, locals := w.locals.push s } := by
  obtain ⟨_, w₁, hchk, hrun⟩ := run_bind_ok.1 hrun
  obtain ⟨-, rfl⟩ := checkLabels_ok hchk
  have huse : ∀ {v : MethodWriter} {count : Nat}, (do
      useLocals count
      modify fun w => { w with locals := w.locals.push s } : MethodM Unit) v = .ok u w' →
      ∃ count, w' = { v with maxLocals := count, locals := v.locals.push s } := by
    intro v count hrun
    obtain ⟨_, v₁, hloc, hrun⟩ := run_bind_ok.1 hrun
    obtain rfl := run_modify_ok.1 hloc
    obtain rfl := run_modify_ok.1 hrun
    split
    · exact ⟨v.maxLocals, rfl⟩
    · exact ⟨_, rfl⟩
  obtain ⟨_, w₁, hrow₁, hrun⟩ := run_bind_ok.1 hrun
  obtain ⟨pool₁, hname, rfl⟩ := fromPool_ok hrow₁
  obtain ⟨_, w₂, hrow₂, hrun⟩ := run_bind_ok.1 hrun
  obtain ⟨pool₂, hdesc, rfl⟩ := fromPool_ok hrow₂
  unfold scopeRows
  rw [run_bind_of_ok hname, run_bind_of_ok hdesc]
  cases hsig : s.signature with
  | none =>
    rw [hsig] at hrun
    obtain ⟨count, rfl⟩ := huse hrun
    exact ⟨pool₂, count, rfl, rfl⟩
  | some signature =>
    rw [hsig] at hrun
    obtain ⟨_, w₃, hrow, hrun⟩ := run_bind_ok.1 hrun
    obtain ⟨pool, hpool, rfl⟩ := fromPool_ok hrow
    obtain ⟨count, rfl⟩ := huse hrun
    refine ⟨pool, count, ?_, rfl⟩
    dsimp only
    rw [run_bind_of_ok hpool]
    rfl

theorem writeLine_ok {line : UInt16} {start : Label} (hrun : writeLine line start w = .ok u w') :
    w' = { w with lines := w.lines.push (start, line) } := by
  obtain ⟨_, w₁, hchk, hrun⟩ := run_bind_ok.1 hrun
  obtain ⟨-, rfl⟩ := checkLabel_ok hchk
  exact (run_modify_ok.1 hrun).symm

/-- The body opens. Where something is computed, it starts with a block of its own. -/
theorem openCode_ok (h : openCode w = .ok u w') : Silent w.labels.size { w with stage := .open } w' := by
  obtain ⟨_, w₁, hstg, h⟩ := run_bind_ok.1 h
  obtain rfl := run_modify_ok.1 hstg
  rw [run_get_bind] at h
  split at h
  · exact Dividing.placeNew (C := @Stays _ Pool.SameRows) _ _ _ (Nat.le_refl _) h
  · obtain ⟨-, rfl⟩ := run_pure_ok.1 h
    exact Std.Refl.refl _

end

/-- **One event** of the body adds at most a line, and more rows. -/
theorem Logged.send {w w' : MethodWriter} {log : List Line} {event : MethodEvent Label} (h : Logged w log)
    (hev : endsBody event = false) {u : Unit} (hsend : send event w = .ok u w') :
    Pool.Enlarges w.pool w'.pool ∧
      ∃ lines, lines.map (·.instruction) = event.instructions ∧ Logged w' (log ++ lines) := by
  have hsame : Pool.Enlarges w.pool w'.pool → Logged w' log → Pool.Enlarges w.pool w'.pool ∧
      ∃ lines, lines.map (·.instruction) = ([] : List (Instruction Label)) ∧ Logged w' (log ++ lines) :=
    fun hpool hlog => ⟨hpool, [], rfl, by rwa [List.append_nil]⟩
  unfold MethodWriter.send dispatch at hsend
  rw [run_get_bind] at hsend
  dsimp only at hsend
  split at hsend
  · cases hsend
  · cases event with
    | maxs | finish => cases hev
    | instruction i =>
      obtain ⟨hpool, line, rfl, hlog⟩ := h.write hsend
      exact ⟨hpool, [line], rfl, hlog⟩
    | code =>
      have hopen : Logged { w with stage := .open } log := h.congr rfl rfl rfl (Std.Refl.refl _)
      have hquiet := openCode_ok hsend
      exact hsame hquiet.pool.enlarges (hopen.silent hquiet)
    | frame frame =>
      have hmap : ∀ map, Stays 0 Pool.Enlarges (modify fun w => { w with stackMap := map } : MethodM Unit) :=
        fun _ => stays_modifyGet fun _ => quiet_recorded rfl ⟨rfl, rfl⟩ (.refl _)
      have hquiet := tame_writeFrame (C := @Stays 0 Pool.Enlarges) hmap frame _ _ _ (Nat.zero_le _) hsend
      exact hsame hquiet.pool (h.quiet hquiet)
    | label label =>
      obtain ⟨v, hset, hsilent⟩ := placeLabel_settled hsend
      exact hsame (hset.pool ▸ hsilent.pool.enlarges) ((h.settled hset).silent hsilent)
    | tryCatch handler =>
      obtain ⟨pool, hrow, rfl⟩ := writeHandler_ok hsend
      have hpool := (settles_catchRow _ _ _ _ hrow).1
      exact hsame hpool (h.congr rfl rfl rfl hpool)
    | localVariable scope =>
      obtain ⟨pool, count, hrows, rfl⟩ := writeLocal_ok hsend
      have hpool := (settles_scopeRows _ _ _ _ hrows).1
      exact hsame hpool (h.congr rfl rfl rfl hpool)
    | lineNumber line start =>
      obtain rfl := writeLine_ok hsend
      exact hsame (Std.Refl.refl _) (h.congr rfl rfl rfl (Std.Refl.refl _))

theorem Logged.newLabel {w w' : MethodWriter} {log : List Line} (h : Logged w log) {l : Label}
    (hnew : MethodWriter.newLabel w = .ok l w') : Logged w' log :=
  h.silent (Recording.newLabel (C := @Stays 0 Pool.SameRows) _ _ _ (Nat.zero_le _) hnew)

theorem logged_start (context : ClassContext) (compute : Compute) (d : Declaration) (descriptor : MethodDescriptor)
    (pool : Pool) (methods : Array (Member .ofMethod)) :
    Logged (start context compute d descriptor pool methods) [] := by
  have hinfo : ∀ l, LabelTable.info (start context compute d descriptor pool methods).labels l = {} :=
    fun l => LabelTable.info_of_size_le _ _ (Nat.zero_le l)
  refine ⟨⟨rfl, fun l _ => ?_, fun l p hp => ?_, nofun⟩, trivial, fun l p hp => ?_⟩
  · rw [hinfo]
    rfl
  · rw [LabelTable.position?, hinfo] at hp
    cases hp
  · rw [LabelTable.position?, hinfo] at hp
    cases hp

/-! ### Scripts -/

/-- **The code of a method** that performs a script is that of the instructions of the script. -/
theorem logged_run {s s' : Session} {script : Script} {log : List Line} (h : s.run script = some s')
    (hlog : Logged s.writer log) :
    ∃ lines, lines.map (·.instruction) = script.instructions.map (·.map s'.label) ∧ Logged s'.writer (log ++ lines) := by
  induction script generalizing s log with
  | nil =>
    cases h
    exact ⟨[], rfl, by rwa [List.append_nil]⟩
  | cons act script ih =>
    obtain ⟨t, hact, hrest⟩ := Session.run_cons h
    cases act with
    | newLabel =>
      obtain rfl := Session.perform_newLabel hact
      exact ih hrest (hlog.newLabel rfl)
    | event e =>
      obtain ⟨hev, hpls, hmade, hsend⟩ := Session.perform_event hact
      obtain ⟨-, first, hfst, hlog'⟩ := hlog.send (by rw [MethodEvent.endsBody_map]; exact hev) hsend
      obtain ⟨lines, hlines, hlogged⟩ := ih hrest hlog'
      refine ⟨first ++ lines, ?_, by rwa [← List.append_assoc]⟩
      obtain ⟨-, hlab⟩ := Session.label_run hrest
      have hlabs : e.map s'.label = e.map s.label := MethodEvent.map_congr fun n hn => by
        rw [hlab n (by rw [hmade]; exact hpls n hn), Session.label, hmade, Session.label]
      have hins : e.instructions.map (·.map s'.label) = (e.map s.label).instructions := by
        rw [← hlabs]
        cases e <;> rfl
      have hcons : Script.instructions (.event e :: script) = e.instructions ++ Script.instructions script := rfl
      rw [List.map_append, hfst, hlines, ← hins, hcons, List.map_append]

/-! ### The end of the body -/

theorem requirePlaced_ok {labels : List Label} {w w' : MethodWriter} {u : Unit} (h : requirePlaced labels w = .ok u w') :
    w' = w ∧ ∀ l ∈ labels, w.labels.isPlaced l = true := by
  induction labels with
  | nil =>
    obtain ⟨-, rfl⟩ := run_pure_ok.1 h
    exact ⟨rfl, nofun⟩
  | cons label labels ih =>
    unfold requirePlaced at h
    rw [run_get_bind] at h
    split at h
    · cases h
    next hpl =>
      obtain ⟨rfl, hrest⟩ := ih h
      exact ⟨rfl, List.forall_mem_cons.2 ⟨by simpa using hpl, hrest⟩⟩

theorem requireHandlers_ok {handlers : List (Handler Label)} {w w' : MethodWriter} {u : Unit}
    (h : handlers.forM (fun h => requirePlaced [h.start, h.stop, h.handler]) w = .ok u w') :
    w' = w ∧ ∀ h ∈ handlers, ∀ l ∈ [h.start, h.stop, h.handler], w.labels.isPlaced l = true := by
  induction handlers with
  | nil =>
    obtain ⟨-, rfl⟩ := run_pure_ok.1 h
    exact ⟨rfl, nofun⟩
  | cons first handlers ih =>
    obtain ⟨_, w₁, hfst, hrest⟩ := run_bind_ok.1 h
    obtain ⟨rfl, hpl⟩ := requirePlaced_ok hfst
    obtain ⟨rfl, hpl'⟩ := ih hrest
    exact ⟨rfl, List.forall_mem_cons.2 ⟨hpl, hpl'⟩⟩

def settle (stack locals : Nat) : Compute → MethodM Unit
  | .asGiven => modify fun w => { w with maxStack := stack, maxLocals := locals }
  | .maxs => computeSizes
  | .frames => inferFrames

/-- **A body that is closed** has placed all its labels, those of jumps and those of handlers. -/
theorem maxs_ok {stack locals : UInt16} {w w' : MethodWriter} {u : Unit} (h : send (.maxs stack locals) w = .ok u w') :
    w.stage = .open ∧ (∀ l, (w.labels.info l).waiting = #[]) ∧
    (∀ h ∈ w.handlers.toList, ∀ l ∈ [h.start, h.stop, h.handler], w.labels.isPlaced l = true) ∧
    ∃ v, settle stack.toNat locals.toNat w.compute w = .ok () v ∧ w' = { v with stage := .sealed } := by
  rw [send_maxs_run] at h
  split at h
  next hstg =>
    unfold closeCode at h
    rw [run_get_bind] at h
    cases hidx : w.labels.findIdx? (!·.waiting.isEmpty) with
    | some label =>
      rw [hidx] at h
      cases h
    | none =>
      rw [hidx] at h
      obtain ⟨_, w₁, hpl, hrest⟩ := run_bind_ok.1 h
      obtain ⟨rfl, hhans⟩ := requireHandlers_ok hpl
      refine ⟨hstg, fun l => ?_, hhans, ?_⟩
      · rw [LabelTable.info_eq]
        cases hl : w₁.labels[l]? with
        | none => rfl
        | some info =>
          have hinfo := Array.findIdx?_eq_none_iff.1 hidx info (Array.mem_of_getElem? hl)
          simpa using hinfo
      · cases hcomp : w₁.compute <;> rw [hcomp] at hrest
        all_goals
          obtain ⟨_, v, hsettle, hseal⟩ := run_bind_ok.1 hrest
          obtain rfl := run_modify_ok.1 hseal
          exact ⟨v, hsettle, rfl⟩
  next => cases h

/-- Every label that an instruction refers to is placed when the body is closed. -/
theorem Logged.placed {w : MethodWriter} {log : List Line} (h : Logged w log)
    (hwait : ∀ l, (w.labels.info l).waiting = #[]) {i : Instruction Label} (hi : i ∈ log.map (·.instruction))
    {l : Label} (hl : l ∈ i.places) : w.labels.isPlaced l = true := by
  obtain ⟨line, hline, rfl⟩ := List.mem_map.1 hi
  obtain ⟨before, after, rfl⟩ := List.append_of_mem hline
  obtain ⟨-, hsnd, -⟩ := Listed.append.1 h.listed
  obtain ⟨c, hc, hlab⟩ := hsnd.form.label hsnd.valid hl
  cases hp : w.labels.position? l with
  | some p =>
    rw [LabelTable.isPlaced, hp]
    rfl
  | none =>
    have hsites := h.typeset.waiting l hp
    rw [hwait l] at hsites
    have hmem : c ∈ chunksOf (before ++ line :: after) := by simp [hc]
    exact absurd hsites.symm (sites_ne_nil hmem hlab 0)

end Typesetting

end JvmAssembler
