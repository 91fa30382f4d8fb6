import JvmAssembler.Proofs.StackHeights

/-!
# JvmAssembler.Proofs.Inference.Largest

The stack size that the iteration finds.

The machine reaches every block that edges lead to (`reached_of_arrives`), and the iteration gives the largest sum of a
height with which a block is entered and the peak of the block (`iterate_largest`). Blocks that are not reached are voided,
which takes one slot (`storeFrames_largest`).
-/

namespace JvmAssembler

open Success

namespace Inference

variable {g : Graph} {frames : Block → Option Frame} {entry : Block} {locals : Nat} {u v work : Work}

/-! ### Blocks that are reached -/

/-- A block is reached, or it is going to be. -/
def Attended (work : Work) (b : Block) : Prop := work.reached b = true ∨ b ∈ work.queue

variable {b : Block} {n : Nat} {w' : MethodWriter} {block : Label} {frame frame' : Frame} {queue queue' : List Label}

theorem Step.attended (h : Step g u v) (hb : Attended u b) : Attended v b := by
  cases h with
  | @visit b' queue f hpend hqu hf =>
    by_cases heq : b = b'
    · exact .inl (by rw [heq]; exact set_self _ _ _)
    · refine hb.imp (fun hreached => ?_) fun hmem => ?_
      · exact (set_of_ne _ _ heq).trans hreached
      · rw [hqu] at hmem
        exact (List.mem_cons.1 hmem).resolve_left heq
  | leave _ => exact hb
  | merge _ _ =>
    refine hb.imp id fun hmem => ?_
    dsimp only [Work.merged]
    split
    · exact List.mem_cons_of_mem _ hmem
    · exact hmem

/-- Blocks with an input are attended. -/
def Attends (work : Work) : Prop :=
  ∀ b f input, work.frames b = some f → f.input = some input → Attended work b

theorem Attends.step (hlive : Live g frames locals u) (hu : Attends u) (h : Step g u v) : Attends v := by
  intro b f input hf hin
  have hkept : ∀ {f input}, u.frames b = some f → f.input = some input → Attended v b := fun hf hin =>
    h.attended (hu b _ _ hf hin)
  cases h with
  | visit _ _ _ => exact hkept hf hin
  | leave _ => exact hkept hf hin
  | @merge b' s edge rest f' target changed input' pool hpend hmrg =>
    by_cases hbs : b = s
    · subst hbs
      obtain ⟨-, merged, -, -, -, -, hsame⟩ := hlive.merge hpend hmrg
      cases changed with
      | true =>
        -- the block is queued
        refine .inr ?_
        dsimp only [Work.merged]
        split
        next => exact List.mem_cons_self
        next hnot => exact Classical.not_not.1 fun hmem => hnot ⟨rfl, hmem⟩
      | false =>
        rw [frames_merged_self] at hf
        cases hf
        exact hkept hmrg.sink ((hsame rfl).symm.trans hin)
    · rw [frames_merged_of_ne _ _ _ _ _ _ _ _ hbs] at hf
      exact hkept hf hin

/-- **Every block that edges lead to is reached.** -/
theorem reached_of_arrives (hlive : Live g frames locals work) (habs : Absorbed g (Fits g) work)
    (hattends : Attends work) (hqu : work.queue = []) (hpend : work.pending = none)
    (hent : Attended work entry) (h : Arrives g frames entry b n) : work.reached b = true := by
  have hreached : ∀ {b}, Attended work b → work.reached b = true := by
    intro b hb
    exact hb.resolve_right (by simp [hqu])
  have hedge : ∀ {b s edge}, work.reached b = true → (edge, s) ∈ g.edges b → work.reached s = true := by
    intro b s edge hb hedge
    obtain ⟨f, input, hf, hin⟩ := hlive.input b (.inl hb)
    rcases habs b f edge s hb (by simp [hqu]) hf hedge with ⟨_, hrest, -⟩ | ⟨_, target, old, -, htgt, hold, -⟩
    · rw [hpend] at hrest
      cases hrest
    · exact hreached (hattends s target old htgt hold)
  induction h with
  | entry => exact hreached hent
  | normal _ _ hnorm ih => exact hedge ih hnorm
  | caught _ hcaught ih => exact hedge ih hcaught

/-! ### The iteration -/

theorem Step.reached_of_pending (h : Step g u v) (hpend : u.pending ≠ none) : v.reached = u.reached := by
  cases h with
  | visit hnone _ _ => exact absurd hnone hpend
  | merge _ _ => rfl
  | leave _ => rfl

open MethodWriter

/-- Merging a block into its successors reaches no block. -/
theorem flow_reached {w : MethodWriter} {edges : List (Frame.Edge × Label)} (hvis : Visiting w block queue)
    (h : flow block edges frame queue w = .ok (frame', queue') w') (l : Label) :
    (w'.labels.info l).typed.isReachable = (w.labels.info l).typed.isReachable := by
  induction edges generalizing w frame queue with
  | nil =>
    obtain ⟨-, rfl⟩ := run_pure_ok.1 h
    rfl
  | cons e edges ih =>
    obtain ⟨edge, label⟩ := e
    rw [flow_cons] at h
    obtain ⟨⟨frame₁, changed⟩, w₁, hmrg, h₁⟩ := run_bind_ok.1 h
    obtain ⟨queue₁, w₂, hqu, h₂⟩ := run_bind_ok.1 h₁
    obtain ⟨hstep, -, hvis₂⟩ := merge_step [] hvis hmrg hqu
    have hsame := congrFun (hstep.reached_of_pending (by simp [Work.holding])) l
    exact (ih hvis₂ h₂).trans hsame

/-- A visit reaches one block. -/
theorem visit_reached {w : MethodWriter} (hmark : Marked w (block :: queue)) (hfr : frameOf w block = some frame)
    (hflow : flow block (edgeRows (visited w block) block) frame queue (visited w block) =
      .ok (frame', queue') w') {l : Label} (hl : l ≠ block) :
    (Work.of (w'.putFrame block frame') queue').reached l = (Work.of w (block :: queue)).reached l := by
  obtain ⟨-, hvis⟩ := visit_step hmark hfr
  obtain ⟨-, -, hvis'⟩ := flow_ok hvis hflow
  obtain ⟨hleave, -⟩ := @leave_step w' block frame' queue' hvis'
  calc (Work.of (w'.putFrame block frame') queue').reached l
      = (w'.labels.info l).typed.isReachable := congrFun (hleave.reached_of_pending (by simp [Work.holding])) l
    _ = ((visited w block).labels.info l).typed.isReachable := flow_reached hvis hflow l
    _ = (Work.of w (block :: queue)).reached l := by
      have htyped : ((visited w block).labels.info l).typed = _ :=
        markVisited_typed w.labels block l (w.labels.lt_size_of_frame block hfr)
      rw [htyped, if_neg hl]
      rfl

/-- What the iteration gives: the largest sum of the height with which a block that it visits is entered and the peak of
the block. -/
theorem iterate_largest {fuel : Nat} {largest : Nat} {w : MethodWriter}
    (hmark : Marked w queue) (h : iterate fuel queue largest w = .ok n w')
    (hhts : Heights (Graph.of w) frames entry locals (Work.of w queue)) :
    largest ≤ n ∧
      (n = largest ∨ ∃ b m f, Arrives (Graph.of w) frames entry b m ∧ frames b = some f ∧ n = m + f.peak) ∧
      ∀ b, (Work.of w' []).reached b = true → (Work.of w queue).reached b = true ∨
        ∃ m f, Arrives (Graph.of w) frames entry b m ∧ frames b = some f ∧ m + f.peak ≤ n := by
  induction fuel generalizing queue largest w with
  | zero =>
    cases queue with
    | nil =>
      obtain ⟨rfl, rfl⟩ := run_pure_ok.1 h
      exact ⟨Nat.le_refl _, .inl rfl, fun b hb => .inl hb⟩
    | cons block queue => exact (run_throw_ok.1 h).elim
  | succ fuel ih =>
    cases queue with
    | nil =>
      obtain ⟨rfl, rfl⟩ := run_pure_ok.1 h
      exact ⟨Nat.le_refl _, .inl rfl, fun b hb => .inl hb⟩
    | cons block queue =>
      rw [iterate_cons] at h
      obtain ⟨frame, w₁, hvisit, haft⟩ := run_bind_ok.1 h
      obtain ⟨hfr, rfl⟩ := visitBlock_ok hvisit
      obtain ⟨w₂, w₃, hget, hflows⟩ := run_bind_ok.1 haft
      obtain ⟨rfl, rfl⟩ := run_get_ok.1 hget
      obtain ⟨⟨frame', queue'⟩, w₄, hflow, hput⟩ := run_bind_ok.1 hflows
      obtain ⟨_, w₅, hupd, hiter⟩ := run_bind_ok.1 hput
      obtain rfl := run_modify_ok.1 hupd
      obtain ⟨hruns, hsame, hmark'⟩ := visit_ok hmark hfr hflow
      have hhts' := hruns.keeps Heights.step hhts
      rw [← hsame.graph] at hhts'
      obtain ⟨hle, hatt, hbound⟩ := ih hmark' hiter hhts'
      rw [hsame.graph] at hatt hbound
      -- the block that is visited is entered with the height of its input
      obtain ⟨f, input, hf, hin⟩ := hhts.live.input block (.inr List.mem_cons_self)
      obtain rfl : f = frame := Option.some.inj (hf.symm.trans hfr)
      have harr := hhts.arrives block f input hf hin
      obtain ⟨f₀, hf₀, hsummary⟩ := hhts.live.summary block f hf
      have hpeak : f.peak = f₀.peak := by rw [hsummary]
      rw [hin, hpeak] at hle hatt
      simp only [Option.map_some, Option.getD_some] at hle hatt
      refine ⟨by omega, ?_, fun b hb => ?_⟩
      · rcases hatt with hsum | hoth
        · rcases Nat.le_total (input.stack.size + f₀.peak) largest with hlow | hhigh
          · exact .inl (by omega)
          · exact .inr ⟨block, _, f₀, harr, hf₀, by omega⟩
        · exact .inr hoth
      · rcases hbound b hb with hbef | hvisited
        · by_cases hblk : b = block
          · subst hblk
            exact .inr ⟨_, f₀, harr, hf₀, by omega⟩
          · exact .inl ((visit_reached hmark hfr hflow hblk).symm.trans hbef)
        · exact .inr hvisited

/-! ### Blocks that are voided -/

/-- Some block of a list cannot be reached and has code. -/
def HasVoid (labels : LabelTable) (size : Nat) (blocks : List Label) : Prop :=
  ∃ (i : Nat) (b : Label), blocks[i]? = some b ∧ (labels.info b).typed.isReachable = false ∧
    labels.position b < ((blocks[i + 1]?).map labels.position).getD size

theorem hasVoid_cons {labels : LabelTable} {size : Nat} {rest : List Label} :
    HasVoid labels size (block :: rest) ↔
      (labels.info block).typed.isReachable = false ∧
        labels.position block < (rest.head?.map labels.position).getD size ∨ HasVoid labels size rest := by
  constructor
  · rintro ⟨i, b, hb, hvoid⟩
    cases i with
    | zero =>
      cases hb
      exact .inl (by simpa [List.head?_eq_getElem?] using hvoid)
    | succ i => exact .inr ⟨i, b, by simpa using hb, by simpa using hvoid⟩
  · rintro (hvoid | ⟨i, b, hb, hvoid⟩)
    · exact ⟨0, block, rfl, by simpa [List.head?_eq_getElem?] using hvoid⟩
    · exact ⟨i + 1, b, by simpa using hb, by simpa using hvoid⟩

/-- What storing frames keeps of a method. -/
structure SameSlots (w w' : MethodWriter) : Prop where
  labels : w'.labels = w.labels
  size : w'.code.size = w.code.size
  maxLocals : w'.maxLocals = w.maxLocals

theorem SameSlots.trans {w₁ w₂ w₃ : MethodWriter} (h : SameSlots w₁ w₂) (h' : SameSlots w₂ w₃) : SameSlots w₁ w₃ :=
  ⟨h'.labels.trans h.labels, h'.size.trans h.size, h'.maxLocals.trans h.maxLocals⟩

section
variable (w : MethodWriter)

theorem sameSlots_fromPool {α : Type} (action : PoolM α) : Keeps (SameSlots w) (fromPool action) := by
  intro w' hw
  unfold fromPool
  dsimp only
  split <;> exact ⟨hw.labels, hw.size, hw.maxLocals⟩

theorem sameSlots_checked {α : Type} (result : Except Error α) : Keeps (SameSlots w) (checked result) := by
  cases result with
  | ok a => exact .pure a
  | error e => exact .throw e

theorem sameSlots_storeFrame (block : Label) (map : StackMap.Builder) : Keeps (SameSlots w) (storeFrame block map) := by
  refine .bind .get fun w' => .ite (.pure _) ?_
  split
  · exact .throw _
  · exact .bind (sameSlots_fromPool w _) fun _ => sameSlots_checked w _

end

variable {map map' : StackMap.Builder} {w' : MethodWriter} {largest : Nat} {parameters : List VerificationType}

theorem voidBlock_ok {block : Label} {next : Option Label} {voided : Bool}
    {w : MethodWriter} (h : voidBlock block next map w = .ok (map', voided) w') :
    SameSlots w w' ∧ (voided = true ↔ (w.labels.info block).typed.isReachable = false ∧
      w.labels.position block < (next.map w.labels.position).getD w.code.size) := by
  unfold voidBlock at h
  rw [run_get_bind] at h
  dsimp only at h
  split at h
  next hkept =>
    obtain ⟨heq, rfl⟩ := run_pure_ok.1 h
    cases heq
    refine ⟨⟨rfl, rfl, rfl⟩, by simp, ?_⟩
    rintro ⟨hunreached, hlt⟩
    simp only [hunreached, Bool.false_or, decide_eq_true_eq] at hkept
    exact absurd hlt (Nat.not_lt_of_le hkept)
  next hvoid =>
    obtain ⟨_, w₁, hpatch, h₁⟩ := run_bind_ok.1 h
    obtain rfl := run_modify_ok.1 hpatch
    obtain ⟨throwable, w₂, hcls, h₂⟩ := run_bind_ok.1 h₁
    obtain ⟨map₁, w₃, hpush, h₃⟩ := run_bind_ok.1 h₂
    obtain ⟨_, w₄, hremove, h₄⟩ := run_bind_ok.1 h₃
    obtain rfl := run_modify_ok.1 hremove
    obtain ⟨heq, rfl⟩ := run_pure_ok.1 h₄
    cases heq
    have hclassed := (sameSlots_fromPool w _).ok (by exact ⟨rfl, by simp, rfl⟩) hcls
    have hpushed := (sameSlots_checked w _).ok hclassed hpush
    refine ⟨⟨hpushed.labels, hpushed.size, hpushed.maxLocals⟩, fun _ => ?_, fun _ => rfl⟩
    simp only [Bool.or_eq_true, decide_eq_true_eq, not_or, Bool.not_eq_true, Nat.not_le] at hvoid
    exact hvoid

/-- Voiding takes one slot. -/
theorem storeFrames_largest {blocks : List Label} {n : Nat} {w : MethodWriter}
    (h : storeFrames blocks map largest w = .ok (map', n) w') :
    SameSlots w w' ∧ (HasVoid w.labels w.code.size blocks → n = max largest 1) ∧
      (¬ HasVoid w.labels w.code.size blocks → n = largest) := by
  induction blocks generalizing map largest w with
  | nil =>
    obtain ⟨heq, rfl⟩ := run_pure_ok.1 h
    cases heq
    exact ⟨⟨rfl, rfl, rfl⟩, by simp [HasVoid], fun _ => rfl⟩
  | cons block rest ih =>
    obtain ⟨map₁, w₁, hsto, h₁⟩ := run_bind_ok.1 h
    obtain ⟨⟨map₂, voided⟩, w₂, hvoid, h₂⟩ := run_bind_ok.1 h₁
    have hstored := (sameSlots_storeFrame w block map).ok ⟨rfl, rfl, rfl⟩ hsto
    obtain ⟨hvoided, hiff⟩ := voidBlock_ok hvoid
    have hsame := hstored.trans hvoided
    obtain ⟨hrest, hsome, hnone⟩ := ih h₂
    rw [hsame.labels, hsame.size] at hsome hnone
    rw [hstored.labels, hstored.size] at hiff
    refine ⟨hsame.trans hrest, fun h => ?_, fun h => ?_⟩
    · rw [hasVoid_cons] at h
      cases voided with
      | true =>
        by_cases hlater : HasVoid w.labels w.code.size rest
        · rw [hsome hlater]
          simp
        · rw [hnone hlater]
          simp
      | false =>
        have hlater := h.resolve_left fun hhere => by simpa using hiff.2 hhere
        rw [hsome hlater]
        simp
    · rw [hasVoid_cons, not_or] at h
      have hkept : voided = false := Bool.eq_false_iff.2 fun hvoided => h.1 (hiff.1 hvoided)
      rw [hnone h.2, hkept]
      simp

/-! ### Inferring frames -/

/-- What inferring the frames of a method finds, with the graph of its blocks and those that are reached. -/
structure Finds (w : MethodWriter) (entry : Label) (g : Graph) (labels : LabelTable) (largest : Nat) (w' : MethodWriter) :
    Prop where
  position : ∀ l, labels.position l = w.labels.position l
  reached_iff : ∀ b, (labels.info b).typed.isReachable = true ↔ ∃ n, Arrives g (frameOf w) entry b n
  bound : ∀ b, (∃ n, Arrives g (frameOf w) entry b n) →
    ∃ n f, Arrives g (frameOf w) entry b n ∧ frameOf w b = some f ∧ n + f.peak ≤ largest
  attained : largest = 0 ∨ ∃ b n f, Arrives g (frameOf w) entry b n ∧ frameOf w b = some f ∧ largest = n + f.peak
  void : HasVoid labels w.code.size w.blocks.toList → w'.maxStack = max largest 1
  noVoid : ¬ HasVoid labels w.code.size w.blocks.toList → w'.maxStack = largest
  maxLocals : w'.maxLocals = w.maxLocals

/-- At the start of the iteration, only the entry has an input, and it is queued. -/
theorem attends_of_prepared {w : MethodWriter} {entry : Label} (hw : w.Uninferred) (h : Prepared w entry w') :
    Attends (Work.of w' [entry]) := by
  obtain ⟨f₀, input₀, -, -, hfrs⟩ := h.frames
  intro b f input hf hin
  refine .inr (List.mem_singleton.2 (Classical.byContradiction fun hne => ?_))
  dsimp only [Work.of] at hf
  rw [hfrs, set_of_ne _ _ hne] at hf
  rw [(hw.labels b).input f hf] at hin
  cases hin

/-- Neither the input of the entry nor the queue is part of the graph. -/
theorem sameMethod_started {entry : Label} {w : MethodWriter} (h : startEntry entry w = .ok parameters w') :
    SameMethod w { w' with labels := w'.labels.updateTyped entry fun b => { b with isQueued := true } } := by
  obtain ⟨_, _, _, -, -, rfl⟩ := startEntry_ok h
  refine ⟨rfl, ?_⟩
  dsimp only
  refine .andUpdateTyped (.updateTyped _ _ ?_) _ ?_ <;> exact fun _ => rfl

/-- **What the stages of inferring frames find.** -/
theorem finds_of_stages {w caught started visited stored : MethodWriter} {entry : Label} {size : Nat} (hw : w.Uninferred)
    (h : Stages w entry caught started visited stored parameters largest size map) :
    Finds w entry (Graph.of caught) visited.labels largest { stored with maxStack := size, stackMap := some map } := by
  obtain ⟨_, hcatch⟩ := h.catches
  obtain ⟨_, hiter⟩ := h.visits
  have hprep := prepared hcatch h.starts
  have hgraph := sameMethod_started h.starts
  have hcaught := sameFrames_forM hcatch
  have hmark := marked_of_prepared hprep hw
  obtain ⟨locals, hhts⟩ := heights_of_prepared hw hprep
  obtain ⟨hruns, hsame⟩ := iterate_ok hmark hiter
  obtain ⟨-, hatt, hbound⟩ := iterate_largest hmark hiter hhts
  obtain ⟨hfinal, habs⟩ := hruns.absorbed absorbing_fits hhts (absorbed_of_prepared hw hprep _)
  have hattends := (hruns.keeps (I := fun work => Live _ _ locals work ∧ Attends work)
    (fun h hstep => ⟨h.1.step hstep, h.2.step h.1 hstep⟩) ⟨hhts.live, attends_of_prepared hw hprep⟩).2
  have hattended : Attended (Work.of visited []) entry :=
    hruns.keeps (fun hu hstep => hstep.attended hu) (.inr List.mem_cons_self)
  rw [hgraph.graph] at hfinal habs hatt hbound
  have hreached : ∀ b, (visited.labels.info b).typed.isReachable = true ↔
      ∃ n, Arrives (Graph.of caught) (frameOf w) entry b n := by
    intro b
    constructor
    · intro hb
      obtain ⟨f, input, hf, hin⟩ := hfinal.live.input b (.inl hb)
      exact ⟨_, hfinal.arrives b f input hf hin⟩
    · rintro ⟨n, harr⟩
      exact reached_of_arrives hfinal.live habs hattends rfl rfl hattended harr
  obtain ⟨hsl, hvoid, hnoVoid⟩ := storeFrames_largest h.stores
  have hrest := hgraph.trans hsame
  have hsize : visited.code.size = w.code.size := by rw [hrest.rest, hcaught.rest]
  have hblks : visited.blocks = w.blocks := by rw [hrest.rest, hcaught.rest]
  rw [hsize, hblks] at hvoid hnoVoid
  refine ⟨fun l => ?_, hreached, fun b hb => ?_, hatt, hvoid, hnoVoid, ?_⟩
  · rw [LabelTable.position, LabelTable.position, LabelTable.position?, LabelTable.position?, hrest.labels.position,
      hcaught.labels.position]
  · refine (hbound b ((hreached b).2 hb)).resolve_left fun hbef => ?_
    dsimp only [Work.of] at hbef
    rw [hprep.reached, (hw.labels b).reached] at hbef
    cases hbef
  · have hloc : visited.maxLocals = w.maxLocals := by rw [hrest.rest, hcaught.rest]
    exact hsl.maxLocals.trans hloc

theorem inferFrames_largest {w : MethodWriter} {entry : Label} {u : Unit} (hw : w.Uninferred)
    (hent : w.blocks[0]? = some entry) (h : inferFrames w = .ok u w') :
    ∃ (w₁ : MethodWriter) (labels : LabelTable) (largest : Nat) (u : PUnit),
      w.handlers.toList.forM addCatchEdges w = .ok u w₁ ∧ Finds w entry (Graph.of w₁) labels largest w' := by
  obtain ⟨caught, _, visited, _, _, largest, _, _, hstages, rfl⟩ := inferFrames_stages hent h
  obtain ⟨u, hcatch⟩ := hstages.catches
  exact ⟨caught, visited.labels, largest, u, hcatch, finds_of_stages hw hstages⟩

end Inference

end JvmAssembler
