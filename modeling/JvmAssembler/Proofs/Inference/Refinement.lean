import JvmAssembler.Method.Inference
import JvmAssembler.Proofs.Inference.Worklist
import JvmAssembler.Proofs.Keeps
import JvmAssembler.Proofs.Labels
import JvmAssembler.Proofs.Success

/-!
# JvmAssembler.Proofs.Inference.Refinement

The iteration over the label table runs as the machine of `Worklist` does.

The table marks the blocks that are queued and takes the frame of a block away while the block is visited. The machine
does neither, so a state of the machine is read off the table together with the queue and with the frame that
is being worked on (`Work.holding`).
-/

namespace JvmAssembler

open Success

/-! ### What the iteration leaves alone -/

/-- Nothing but the label table and the pool differs, and the tables agree in part of what is known of blocks. -/
structure MethodWriter.SameBut {β : Type} (part : TypedBlock → β) (w w' : MethodWriter) : Prop where
  rest : w' = { w with labels := w'.labels, pool := w'.pool }
  labels : w.labels.Agree part w'.labels

namespace MethodWriter.SameBut

variable {β : Type} {part : TypedBlock → β} {u v w : MethodWriter}

theorem refl (w : MethodWriter) : SameBut part w w := ⟨rfl, .refl _⟩

theorem trans (h : SameBut part u v) (h' : SameBut part v w) : SameBut part u w := by
  refine ⟨?_, h.labels.trans h'.labels⟩
  rw [h'.rest, h.rest]

end MethodWriter.SameBut

def MethodWriter.putFrame (w : MethodWriter) (block : Label) (frame : Frame) : MethodWriter :=
  { w with labels := w.labels.updateTyped block fun b => { b with frame := some frame } }

namespace Inference

open MethodWriter LabelTable

def Graph.of (w : MethodWriter) : Graph where
  context := ⟨w.context.hierarchy, w.context.thisClass⟩
  edges b := (w.labels.info b).typed.edges.toList.map fun e => (e.1, w.labels.first e.2)
  position := w.labels.position

def frameOf (w : MethodWriter) (b : Block) : Option Frame := (w.labels.info b).typed.frame

/-- The state of the iteration between two visits. -/
def Work.of (w : MethodWriter) (queue : List Label) : Work where
  frames := frameOf w
  pool := w.pool
  queue := queue
  reached b := (w.labels.info b).typed.isReachable
  pending := none

/-- The state of the iteration in the middle of a visit. -/
def Work.holding (w : MethodWriter) (block : Label) (frame : Frame) (queue : List Label)
    (rest : List (Frame.Edge × Block)) : Work :=
  { Work.of w queue with frames := set (frameOf w) block (some frame), pending := some (block, rest) }

/-- The iteration leaves the edges of blocks alone. -/
abbrev SameMethod : MethodWriter → MethodWriter → Prop := SameBut TypedBlock.edges

variable {w w' : MethodWriter} {block successor : Label} {frame frame' : Frame} {e : Error} {edge : Frame.Edge} {changed : Bool}
  {queue queue' : List Label}

theorem SameMethod.graph (h : SameMethod w w') : Graph.of w' = Graph.of w := by
  have hcontext : w'.context = w.context := by rw [h.rest]
  have hfst : ∀ l, w'.labels.first l = w.labels.first l := fun l => by
    rw [LabelTable.first, LabelTable.first, h.labels.canonical]
  have hpos : w'.labels.position = w.labels.position := by
    funext l
    rw [LabelTable.position, LabelTable.position, position?, position?,
      h.labels.position]
  simp only [Graph.of, hcontext, hfst, hpos, h.labels.typed]

/-- The flags of the table say which blocks are queued. -/
structure Marked (w : MethodWriter) (queue : List Label) : Prop where
  nodup : queue.Nodup
  flags : ∀ l, (w.labels.info l).typed.isQueued = true ↔ l ∈ queue

/-! ### The steps of a visit -/

def visited (w : MethodWriter) (block : Label) : MethodWriter := { w with labels := markVisited block w.labels }

theorem visitBlock_ok (h : visitBlock block w = .ok frame w') :
    frameOf w block = some frame ∧ w' = visited w block := by
  unfold visitBlock at h
  cases hfr : (w.labels.info block).typed.frame with
  | none => simp [hfr] at h
  | some f =>
    simp only [hfr, EStateM.Result.ok.injEq] at h
    obtain ⟨rfl, rfl⟩ := h
    exact ⟨hfr, rfl⟩

theorem visitBlock_error (h : visitBlock block w = .error e w') : e = missingFrame ∧ w' = visited w block := by
  unfold visitBlock at h
  split at h
  · cases h
  · cases h
    exact ⟨rfl, rfl⟩

variable {pos fuel largest : Nat} {edges : List (Frame.Edge × Label)}

theorem mergeSelf_ok (h : mergeSelf frame edge pos w = .ok (frame', changed) w') :
    ∃ input pool, frame.merge (Graph.of w).context edge pos ⟨frame.input, w.pool⟩ =
        .ok changed ⟨input, pool⟩ ∧
      frame' = { frame with input := input } ∧ w' = { w with pool := pool } := by
  unfold mergeSelf at h
  dsimp only at h
  split at h
  · rename_i changed' t hmrg
    simp only [EStateM.Result.ok.injEq, Prod.mk.injEq] at h
    obtain ⟨⟨rfl, rfl⟩, rfl⟩ := h
    exact ⟨t.input, t.pool, hmrg, rfl, rfl⟩
  · simp at h

theorem mergeOther_ok (h : mergeOther frame edge successor pos w = .ok changed w') :
    ∃ target input pool, frameOf w successor = some target ∧
      frame.merge (Graph.of w).context edge pos ⟨target.input, w.pool⟩ = .ok changed ⟨input, pool⟩ ∧
      SameMethod w w' ∧ w'.pool = pool ∧
      (∀ l, (w'.labels.info l).typed = { (w.labels.info l).typed with
        frame := set (frameOf w) successor (some { target with input := input }) l }) := by
  unfold mergeOther at h
  cases hfr : (w.labels.info successor).typed.frame with
  | none => simp [hfr] at h
  | some target =>
    simp only [hfr] at h
    split at h
    · rename_i changed' t hmrg
      simp only [EStateM.Result.ok.injEq] at h
      obtain ⟨rfl, rfl⟩ := h
      refine ⟨target, t.input, t.pool, hfr, hmrg, ⟨rfl, ?_⟩, rfl, ?_⟩
      · dsimp only
        refine .andUpdateTyped (.updateTyped _ _ ?_) _ ?_ <;> exact fun _ => rfl
      · intro l
        have hlt := w.labels.lt_size_of_frame successor hfr
        by_cases hl : l = successor
        · subst hl
          simp only [updateTyped_eq, set_self]
          rw [info_update_self _ _ _ (by simpa using hlt),
            info_update_self _ _ _ hlt]
        · simp only [updateTyped_eq, set_of_ne _ _ hl]
          rw [info_update_of_ne _ _ _ _ hl, info_update_of_ne _ _ _ _ hl]
          rfl
    · simp at h

theorem enqueue_ok (hblk : block < w.labels.size) (hmark : Marked w queue) (h : enqueue block queue w = .ok queue' w') :
    queue' = (if block ∉ queue then block :: queue else queue) ∧ SameMethod w w' ∧ w'.pool = w.pool ∧
      Marked w' queue' ∧
      ∀ l, (w'.labels.info l).typed =
        { (w.labels.info l).typed with isQueued := (w'.labels.info l).typed.isQueued } := by
  unfold enqueue at h
  obtain ⟨w₁, w₂, hget, h⟩ := run_bind_ok.1 h
  obtain ⟨rfl, rfl⟩ := run_get_ok.1 hget
  by_cases hqueued : (w.labels.info block).typed.isQueued = true
  · rw [if_pos hqueued] at h
    obtain ⟨rfl, rfl⟩ := run_pure_ok.1 h
    have hmem := (hmark.flags block).1 hqueued
    exact ⟨by rw [if_neg (not_not_intro hmem)], .refl _, rfl, hmark, fun _ => rfl⟩
  · rw [if_neg hqueued] at h
    obtain ⟨_, w₃, hmodify, h⟩ := run_bind_ok.1 h
    obtain ⟨rfl, rfl⟩ := run_pure_ok.1 h
    obtain rfl := run_modify_ok.1 hmodify
    have hmem : block ∉ queue := fun hmem => hqueued ((hmark.flags block).2 hmem)
    refine ⟨by rw [if_pos hmem], ⟨rfl, ?_⟩, rfl, ⟨?_, ?_⟩, ?_⟩
    · dsimp only
      exact .updateTyped _ _ fun _ => rfl
    · exact List.nodup_cons.2 ⟨hmem, hmark.nodup⟩
    · intro l
      by_cases hl : l = block
      · subst hl
        simp [updateTyped_eq, info_update_self _ _ _ hblk]
      · simp only [updateTyped_eq, info_update_of_ne _ _ _ _ hl, List.mem_cons, hl,
          false_or]
        exact hmark.flags l
    · intro l
      by_cases hl : l = block
      · subst hl
        simp [updateTyped_eq, info_update_self _ _ _ hblk]
      · simp [updateTyped_eq, info_update_of_ne _ _ _ _ hl]

/-! ### A visit -/

/-- What holds of the table in the middle of a visit. -/
structure Visiting (w : MethodWriter) (block : Label) (queue : List Label) : Prop where
  inTable : block < w.labels.size
  taken : frameOf w block = none
  marked : Marked w queue

def mergeEither (block : Label) (frame : Frame) (edge : Frame.Edge) (successor : Label) (pos : Nat) :
    MethodM (Frame × Bool) :=
  if successor = block then mergeSelf frame edge pos
  else do
    let changed ← mergeOther frame edge successor pos
    pure (frame, changed)

/-- Put a successor into the queue, if its input has changed. -/
def enqueueIf (changed : Bool) (block : Label) (queue : List Label) : MethodM (List Label) :=
  if changed then enqueue block queue else pure queue

theorem flow_cons (block : Label) (edge : Frame.Edge) (lbl : Label) (edges : List (Frame.Edge × Label))
    (frame : Frame) (queue : List Label) (w : MethodWriter) :
    flow block ((edge, lbl) :: edges) frame queue w =
      (mergeEither block frame edge (w.labels.first lbl) (w.labels.position (w.labels.first lbl)) >>=
        fun r => enqueueIf r.2 (w.labels.first lbl) queue >>= fun queue =>
          flow block edges r.1 queue) w := by
  have hget : ∀ {α : Type} (f : MethodWriter → MethodM α), (get >>= f) w = f w w := fun _ => rfl
  have hrest : ∀ (frame : Frame) (changed : Bool),
      (if changed = true then do
          let queue ← enqueue (w.labels.first lbl) queue
          flow block edges frame queue
        else flow block edges frame queue) =
        enqueueIf changed (w.labels.first lbl) queue >>= fun queue => flow block edges frame queue := by
    intro frame changed
    cases changed with
    | false => exact (pure_bind _ _).symm
    | true => rfl
  rw [flow, hget, hget]
  unfold mergeEither
  dsimp only
  split
  · simp only [pure_bind, hrest]
  · simp only [bind_assoc, pure_bind, hrest]

theorem mergeEither_ok (rest : List (Frame.Edge × Block)) (hvis : Visiting w block queue)
    (h : mergeEither block frame edge successor (w.labels.position successor) w =
      .ok (frame', changed) w') :
    ∃ target input, Merges (Graph.of w) (Work.holding w block frame queue rest) block frame edge successor
        target changed input w'.pool ∧
      SameMethod w w' ∧ Visiting w' block queue ∧ successor < w.labels.size ∧
      set (frameOf w') block (some frame') =
        set (set (frameOf w) block (some frame)) successor (some { target with input := input }) ∧
      ∀ l, (w'.labels.info l).typed =
        { (w.labels.info l).typed with frame := (w'.labels.info l).typed.frame } := by
  unfold mergeEither at h
  by_cases hself : successor = block
  · subst hself
    rw [if_pos rfl] at h
    obtain ⟨input, pool, hmrg, rfl, rfl⟩ := mergeSelf_ok h
    refine ⟨frame, input, ⟨set_self _ _ _, set_self _ _ _, hmrg⟩, ⟨rfl, .refl _⟩, ?_, ?_, ?_, ?_⟩
    · exact ⟨hvis.inTable, hvis.taken, hvis.marked.nodup, hvis.marked.flags⟩
    · exact hvis.inTable
    · funext l
      by_cases hl : l = successor
      · subst hl
        rw [set_self, set_self]
      · rw [set_of_ne _ _ hl, set_of_ne _ _ hl, set_of_ne _ _ hl]
        rfl
    · exact fun l => rfl
  · rw [if_neg hself] at h
    obtain ⟨changed', w₁, hoth, h⟩ := run_bind_ok.1 h
    obtain ⟨heq, rfl⟩ := run_pure_ok.1 h
    obtain ⟨rfl, rfl⟩ : frame = frame' ∧ changed' = changed := by simpa using heq
    obtain ⟨target, input, pool, htgt, hmrg, hsame, rfl, htyped⟩ := mergeOther_ok hoth
    have hfrs : frameOf w₁ = set (frameOf w) successor (some { target with input := input }) := by
      funext l
      rw [frameOf, htyped l]
    refine ⟨target, input, ⟨set_self _ _ _, ?_, hmrg⟩, hsame, ⟨?_, ?_, hvis.marked.nodup, ?_⟩, ?_, ?_, ?_⟩
    · exact (set_of_ne _ _ hself).trans htgt
    · rw [hsame.labels.size]
      exact hvis.inTable
    · rw [hfrs, set_of_ne _ _ (Ne.symm hself)]
      exact hvis.taken
    · intro l
      rw [htyped l]
      exact hvis.marked.flags l
    · exact w.labels.lt_size_of_frame successor htgt
    · funext l
      rw [hfrs]
      by_cases hl : l = block
      · subst hl
        rw [set_self, set_of_ne _ _ (Ne.symm hself), set_self]
      · rw [set_of_ne _ _ hl]
        by_cases hs : l = successor
        · subst hs
          rw [set_self, set_self]
        · rw [set_of_ne _ _ hs, set_of_ne _ _ hs, set_of_ne _ _ hl]
    · intro l
      rw [htyped l]

/-- A merge that fails does so in the machine too. -/
theorem mergeEither_error (rest : List (Frame.Edge × Block))
    (h : mergeEither block frame edge successor (w.labels.position successor) w = .error e w') :
    SameMethod w w' ∧ (e = missingFrame ∨
      Fails (Graph.of w) (Work.holding w block frame queue ((edge, successor) :: rest)) e) := by
  unfold mergeEither at h
  by_cases hself : successor = block
  · subst hself
    rw [if_pos rfl] at h
    unfold mergeSelf at h
    dsimp only at h
    split at h
    · cases h
    · rename_i t hmrg
      cases h
      exact ⟨⟨rfl, .refl _⟩, .inr ⟨_, _, _, _, frame, frame, t, rfl, set_self _ _ _, set_self _ _ _, hmrg⟩⟩
  · rw [if_neg hself] at h
    rcases run_bind_error.1 h with hoth | ⟨_, _, _, h⟩
    · unfold mergeOther at hoth
      cases hfr : (w.labels.info successor).typed.frame with
      | none =>
        simp only [hfr] at hoth
        cases hoth
        exact ⟨.refl w, .inl rfl⟩
      | some target =>
        simp only [hfr] at hoth
        split at hoth
        · cases hoth
        · rename_i t hmrg
          cases hoth
          refine ⟨⟨rfl, ?_⟩, .inr ⟨_, _, _, _, frame, target, t, rfl, set_self _ _ _, ?_, hmrg⟩⟩
          · dsimp only
            refine .andUpdateTyped (.updateTyped _ _ ?_) _ ?_ <;> exact fun _ => rfl
          · exact (set_of_ne _ _ hself).trans hfr
    · cases h

/-- A merge and the queueing of its target are one step of the machine. -/
theorem merge_step {w₁ w₂ : MethodWriter} (rest : List (Frame.Edge × Block)) (hvis : Visiting w block queue)
    (hmrg : mergeEither block frame edge successor (w.labels.position successor) w =
      .ok (frame', changed) w₁)
    (hqu : enqueueIf changed successor queue w₁ = .ok queue' w₂) :
    Step (Graph.of w) (Work.holding w block frame queue ((edge, successor) :: rest))
        (Work.holding w₂ block frame' queue' rest) ∧
      SameMethod w w₂ ∧ Visiting w₂ block queue' := by
  obtain ⟨target, input, hmerges, hsame₁, hvis₁, hsucc, hfrs, htyped₁⟩ :=
    mergeEither_ok ((edge, successor) :: rest) hvis hmrg
  -- the queue grows if the successor has changed and was not queued
  have henqueue : queue' = (if changed = true ∧ successor ∉ queue then successor :: queue else queue) ∧
      SameMethod w₁ w₂ ∧ w₂.pool = w₁.pool ∧ Visiting w₂ block queue' ∧
      frameOf w₂ = frameOf w₁ ∧
      ∀ l, (w₂.labels.info l).typed.isReachable = (w₁.labels.info l).typed.isReachable := by
    cases changed with
    | false =>
      obtain ⟨rfl, rfl⟩ := run_pure_ok.1 hqu
      exact ⟨by simp, .refl _, rfl, hvis₁, rfl, fun _ => rfl⟩
    | true =>
      obtain ⟨hq, hsame, hpool, hmark, htyped⟩ :=
        enqueue_ok (by rw [hsame₁.labels.size]; exact hsucc) hvis₁.marked hqu
      refine ⟨by simpa using hq, hsame, hpool, ⟨?_, ?_, hmark⟩, ?_, ?_⟩
      · rw [hsame.labels.size]
        exact hvis₁.inTable
      · rw [frameOf, htyped]
        exact hvis₁.taken
      · funext l
        rw [frameOf, htyped]
        rfl
      · intro l
        rw [htyped]
  obtain ⟨hq, hsame₂, hpool, hvis₂, hfrs₂, hreachable⟩ := henqueue
  refine ⟨?_, hsame₁.trans hsame₂, hvis₂⟩
  have hstep := @Step.merge (Graph.of w) _ _ _ _ rest _ _ _ _ _ rfl hmerges
  have hnext : Work.holding w₂ block frame' queue' rest =
      (Work.holding w block frame queue ((edge, successor) :: rest)).merged block successor rest target changed
        input w₁.pool := by
    have hreached : ∀ l, (w₂.labels.info l).typed.isReachable = (w.labels.info l).typed.isReachable := by
      intro l
      rw [hreachable, htyped₁]
    simp only [Work.holding, Work.of, Work.merged, hfrs₂, hfrs, hpool, hq, hreached]
    rfl
  rw [hnext]
  exact hstep

def successors (w : MethodWriter) (edges : List (Frame.Edge × Label)) : List (Frame.Edge × Block) :=
  edges.map fun e => (e.1, w.labels.first e.2)

theorem SameMethod.successors (h : SameMethod w w') (edges : List (Frame.Edge × Label)) :
    successors w' edges = successors w edges := by
  have hfst : ∀ l, w'.labels.first l = w.labels.first l := fun l => by
    rw [LabelTable.first, LabelTable.first, h.labels.canonical]
  simp only [Inference.successors, hfst]

/-- Merging a block into its successors is a run of the machine. -/
theorem flow_ok (hvis : Visiting w block queue) (h : flow block edges frame queue w = .ok (frame', queue') w') :
    Runs (Graph.of w) (Work.holding w block frame queue (successors w edges))
        (Work.holding w' block frame' queue' []) ∧
      SameMethod w w' ∧ Visiting w' block queue' := by
  induction edges generalizing w frame queue with
  | nil =>
    obtain ⟨heq, rfl⟩ := run_pure_ok.1 h
    obtain ⟨rfl, rfl⟩ : frame = frame' ∧ queue = queue' := by simpa using heq
    exact ⟨.refl, .refl _, hvis⟩
  | cons e edges ih =>
    obtain ⟨edge, lbl⟩ := e
    rw [flow_cons] at h
    obtain ⟨⟨frame₁, changed⟩, w₁, hmrg, h⟩ := run_bind_ok.1 h
    obtain ⟨queue₁, w₂, hqu, h⟩ := run_bind_ok.1 h
    obtain ⟨hstep, hsame, hvis₂⟩ := merge_step (successors w edges) hvis hmrg hqu
    obtain ⟨hruns, hsame', hvis'⟩ := ih hvis₂ h
    rw [hsame.graph, hsame.successors] at hruns
    exact ⟨(Runs.single hstep).trans hruns, hsame.trans hsame', hvis'⟩

theorem enqueueIf_ne_error :
    enqueueIf changed block queue w ≠ .error e w' := by
  have hraises : Raises (fun _ => False) (enqueueIf changed block queue) :=
    .ite (.bind .get fun _ => .ite (.pure _) (.bind .modifyGet fun _ => .pure _)) (.pure _)
  exact fun h => hraises _ _ _ h

/-- If the merges of a block fail, so does the machine. -/
theorem flow_error (hvis : Visiting w block queue) (h : flow block edges frame queue w = .error e w') :
    SameMethod w w' ∧ (e = missingFrame ∨
      ∃ work, Runs (Graph.of w) (Work.holding w block frame queue (successors w edges)) work ∧
        Fails (Graph.of w) work e) := by
  induction edges generalizing w frame queue with
  | nil => cases h
  | cons row edges ih =>
    obtain ⟨edge, lbl⟩ := row
    rw [flow_cons] at h
    rcases run_bind_error.1 h with hmrg | ⟨⟨frame₁, changed⟩, w₁, hmrg, h⟩
    · obtain ⟨hsame, herr⟩ := mergeEither_error (successors w edges) hmrg
      exact ⟨hsame, herr.imp id fun hfails => ⟨_, .refl, hfails⟩⟩
    rcases run_bind_error.1 h with hqu | ⟨queue₁, w₂, hqu, h⟩
    · exact (enqueueIf_ne_error hqu).elim
    obtain ⟨hstep, hsame, hvis₂⟩ := merge_step (successors w edges) hvis hmrg hqu
    obtain ⟨hsame', herr⟩ := ih hvis₂ h
    refine ⟨hsame.trans hsame', herr.imp id ?_⟩
    rintro ⟨work, hruns, hfails⟩
    rw [hsame.graph, hsame.successors] at hruns
    rw [hsame.graph] at hfails
    exact ⟨work, (Runs.single hstep).trans hruns, hfails⟩

/-! ### The iteration -/

theorem markVisited_typed (labels : LabelTable) (block l : Label) (hblk : block < labels.size) :
    ((markVisited block labels).info l).typed =
      if l = block then
        { (labels.info l).typed with
          isQueued := false
          isStored := (labels.info l).typed.isStored || (labels.info l).typed.isTarget
          isReachable := true
          frame := none }
      else (labels.info l).typed := by
  unfold markVisited
  rw [updateTyped_eq]
  by_cases hl : l = block
  · subst hl
    rw [if_pos rfl, info_update_self _ _ _ hblk]
  · rw [if_neg hl, info_update_of_ne _ _ _ _ hl]

def edgeRows (w : MethodWriter) (block : Label) : List (Frame.Edge × Label) :=
  (w.labels.info block).typed.edges.toList

theorem sameMethod_visited (w : MethodWriter) (block : Label) : SameMethod w (visited w block) := by
  refine ⟨rfl, ?_⟩
  dsimp only [visited, markVisited]
  exact .updateTyped _ _ fun _ => rfl

/-- Taking the frame of a block is a step of the machine. -/
theorem visit_step (hmark : Marked w (block :: queue)) (hfr : frameOf w block = some frame) :
    Step (Graph.of w) (Work.of w (block :: queue))
        (Work.holding (visited w block) block frame queue
          (successors (visited w block) (edgeRows (visited w block) block))) ∧
      Visiting (visited w block) block queue := by
  have hblk := w.labels.lt_size_of_frame block hfr
  have htyped : ∀ l, ((visited w block).labels.info l).typed = _ := fun l =>
    markVisited_typed w.labels block l hblk
  obtain ⟨hnotin, hnd⟩ := List.nodup_cons.1 hmark.nodup
  refine ⟨?_, ⟨?_, ?_, hnd, ?_⟩⟩
  · have hstep := @Step.visit (Graph.of w) (Work.of w (block :: queue)) block queue frame rfl rfl hfr
    refine Eq.mp (congrArg _ ?_) hstep
    have hfrs : set (frameOf (visited w block)) block (some frame) = frameOf w := by
      funext l
      by_cases hl : l = block
      · subst hl
        rw [set_self, hfr]
      · rw [set_of_ne _ _ hl, frameOf, htyped, if_neg hl]
        rfl
    have hreached : (fun l => ((visited w block).labels.info l).typed.isReachable) =
        set (fun l => (w.labels.info l).typed.isReachable) block true := by
      funext l
      by_cases hl : l = block
      · rw [htyped, if_pos hl, hl, set_self]
      · rw [htyped, if_neg hl, set_of_ne _ _ hl]
    have hedges : (Graph.of w).edges block =
        successors (visited w block) (edgeRows (visited w block) block) := by
      rw [← (sameMethod_visited w block).graph]
      rfl
    simp only [Work.holding, Work.of, hfrs, hreached, hedges]
    rfl
  · simpa [visited, markVisited] using hblk
  · rw [frameOf, htyped, if_pos rfl]
  · intro l
    rw [htyped]
    by_cases hl : l = block
    · subst hl
      simpa using hnotin
    · rw [if_neg hl, hmark.flags, List.mem_cons]
      simp [hl]

/-- Putting the frame back is a step of the machine. -/
theorem leave_step (hvis : Visiting w block queue) :
    Step (Graph.of w) (Work.holding w block frame queue []) (Work.of (w.putFrame block frame) queue) ∧
      SameMethod w (w.putFrame block frame) ∧ Marked (w.putFrame block frame) queue := by
  have htyped : ∀ l, ((w.putFrame block frame).labels.info l).typed =
      { (w.labels.info l).typed with frame := set (frameOf w) block (some frame) l } := by
    intro l
    dsimp only [putFrame]
    rw [updateTyped_eq]
    by_cases hl : l = block
    · subst hl
      rw [info_update_self _ _ _ hvis.inTable, set_self]
    · rw [info_update_of_ne _ _ _ _ hl, set_of_ne _ _ hl]
      rfl
  refine ⟨?_, ⟨rfl, ?_⟩, hvis.marked.nodup, ?_⟩
  · have hstep := @Step.leave (Graph.of w) (Work.holding w block frame queue []) block rfl
    refine Eq.mp (congrArg _ ?_) hstep
    have hfrs : frameOf (w.putFrame block frame) = set (frameOf w) block (some frame) := by
      funext l
      rw [frameOf, htyped]
    simp only [Work.holding, Work.of, hfrs, htyped]
    rfl
  · dsimp only [putFrame]
    exact .updateTyped _ _ fun _ => rfl
  · intro l
    rw [htyped]
    exact hvis.marked.flags l

/-- A visit of a block, from taking its frame to putting it back, is a run of the machine. -/
theorem visit_ok (hmark : Marked w (block :: queue)) (hfr : frameOf w block = some frame)
    (hflow : flow block (edgeRows (visited w block) block) frame queue (visited w block) =
      .ok (frame', queue') w') :
    Runs (Graph.of w) (Work.of w (block :: queue)) (Work.of (w'.putFrame block frame') queue') ∧
      SameMethod w (w'.putFrame block frame') ∧ Marked (w'.putFrame block frame') queue' := by
  obtain ⟨hvisit, hvis⟩ := visit_step hmark hfr
  have hsame := sameMethod_visited w block
  obtain ⟨hruns, hsame', hvis'⟩ := flow_ok hvis hflow
  obtain ⟨hleave, hsame'', hmark'⟩ := @leave_step w' block frame' queue' hvis'
  rw [hsame.graph] at hruns
  rw [SameMethod.graph (hsame.trans hsame')] at hleave
  exact ⟨(Runs.single hvisit).trans (hruns.trans (Runs.single hleave)), hsame.trans (hsame'.trans hsame''),
    hmark'⟩

theorem iterate_cons (fuel : Nat) (block : Label) (queue : List Label) (largest : Nat) :
    iterate (fuel + 1) (block :: queue) largest = (do
      let frame ← visitBlock block
      let edges := edgeRows (← get) block
      let (frame', queue') ← flow block edges frame queue
      modify (·.putFrame block frame')
      iterate fuel queue' (max largest ((frame.input.map (·.stack.size)).getD 0 + frame.peak))) := rfl

/-- **The iteration is a run of the machine** that ends with an empty queue. -/
theorem iterate_ok {n : Nat} (hmark : Marked w queue) (h : iterate fuel queue largest w = .ok n w') :
    Runs (Graph.of w) (Work.of w queue) (Work.of w' []) ∧ SameMethod w w' := by
  induction fuel generalizing queue largest w with
  | zero =>
    cases queue with
    | nil =>
      obtain ⟨-, rfl⟩ := run_pure_ok.1 h
      exact ⟨.refl, .refl _⟩
    | cons block queue => exact (run_throw_ok.1 h).elim
  | succ fuel ih =>
    cases queue with
    | nil =>
      obtain ⟨-, rfl⟩ := run_pure_ok.1 h
      exact ⟨.refl, .refl _⟩
    | cons block queue =>
      rw [iterate_cons] at h
      obtain ⟨frame, w₁, hvisit, haft⟩ := run_bind_ok.1 h
      obtain ⟨hfr, rfl⟩ := visitBlock_ok hvisit
      obtain ⟨w₂, w₃, hget, hflows⟩ := run_bind_ok.1 haft
      obtain ⟨rfl, rfl⟩ := run_get_ok.1 hget
      obtain ⟨⟨frame', queue'⟩, w₄, hflow, hput⟩ := run_bind_ok.1 hflows
      obtain ⟨_, w₅, hupd, hiter⟩ := run_bind_ok.1 hput
      obtain rfl := run_modify_ok.1 hupd
      obtain ⟨hruns, hsame, hmark'⟩ := visit_ok hmark hfr hflow
      obtain ⟨hrest, hsame'⟩ := ih hmark' hiter
      rw [hsame.graph] at hrest
      exact ⟨hruns.trans hrest, hsame.trans hsame'⟩

/-- How the iteration fails: by itself, or as a merge of the machine does. -/
theorem iterate_error (hmark : Marked w queue) (h : iterate fuel queue largest w = .error e w') :
    SameMethod w w' ∧ (e = missingFrame ∨ e = .divergence ∨
      ∃ work, Runs (Graph.of w) (Work.of w queue) work ∧ Fails (Graph.of w) work e) := by
  induction fuel generalizing queue largest w with
  | zero =>
    cases queue with
    | nil => cases h
    | cons block queue =>
      cases h
      exact ⟨.refl _, .inr (.inl rfl)⟩
  | succ fuel ih =>
    cases queue with
    | nil => cases h
    | cons block queue =>
      rw [iterate_cons] at h
      rcases run_bind_error.1 h with hvisit | ⟨frame, w₁, hvisit, haft⟩
      · obtain ⟨rfl, rfl⟩ := visitBlock_error hvisit
        exact ⟨sameMethod_visited w block, .inl rfl⟩
      obtain ⟨hfr, rfl⟩ := visitBlock_ok hvisit
      rcases run_bind_error.1 haft with hget | ⟨w₂, w₃, hget, hflows⟩
      · cases hget
      obtain ⟨rfl, rfl⟩ := run_get_ok.1 hget
      rcases run_bind_error.1 hflows with hflow | ⟨⟨frame', queue'⟩, w₄, hflow, hput⟩
      · -- the machine has taken the frame of the block and fails at one of its edges
        obtain ⟨hvisitStep, hvis⟩ := visit_step hmark hfr
        have hsame := sameMethod_visited w block
        obtain ⟨hsame', herr⟩ := flow_error hvis hflow
        refine ⟨hsame.trans hsame', herr.imp id fun ⟨work, hruns, hfails⟩ => .inr ⟨work, ?_, ?_⟩⟩
        · rw [hsame.graph] at hruns
          exact (Runs.single hvisitStep).trans hruns
        · rw [hsame.graph] at hfails
          exact hfails
      rcases run_bind_error.1 hput with hupd | ⟨_, w₅, hupd, hiter⟩
      · cases hupd
      obtain rfl := run_modify_ok.1 hupd
      obtain ⟨hruns, hsame, hmark'⟩ := visit_ok hmark hfr hflow
      obtain ⟨hsame', herr⟩ := ih hmark' hiter
      refine ⟨hsame.trans hsame', herr.imp id (.imp id fun ⟨work, hruns', hfails⟩ => ⟨work, ?_, ?_⟩)⟩
      · rw [hsame.graph] at hruns'
        exact hruns.trans hruns'
      · rw [hsame.graph] at hfails
        exact hfails

end Inference

end JvmAssembler
