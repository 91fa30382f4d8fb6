import JvmAssembler.Frame.Merge

/-!
# JvmAssembler.Proofs.Inference.Worklist

The iteration over the blocks of a method, as a machine that merges along one edge at a time.

* The machine knows the blocks by their frames only. It does not take the frame of a block away while the block is
  visited, and it keeps the edges that are still to come in `pending` instead.
* `Runs.absorbed` is what every result about the final frames rests on. If merging along an edge establishes a
  relation between the two ends of the edge, and further merges into the target keep it, then it holds of
  every edge from a reached block once the queue is empty. A block whose input changes is queued again, so a block that
  is not queued has been merged along all its edges since.
-/

namespace JvmAssembler

namespace Inference

/-- Labels, as they are numbered. -/
abbrev Block := Nat

/-- A function with one value replaced. -/
def set {α : Type} (f : Block → α) (b : Block) (a : α) : Block → α := fun c => if c = b then a else f c

@[simp] theorem set_self {α : Type} (f : Block → α) (b : Block) (a : α) : set f b a b = a := if_pos rfl

theorem set_of_ne {α : Type} (f : Block → α) {b c : Block} (a : α) (h : c ≠ b) : set f b a c = f c := if_neg h

/-- What does not change in the iteration. -/
structure Graph where
  context : TypeContext
  /-- Where control can go from a block. -/
  edges : Block → List (Frame.Edge × Block)
  position : Block → Nat

/-- The state of the iteration. -/
structure Work where
  frames : Block → Option Frame
  pool : Pool
  queue : List Block
  /-- The blocks that have been visited. -/
  reached : Block → Bool
  /-- The block that is being visited, and the edges along which it is still to be merged. -/
  pending : Option (Block × List (Frame.Edge × Block))

/-- A block `b` is merged along an edge into a block `s`. -/
structure Merges (g : Graph) (work : Work) (b : Block) (f : Frame) (edge : Frame.Edge) (s : Block)
    (target : Frame) (changed : Bool) (input : Option FrameInput) (pool : Pool) : Prop where
  source : work.frames b = some f
  sink : work.frames s = some target
  merge : f.merge g.context edge (g.position s) ⟨target.input, work.pool⟩ = .ok changed ⟨input, pool⟩

/-- The state after a merge into `s`, with the edges `rest` still to come. -/
def Work.merged (work : Work) (b s : Block) (rest : List (Frame.Edge × Block)) (target : Frame)
    (changed : Bool) (input : Option FrameInput) (pool : Pool) : Work :=
  { work with
    frames := set work.frames s (some { target with input := input })
    pool := pool
    queue := if changed = true ∧ s ∉ work.queue then s :: work.queue else work.queue
    pending := some (b, rest) }

section Merged

variable (work : Work) (b s : Block) (rest : List (Frame.Edge × Block)) (target : Frame) (changed : Bool)
  (input : Option FrameInput) (pool : Pool)

@[simp] theorem frames_merged_self :
    (work.merged b s rest target changed input pool).frames s = some { target with input := input } :=
  set_self _ _ _

theorem frames_merged_of_ne {c : Block} (h : c ≠ s) :
    (work.merged b s rest target changed input pool).frames c = work.frames c :=
  set_of_ne _ _ h

/-- A merge queues at most its target. -/
theorem mem_queue_merged {c : Block} (h : c ∈ (work.merged b s rest target changed input pool).queue) :
    c = s ∨ c ∈ work.queue := by
  dsimp only [Work.merged] at h
  split at h
  · exact List.mem_cons.1 h
  · exact .inr h

end Merged

/-- One step of the iteration. -/
inductive Step (g : Graph) : Work → Work → Prop
  /-- Visit the first block of the queue. -/
  | visit {work : Work} {b : Block} {queue : List Block} {f : Frame} :
      work.pending = none → work.queue = b :: queue → work.frames b = some f →
      Step g work
        { work with queue := queue, reached := set work.reached b true, pending := some (b, g.edges b) }
  /-- Merge along the next edge. -/
  | merge {work : Work} {b s : Block} {edge : Frame.Edge} {rest : List (Frame.Edge × Block)}
      {f target : Frame} {changed : Bool} {input : Option FrameInput} {pool : Pool} :
      work.pending = some (b, (edge, s) :: rest) → Merges g work b f edge s target changed input pool →
      Step g work (work.merged b s rest target changed input pool)
  /-- The block has been merged along all its edges. -/
  | leave {work : Work} {b : Block} :
      work.pending = some (b, []) → Step g work { work with pending := none }

/-- Several steps of the iteration. -/
inductive Runs (g : Graph) : Work → Work → Prop
  | refl {work : Work} : Runs g work work
  | step {u v w : Work} : Runs g u v → Step g v w → Runs g u w

theorem Runs.trans {g : Graph} {u v w : Work} (h : Runs g u v) (h' : Runs g v w) : Runs g u w := by
  induction h' with
  | refl => exact h
  | step _ hstep ih => exact .step ih hstep

theorem Runs.single {g : Graph} {u v : Work} (h : Step g u v) : Runs g u v := .step .refl h

/-- What every step keeps, a run keeps. -/
theorem Runs.keeps {g : Graph} {I : Work → Prop} (hstep : ∀ {u v}, I u → Step g u v → I v) {u v : Work}
    (h : Runs g u v) (hu : I u) : I v := by
  induction h with
  | refl => exact hu
  | step _ hs ih => exact hstep ih hs

/-- The iteration stops because a block cannot be merged along an edge. -/
def Fails (g : Graph) (work : Work) (e : Error) : Prop :=
  ∃ b edge s rest f target t, work.pending = some (b, (edge, s) :: rest) ∧ work.frames b = some f ∧
    work.frames s = some target ∧
    f.merge g.context edge (g.position s) ⟨target.input, work.pool⟩ = .error e t

/-! ### Absorption -/

section Absorption

/-- An edge that is still to be merged along. -/
def Work.IsPending (work : Work) (b : Block) (edge : Frame.Edge × Block) : Prop :=
  ∃ rest, work.pending = some (b, rest) ∧ edge ∈ rest

/-- Every edge from a block that has been reached and is not queued is pending, or its target has absorbed what
arrives along it. -/
def Absorbed (g : Graph) (A : Work → Frame → Frame.Edge → Block → Prop) (work : Work) : Prop :=
  ∀ b f edge s, work.reached b = true → b ∉ work.queue → work.frames b = some f → (edge, s) ∈ g.edges b →
    work.IsPending b (edge, s) ∨ A work f edge s

/-- What makes a relation between the two ends of an edge one that merging establishes and keeps, in states with
an invariant. -/
structure Absorbing (g : Graph) (A : Work → Frame → Frame.Edge → Block → Prop) (I : Work → Prop) :
    Prop where
  invariant : ∀ {u v}, I u → Step g u v → I v
  /-- A merge that reports no change has changed nothing. -/
  unchanged : ∀ {work b f edge s rest target input pool}, I work →
    work.pending = some (b, (edge, s) :: rest) → Merges g work b f edge s target false input pool →
    input = target.input
  established : ∀ {work b f edge s rest target changed input pool}, I work →
    work.pending = some (b, (edge, s) :: rest) → Merges g work b f edge s target changed input pool →
    A (work.merged b s rest target changed input pool) f edge s
  /-- What a block has absorbed it keeps. -/
  kept : ∀ {u v f edge s}, I u → Step g u v → A u f edge s → A v f edge s

variable {g : Graph} {A : Work → Frame → Frame.Edge → Block → Prop} {I : Work → Prop}

theorem Absorbing.step (h : Absorbing g A I) {u v : Work} (hI : I u) (hu : Absorbed g A u)
    (hstep : Step g u v) : Absorbed g A v := by
  intro b f edge s hreached hqu hfr hedge
  have hkept := @Absorbing.kept g A I h u v f edge s hI hstep
  cases hstep with
  | @visit b' queue f' hpend hq hf =>
    by_cases hb : b = b'
    · subst hb
      exact .inl ⟨_, rfl, hedge⟩
    · dsimp only at hreached
      rw [set_of_ne _ _ hb] at hreached
      have hqu' : b ∉ u.queue := by
        rw [hq, List.mem_cons]
        exact not_or.2 ⟨hb, hqu⟩
      rcases hu b f edge s hreached hqu' hfr hedge with ⟨rest, hrest, _⟩ | habs
      · rw [hpend] at hrest
        cases hrest
      · exact .inr (hkept habs)
  | @leave b' hpend =>
    rcases hu b f edge s hreached hqu hfr hedge with ⟨rest, hrest, hmem⟩ | habs
    · rw [hpend] at hrest
      cases hrest
      simp at hmem
    · exact .inr (hkept habs)
  | @merge b' s' edge' rest f' target changed input pool hpend hmrg =>
    dsimp only [Work.merged] at hreached hqu hfr
    have hqu' : b ∉ u.queue := by
      split at hqu
      · exact fun hmem => hqu (List.mem_cons_of_mem _ hmem)
      · exact hqu
    -- the source of the edge still has the frame with which it was merged, or it would be queued
    have hfr' : u.frames b = some f := by
      by_cases hb : b = s'
      · subst hb
        have hsame : changed = false := by
          cases changed with
          | false => rfl
          | true => exact absurd (by simp [hqu']) hqu
        subst hsame
        rw [set_self, h.unchanged hI hpend hmrg] at hfr
        rw [hmrg.sink, ← hfr]
      · rwa [set_of_ne _ _ hb] at hfr
    rcases hu b f edge s hreached hqu' hfr' hedge with ⟨rest', hrest, hmem⟩ | habs
    · rw [hpend] at hrest
      cases hrest
      rcases List.mem_cons.1 hmem with heq | hmem
      · cases heq
        obtain rfl : f' = f := Option.some.inj (hmrg.source.symm.trans hfr')
        exact .inr (h.established hI hpend hmrg)
      · exact .inl ⟨rest, rfl, hmem⟩
    · exact .inr (hkept habs)

/-- **When the queue is empty, everything that arrives along an edge has been absorbed.** -/
theorem Runs.absorbed (h : Absorbing g A I) {u v : Work} (hrun : Runs g u v) (hI : I u)
    (hu : Absorbed g A u) : I v ∧ Absorbed g A v := by
  induction hrun with
  | refl => exact ⟨hI, hu⟩
  | step _ hstep ih => exact ⟨h.invariant ih.1 hstep, h.step ih.1 ih.2 hstep⟩

end Absorption

end Inference

end JvmAssembler
