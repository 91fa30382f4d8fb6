import JvmAssembler.Proofs.Frame.Merge
import JvmAssembler.Proofs.Inference.Worklist

/-!
# JvmAssembler.Proofs.Inference.Heights

The stack heights of the inputs that the iteration finds.

* Along a normal edge a merge insists on equal heights. Along an exception edge it insists on nothing: an empty stack
  becomes the exception, and a stack that is not empty keeps its height.
* So an edge is absorbed (`Fits`) if the height that arrives is that of the target, with one exception each: a normal
  edge may arrive empty at a target of height one that an exception can also reach, and an exception may
  arrive at a target that is higher.
-/

namespace JvmAssembler

namespace Inference

/-! ### Frames that are live -/

/-- What holds of the frames of every state of the iteration, where `frames` are those it has started from. -/
structure Live (g : Graph) (frames : Block → Option Frame) (locals : Nat) (work : Work) : Prop where
  /-- Only inputs change. -/
  summary : ∀ b f, work.frames b = some f → ∃ f₀, frames b = some f₀ ∧ f = { f₀ with input := f.input }
  /-- All inputs have the same locals. -/
  locals : ∀ b f input, work.frames b = some f → f.input = some input → input.locals.size = locals
  /-- A block that is reached or queued has an input. -/
  input : ∀ b, work.reached b = true ∨ b ∈ work.queue → ∃ f input, work.frames b = some f ∧ f.input = some input
  visited : ∀ b rest, work.pending = some (b, rest) → work.reached b = true ∧ ∀ e ∈ rest, e ∈ g.edges b

section Live

variable {g : Graph} {frames : Block → Option Frame} {locals : Nat} {work : Work}

/-- The merge that is next, with the inputs of its two ends. -/
theorem Live.merge (h : Live g frames locals work) {b s : Block} {edge : Frame.Edge}
    {rest : List (Frame.Edge × Block)} {f target : Frame} {changed : Bool} {input' : Option FrameInput}
    {pool : Pool} (hpend : work.pending = some (b, (edge, s) :: rest))
    (hmrg : Merges g work b f edge s target changed input' pool) :
    ∃ input merged, f.input = some input ∧ input' = some merged ∧ merged.locals.size = locals ∧
      f.MergesHeights input target.input merged edge ∧
      (changed = false → input' = target.input) := by
  obtain ⟨f', input, hf', hin⟩ := h.input b (.inl (h.visited b _ hpend).1)
  obtain rfl : f = f' := Option.some.inj (hmrg.source.symm.trans hf')
  obtain ⟨merged, hmerged, hhts, hsize, hsame⟩ := Frame.merge_ok hin hmrg.merge
  have hloc := h.locals b f input hmrg.source hin
  refine ⟨input, merged, hin, hmerged, ?_, hhts, fun hchg => ?_⟩
  · rw [hsize, hloc]
    cases htgt : target.input with
    | none => simp
    | some old => simp [h.locals s target old hmrg.sink htgt]
  · obtain ⟨old, hold, heq⟩ := hsame hchg
    dsimp only at hmerged hold
    have hsize' : input.locals.size = old.locals.size := hloc.trans (h.locals s target old hmrg.sink hold).symm
    rw [hmerged, hold, heq (Nat.le_of_eq hsize')]

theorem Live.step {work' : Work} (h : Live g frames locals work) (hstep : Step g work work') :
    Live g frames locals work' := by
  cases hstep with
  | @visit b queue f hpend hqu hfr =>
    refine ⟨h.summary, h.locals, fun c hc => ?_, fun c rest hc => ?_⟩
    · apply h.input c
      rw [hqu]
      dsimp only at hc
      by_cases hcb : c = b
      · exact .inr (by simp [hcb])
      · rw [set_of_ne _ _ hcb] at hc
        exact hc.imp id (List.mem_cons_of_mem b)
    · cases hc
      exact ⟨set_self _ _ _, fun _ => id⟩
  | leave hpend => exact ⟨h.summary, h.locals, h.input, by simp⟩
  | @merge b s edge rest f target changed input' pool hpend hmrg =>
    obtain ⟨input, merged, hin, rfl, hloc, hhts, hsame⟩ := h.merge hpend hmrg
    obtain ⟨hreached, hedges⟩ := h.visited b _ hpend
    refine ⟨fun c f' hc => ?_, fun c f' input' hc hin' => ?_, fun c hc => ?_, fun c rest' hc => ?_⟩
    · by_cases hcs : c = s
      · subst hcs
        rw [frames_merged_self] at hc
        cases hc
        obtain ⟨f₀, hf₀, heq⟩ := h.summary c target hmrg.sink
        refine ⟨f₀, hf₀, ?_⟩
        rw [heq]
      · rw [frames_merged_of_ne _ _ _ _ _ _ _ _ hcs] at hc
        exact h.summary c f' hc
    · by_cases hcs : c = s
      · subst hcs
        rw [frames_merged_self] at hc
        cases hc
        cases hin'
        exact hloc
      · rw [frames_merged_of_ne _ _ _ _ _ _ _ _ hcs] at hc
        exact h.locals c f' input' hc hin'
    · by_cases hcs : c = s
      · subst hcs
        exact ⟨_, merged, frames_merged_self _ _ _ _ _ _ _ _, rfl⟩
      · rw [frames_merged_of_ne _ _ _ _ _ _ _ _ hcs]
        exact h.input c (hc.imp id fun hmem => (mem_queue_merged _ _ _ _ _ _ _ _ hmem).resolve_left hcs)
    · cases hc
      exact ⟨hreached, fun e he => hedges e (List.mem_cons_of_mem _ he)⟩

end Live

/-! ### Where heights come from -/

/-- The stack heights with which paths from the entry arrive at blocks. Popping an empty stack leaves it empty. -/
inductive Arrives (g : Graph) (frames : Block → Option Frame) (entry : Block) : Block → Nat → Prop
  | entry : Arrives g frames entry entry 0
  | normal {b s : Block} {n : Nat} {f : Frame} : Arrives g frames entry b n → frames b = some f →
      (.normal, s) ∈ g.edges b → Arrives g frames entry s (n - f.popped + f.stack.size)
  | caught {b s : Block} {n row : Nat} : Arrives g frames entry b n → (.caught row, s) ∈ g.edges b →
      Arrives g frames entry s 1

/-- Some reached block leads to this one without an exception. -/
def EnteredNormally (g : Graph) (work : Work) (s : Block) : Prop :=
  ∃ b, work.reached b = true ∧ (.normal, s) ∈ g.edges b

def EnteredByException (g : Graph) (work : Work) (s : Block) : Prop :=
  ∃ b row, work.reached b = true ∧ (.caught row, s) ∈ g.edges b

/-- What holds of the heights in every state of the iteration. -/
structure Heights (g : Graph) (frames : Block → Option Frame) (entry : Block) (locals : Nat) (work : Work) :
    Prop where
  live : Live g frames locals work
  arrives : ∀ b f input, work.frames b = some f → f.input = some input →
    Arrives g frames entry b input.stack.size
  /-- Only a normal edge brings more than an exception does. -/
  normal : ∀ b f input, work.frames b = some f → f.input = some input → 1 < input.stack.size →
    EnteredNormally g work b

/-- The target of an edge has the height that arrives along it, as far as a merge sees to that. -/
def Fits (g : Graph) (work : Work) (f : Frame) (edge : Frame.Edge) (s : Block) : Prop :=
  ∃ input target old, f.input = some input ∧ work.frames s = some target ∧ target.input = some old ∧
    match edge with
    | .normal => old.stack.size = f.finalHeight input ∨
        f.finalHeight input = 0 ∧ old.stack.size = 1 ∧ EnteredByException g work s
    | .caught _ => 1 ≤ old.stack.size

theorem Step.reached {g : Graph} {u v : Work} (h : Step g u v) {b : Block} (hb : u.reached b = true) :
    v.reached b = true := by
  cases h with
  | @visit b' _ _ _ _ _ =>
    by_cases hbb : b = b'
    · subst hbb
      exact set_self _ _ _
    · exact (set_of_ne _ _ hbb).trans hb
  | merge _ _ => exact hb
  | leave _ => exact hb

section Heights

variable {g : Graph} {frames : Block → Option Frame} {entry : Block} {locals : Nat} {work work' : Work}

theorem EnteredNormally.step {s : Block} (h : EnteredNormally g work s) (hstep : Step g work work') :
    EnteredNormally g work' s :=
  let ⟨b, hb, hedge⟩ := h
  ⟨b, hstep.reached hb, hedge⟩

theorem EnteredByException.step {s : Block} (h : EnteredByException g work s) (hstep : Step g work work') :
    EnteredByException g work' s :=
  let ⟨b, row, hb, hedge⟩ := h
  ⟨b, row, hstep.reached hb, hedge⟩

/-- What comes out of a merge arrives at the target, and along a normal edge if it is more than an exception. -/
theorem Heights.merge (h : Heights g frames entry locals work) {b s : Block} {edge : Frame.Edge}
    {rest : List (Frame.Edge × Block)} {f target : Frame} {changed : Bool} {input merged : FrameInput}
    {pool : Pool} (hpend : work.pending = some (b, (edge, s) :: rest))
    (hmrg : Merges g work b f edge s target changed (some merged) pool) (hin : f.input = some input)
    (hhts : f.MergesHeights input target.input merged edge) :
    Arrives g frames entry s merged.stack.size ∧ (1 < merged.stack.size → EnteredNormally g work s) := by
  obtain ⟨hreached, hedges⟩ := h.live.visited b _ hpend
  have hedge := hedges _ List.mem_cons_self
  have harr := h.arrives b f input hmrg.source hin
  cases edge with
  | normal =>
    obtain ⟨f₀, hf₀, heq⟩ := h.live.summary b f hmrg.source
    have hnorm := Arrives.normal harr hf₀ hedge
    refine ⟨?_, fun _ => ⟨b, hreached, hedge⟩⟩
    rw [hhts.1, heq]
    exact hnorm
  | caught row =>
    rw [Frame.MergesHeights] at hhts
    -- the height is that of the exception, or the one that was there
    by_cases hlow : merged.stack.size = 1
    · rw [hlow]
      exact ⟨.caught harr hedge, fun h => absurd h (Nat.lt_irrefl 1)⟩
    · cases htgt : target.input with
      | none =>
        rw [htgt] at hhts
        exact absurd hhts hlow
      | some old =>
        have hold : merged.stack.size = old.stack.size := by
          rw [htgt, Option.map_some, Option.getD_some] at hhts
          omega
        rw [hold]
        exact ⟨h.arrives s target old hmrg.sink htgt, h.normal s target old hmrg.sink htgt⟩

theorem Heights.step (h : Heights g frames entry locals work) (hstep : Step g work work') :
    Heights g frames entry locals work' := by
  have hboth : ∀ b f input, work'.frames b = some f → f.input = some input →
      Arrives g frames entry b input.stack.size ∧ (1 < input.stack.size → EnteredNormally g work b) := by
    intro b f input hfr hin
    have hold (hfr : work.frames b = some f) := And.intro (h.arrives b f input hfr hin) (h.normal b f input hfr hin)
    cases hstep with
    | visit _ _ _ => exact hold hfr
    | leave _ => exact hold hfr
    | @merge b' s edge rest f' target changed input' pool hpend hmrg =>
      by_cases hbs : b = s
      · subst hbs
        obtain ⟨_, merged, hin', rfl, _, hhts, _⟩ := h.live.merge hpend hmrg
        rw [frames_merged_self] at hfr
        cases hfr
        cases hin
        exact h.merge hpend hmrg hin' hhts
      · rw [frames_merged_of_ne _ _ _ _ _ _ _ _ hbs] at hfr
        exact hold hfr
  exact ⟨h.live.step hstep, fun b f input hfr hin => (hboth b f input hfr hin).1,
    fun b f input hfr hin hhigh => ((hboth b f input hfr hin).2 hhigh).step hstep⟩

/-- A target keeps its height, unless it is empty and gets an exception. -/
theorem Heights.target (h : Heights g frames entry locals work) (hstep : Step g work work') {s : Block}
    {target : Frame} {old : FrameInput} (htgt : work.frames s = some target) (hold : target.input = some old) :
    ∃ target' old', work'.frames s = some target' ∧ target'.input = some old' ∧
      (old'.stack.size = old.stack.size ∨
        old'.stack.size = max 1 old.stack.size ∧ EnteredByException g work' s) := by
  cases hstep with
  | visit _ _ _ => exact ⟨target, old, htgt, hold, .inl rfl⟩
  | leave _ => exact ⟨target, old, htgt, hold, .inl rfl⟩
  | @merge b s' edge rest f target' changed input' pool hpend hmrg =>
    by_cases hs : s = s'
    · subst hs
      obtain rfl : target = target' := Option.some.inj (htgt.symm.trans hmrg.sink)
      obtain ⟨_, merged, _, rfl, _, hhts, _⟩ := h.live.merge hpend hmrg
      obtain ⟨hreached, hedges⟩ := h.live.visited b _ hpend
      refine ⟨_, merged, frames_merged_self _ _ _ _ _ _ _ _, rfl, ?_⟩
      cases edge with
      | normal => exact .inl (hhts.2 old hold).symm
      | caught row =>
        rw [Frame.MergesHeights, hold] at hhts
        exact .inr ⟨hhts, b, row, hreached, hedges _ List.mem_cons_self⟩
    · refine ⟨target, old, ?_, hold, .inl rfl⟩
      rw [frames_merged_of_ne _ _ _ _ _ _ _ _ hs]
      exact htgt

/-- **Heights are absorbed.** -/
theorem absorbing_fits : Absorbing g (Fits g) (Heights g frames entry locals) where
  invariant h hstep := h.step hstep
  unchanged h hpend hmrg := by
    obtain ⟨_, _, _, _, _, _, hsame⟩ := h.live.merge hpend hmrg
    exact hsame rfl
  established {work b f edge s rest target changed input' pool} h hpend hmrg := by
    obtain ⟨input, merged, hin, rfl, _, hhts, _⟩ := h.live.merge hpend hmrg
    refine ⟨input, _, merged, hin, frames_merged_self _ _ _ _ _ _ _ _, rfl, ?_⟩
    cases edge with
    | normal => exact .inl hhts.1
    | caught row =>
      rw [Frame.MergesHeights] at hhts
      dsimp only
      omega
  kept {u v f edge s} h hstep hfits := by
    obtain ⟨input, target, old, hin, htgt, hold, hfits⟩ := hfits
    obtain ⟨target', old', htgt', hold', hsize⟩ := h.target hstep htgt hold
    refine ⟨input, target', old', hin, htgt', hold', ?_⟩
    cases edge with
    | caught row =>
      dsimp only at hfits ⊢
      omega
    | normal =>
      rcases hfits with hfits | ⟨hzero, hone, hs⟩
      · rcases hsize with hsize | ⟨hsize, hs⟩
        · exact .inl (hsize.trans hfits)
        · by_cases hemp : old.stack.size = 0
          · exact .inr ⟨by omega, by omega, hs⟩
          · exact .inl (by omega)
      · exact .inr ⟨hzero, by omega, hs.step hstep⟩

end Heights

end Inference

end JvmAssembler
