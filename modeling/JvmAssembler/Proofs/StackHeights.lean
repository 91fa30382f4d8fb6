import JvmAssembler.Proofs.Inference.Closing
import JvmAssembler.Proofs.Inference.Heights

/-!
# JvmAssembler.Proofs.StackHeights

When the inferred stack heights are those of every path.

A method is accepted if the iteration finds inputs for all blocks that can be reached. It compares heights along normal
edges only, and it does not notice a block that pops more than there is. So the heights of an accepted method
agree along all edges exactly if no block underflows and no block that handles an exception is entered in
another way with any other height than one (`heights_agree_iff`).
-/

namespace JvmAssembler

namespace MethodWriter

open Inference

/-- The iteration has visited a block. -/
def IsReachable (w : MethodWriter) (b : Label) : Prop := (w.labels.info b).typed.isReachable = true

/-- A block that has been visited, with its summary and its input. -/
structure ReachedWith (w : MethodWriter) (b : Label) (f : Frame) (input : FrameInput) : Prop where
  reachable : w.IsReachable b
  frame : frameOf w b = some f
  input : f.input = some input

/-- The height that arrives along an edge: that of the input with the net effect of the block, or the exception. -/
def arrivingHeight (f : Frame) (input : FrameInput) : Frame.Edge → Int
  | .normal => input.stack.size + (f.stack.size - f.popped : Int)
  | .caught _ => 1

/-- Along every edge from a reachable block arrives the height of the input that was found. -/
def HeightsAgree (w : MethodWriter) : Prop :=
  ∀ b f input edge s, w.ReachedWith b f input → (edge, s) ∈ (Graph.of w).edges b →
    ∃ target found, frameOf w s = some target ∧ target.input = some found ∧
      (found.stack.size : Int) = arrivingHeight f input edge

/-- No block pops more than there is, and what enters a handler without an exception brings one item. -/
def HandlersApart (w : MethodWriter) : Prop :=
  ∀ b f input s, w.ReachedWith b f input → (.normal, s) ∈ (Graph.of w).edges b →
    f.popped ≤ input.stack.size ∧
      ∀ b' row, w.IsReachable b' → (.caught row, s) ∈ (Graph.of w).edges b' → arrivingHeight f input .normal = 1

section Final

variable {w : MethodWriter} {frames : Block → Option Frame} {entry : Block} {locals : Nat}

theorem fits_of_absorbed (habs : Absorbed (Graph.of w) (Fits (Graph.of w)) (Work.of w [])) {b : Label}
    {f : Frame} {input : FrameInput} {edge : Frame.Edge} {s : Label} (hb : w.ReachedWith b f input)
    (hedge : (edge, s) ∈ (Graph.of w).edges b) : Fits (Graph.of w) (Work.of w []) f edge s := by
  rcases habs b f edge s hb.reachable (by simp [Work.of]) hb.frame hedge with ⟨_, hpend, _⟩ | hfits
  · cases hpend
  · exact hfits

theorem heightsAgree_of_apart (hhts : Heights (Graph.of w) frames entry locals (Work.of w []))
    (habs : Absorbed (Graph.of w) (Fits (Graph.of w)) (Work.of w [])) (hapart : w.HandlersApart) :
    w.HeightsAgree := by
  intro b f input edge s hb hedge
  obtain ⟨input', target, found, hin', htgt, hfnd, hfits⟩ := fits_of_absorbed habs hb hedge
  obtain rfl : input' = input := Option.some.inj (hin'.symm.trans hb.input)
  refine ⟨target, found, htgt, hfnd, ?_⟩
  -- what enters the target without an exception has the height of the target, unless an exception has changed that
  have hnorm : ∀ {b f input}, w.ReachedWith b f input → (.normal, s) ∈ (Graph.of w).edges b →
      (found.stack.size : Int) = arrivingHeight f input .normal := by
    intro b f input hb hedge
    obtain ⟨hpopped, hone⟩ := hapart b f input s hb hedge
    obtain ⟨input', target', found', hin', htgt', hfnd', hfitted⟩ := fits_of_absorbed habs hb hedge
    obtain rfl : input' = input := Option.some.inj (hin'.symm.trans hb.input)
    obtain rfl : target' = target := Option.some.inj (htgt'.symm.trans htgt)
    obtain rfl : found' = found := Option.some.inj (hfnd'.symm.trans hfnd)
    have hfinal : (f.finalHeight input' : Int) = arrivingHeight f input' .normal := by
      simp only [Frame.finalHeight, Frame.kept, arrivingHeight]
      omega
    rcases hfitted with hsame | ⟨hzero, -, b', row, hb', hedge'⟩
    · rw [hsame, hfinal]
    · have := hone b' row hb' hedge'
      omega
  cases edge with
  | normal => exact hnorm hb hedge
  | caught row =>
    dsimp only [arrivingHeight] at hfits ⊢
    by_cases hhigh : 1 < found.stack.size
    · -- a higher stack comes along a normal edge, which brings one item only
      obtain ⟨b', hb', hedge'⟩ := hhts.normal s target found htgt hfnd hhigh
      obtain ⟨f', input', hf', hin'⟩ := hhts.live.input b' (.inl hb')
      have hreached : w.ReachedWith b' f' input' := ⟨hb', hf', hin'⟩
      have hone := (hapart b' f' input' s hreached hedge').2 b row hb.reachable hedge
      have := hnorm hreached hedge'
      omega
    · omega

theorem apart_of_heightsAgree (habs : Absorbed (Graph.of w) (Fits (Graph.of w)) (Work.of w []))
    (hlive : ∀ b, w.IsReachable b → ∃ f input, w.ReachedWith b f input) (hagree : w.HeightsAgree) :
    w.HandlersApart := by
  intro b f input s hb hedge
  obtain ⟨target, found, htgt, hfnd, hht⟩ := hagree b f input .normal s hb hedge
  refine ⟨?_, fun b' row hb' hedge' => ?_⟩
  · obtain ⟨input', target', found', hin', htgt', hfnd', hfits⟩ := fits_of_absorbed habs hb hedge
    obtain rfl : input' = input := Option.some.inj (hin'.symm.trans hb.input)
    obtain rfl : target' = target := Option.some.inj (htgt'.symm.trans htgt)
    obtain rfl : found' = found := Option.some.inj (hfnd'.symm.trans hfnd)
    simp only [arrivingHeight] at hht
    simp only [Frame.finalHeight, Frame.kept] at hfits
    omega
  · obtain ⟨f', input', hreached⟩ := hlive b' hb'
    obtain ⟨target', found', htgt', hfnd', hone⟩ := hagree b' f' input' (.caught row) s hreached hedge'
    obtain rfl : target' = target := Option.some.inj (htgt'.symm.trans htgt)
    obtain rfl : found' = found := Option.some.inj (hfnd'.symm.trans hfnd)
    rw [← hht, hone]
    rfl

end Final

/-- At the start of the iteration, only the entry has an input. -/
theorem heights_of_prepared {w w' : MethodWriter} {entry : Label} (hw : w.Uninferred) (h : Prepared w entry w') :
    ∃ locals, Heights (Graph.of w') (frameOf w) entry locals (Work.of w' [entry]) := by
  obtain ⟨f, input, hf, hstk, hfrs⟩ := h.frames
  have hin : ∀ b f' input', frameOf w' b = some f' → f'.input = some input' → b = entry ∧ input' = input := by
    intro b f' input' hb hin'
    rw [hfrs] at hb
    by_cases hbe : b = entry
    · subst hbe
      rw [set_self] at hb
      cases hb
      exact ⟨rfl, (Option.some.inj hin').symm⟩
    · rw [set_of_ne _ _ hbe] at hb
      rw [(hw.labels b).input f' hb] at hin'
      cases hin'
  refine ⟨input.locals.size, ⟨?_, ?_, ?_, by simp [Work.of]⟩, ?_, ?_⟩
  · intro b f' hb
    dsimp only [Work.of] at hb
    rw [hfrs] at hb
    by_cases hbe : b = entry
    · subst hbe
      rw [set_self] at hb
      cases hb
      exact ⟨f, hf, rfl⟩
    · rw [set_of_ne _ _ hbe] at hb
      exact ⟨f', hb, rfl⟩
  · intro b f' input' hb hin'
    rw [(hin b f' input' hb hin').2]
  · intro b hb
    have hbe : b = entry := by
      rcases hb with hreached | hqu
      · dsimp only [Work.of] at hreached
        rw [h.reached, (hw.labels b).reached] at hreached
        cases hreached
      · exact List.mem_singleton.1 hqu
    subst hbe
    refine ⟨{ f with input := some input }, input, ?_, rfl⟩
    dsimp only [Work.of]
    rw [hfrs, set_self]
  · intro b f' input' hb hin'
    obtain ⟨rfl, rfl⟩ := hin b f' input' hb hin'
    rw [hstk]
    exact .entry
  · intro b f' input' hb hin' hhigh
    obtain ⟨rfl, rfl⟩ := hin b f' input' hb hin'
    rw [hstk] at hhigh
    simp at hhigh

theorem absorbed_of_prepared {w w' : MethodWriter} {entry : Label} (hw : w.Uninferred)
    (h : Prepared w entry w') (A : Work → Frame → Frame.Edge → Block → Prop) :
    Absorbed (Graph.of w') A (Work.of w' [entry]) := by
  intro b f edge s hreached
  dsimp only [Work.of] at hreached
  rw [h.reached, (hw.labels b).reached] at hreached
  cases hreached

/-- What the iteration leaves behind. -/
theorem heights_of_inferFrames {w w' : MethodWriter} {u : Unit} (hw : w.Uninferred) (h : inferFrames w = .ok u w') :
    ∃ frames entry locals, Heights (Graph.of w') frames entry locals (Work.of w' []) ∧
      Absorbed (Graph.of w') (Fits (Graph.of w')) (Work.of w' []) := by
  cases hent : w.blocks[0]? with
  | none =>
    -- nothing is inferred for a method without blocks
    obtain ⟨_, _, hget, hrest⟩ := Success.run_bind_ok.1 h
    obtain ⟨rfl, rfl⟩ := Success.run_get_ok.1 hget
    rw [hent] at hrest
    obtain ⟨-, rfl⟩ := Success.run_pure_ok.1 hrest
    have hin : ∀ b f input, frameOf w b = some f → ¬ f.input = some input := fun b f input hb hin => by
      rw [(hw.labels b).input f hb] at hin
      cases hin
    have hreached : ∀ b, ¬ (w.labels.info b).typed.isReachable = true := fun b hb => by
      rw [(hw.labels b).reached] at hb
      cases hb
    refine ⟨frameOf w, 0, 0, ⟨⟨fun b f hf => ⟨f, hf, rfl⟩, ?_, ?_, by simp [Work.of]⟩, ?_, ?_⟩, ?_⟩
    · exact fun b f input hb hi => absurd hi (hin b f input hb)
    · exact fun b hb => absurd (hb.resolve_right (by simp [Work.of])) (hreached b)
    · exact fun b f input hb hi => absurd hi (hin b f input hb)
    · exact fun b f input hb hi => absurd hi (hin b f input hb)
    · exact fun b f edge s hb => absurd hb (hreached b)
  | some entry =>
    obtain ⟨w₁, w₂, hprep, hruns, hsame, hlabs, hcontext⟩ := inferFrames_ok hw hent h
    obtain ⟨locals, hst⟩ := heights_of_prepared hw hprep
    obtain ⟨hhts, habs⟩ := hruns.absorbed absorbing_fits hst (absorbed_of_prepared hw hprep _)
    have hgraph : Graph.of w' = Graph.of w₁ := by
      rw [← hsame.graph, Graph.of, Graph.of, hlabs, hcontext]
    have hwork : Work.of w' [] = { Work.of w₂ [] with pool := w'.pool } := by
      have hfrs : frameOf w' = frameOf w₂ := by
        funext b
        rw [frameOf, frameOf, hlabs]
      simp only [Work.of, hfrs, hlabs]
    rw [hgraph, hwork]
    refine ⟨frameOf w, entry, locals, ?_, habs⟩
    exact ⟨⟨hhts.live.summary, hhts.live.locals, hhts.live.input, hhts.live.visited⟩,
      hhts.arrives, hhts.normal⟩

/-- Where the machine fails because of stack heights, two paths meet. -/
theorem arrives_of_fails {g : Graph} {frames : Block → Option Frame} {entry : Block} {locals : Nat} {work : Work}
    {offset expected found : Nat} (hhts : Heights g frames entry locals work)
    (h : Fails g work (.stackHeightMismatch offset expected found)) :
    expected ≠ found ∧ ∃ s, g.position s = offset ∧ Arrives g frames entry s expected ∧
      Arrives g frames entry s found := by
  obtain ⟨b, edge, s, rest, f, target, t, hpend, hf, htgt, hmrg⟩ := h
  rcases Frame.merge_error hmrg with hoth | ⟨input, hin, rfl, old, hold, hne, heq⟩
  · exact absurd rfl (hoth offset expected found)
  · cases heq
    obtain ⟨-, hedges⟩ := hhts.live.visited b _ hpend
    obtain ⟨f₀, hf₀, hsummary⟩ := hhts.live.summary b f hf
    have hnorm := Arrives.normal (hhts.arrives b f input hf hin) hf₀ (hedges _ List.mem_cons_self)
    refine ⟨hne, s, rfl, hhts.arrives s target old htgt hold, ?_⟩
    rw [hsummary]
    exact hnorm

/-- **Stack heights.** Of a method that is accepted, the heights that were found agree along all edges exactly if its
handlers are apart. A method that is rejected for its stack heights has two paths to the reported offset which
arrive there with the two reported heights. -/
theorem heights_agree_iff {w : MethodWriter} (hw : w.Unclosed) (stack locals : UInt16) :
    (∀ w', send (.maxs stack locals) w = .ok () w' →
      (∀ b, w'.IsReachable b → ∃ f input, w'.ReachedWith b f input) ∧
        (w'.HeightsAgree ↔ w'.HandlersApart)) ∧
    (∀ offset expected found w', send (.maxs stack locals) w =
        .error (.stackHeightMismatch offset expected found) w' →
      expected ≠ found ∧ ∃ entry s, w.blocks[0]? = some entry ∧ w.labels.position s = offset ∧
        Arrives (Graph.of w') (frameOf w) entry s expected ∧
        Arrives (Graph.of w') (frameOf w) entry s found) := by
  have hfresh := hw.uninferred
  refine ⟨fun w' h => ?_, fun offset expected found w' h => ?_⟩
  · obtain ⟨w₁, hinfer, hsealed⟩ := send_maxs_ok hfresh h
    obtain ⟨frames, entry, locals, hheights, habsorbed⟩ := heights_of_inferFrames hfresh hinfer
    -- sealing the method leaves its blocks alone
    have hgraph : Graph.of w₁ = Graph.of w' := by rw [hsealed]; rfl
    have hwork : Work.of w₁ [] = Work.of w' [] := by rw [hsealed]; rfl
    rw [hgraph, hwork] at hheights habsorbed
    have hlive : ∀ b, w'.IsReachable b → ∃ f input, w'.ReachedWith b f input := fun b hb =>
      let ⟨f, input, hf, hinput⟩ := hheights.live.input b (.inl hb)
      ⟨f, input, hb, hf, hinput⟩
    exact ⟨hlive, apart_of_heightsAgree habsorbed hlive, heightsAgree_of_apart hheights habsorbed⟩
  · rcases send_maxs_error hfresh h with hother | hinfer
    · exact absurd rfl (hother offset expected found)
    rcases inferFrames_error hfresh hinfer with hother | ⟨entry, w₁, work, hentry, hprepared, hsame, hruns, hfails⟩
    · exact absurd rfl (hother offset expected found)
    obtain ⟨locals, hstart⟩ := heights_of_prepared hfresh hprepared
    obtain ⟨hne, s, hposition, hexpected, hfound⟩ := arrives_of_fails (hruns.keeps Heights.step hstart) hfails
    rw [hsame.graph]
    refine ⟨hne, entry, s, hentry, ?_, hexpected, hfound⟩
    rw [← hposition]
    simp only [Graph.of, LabelTable.position, LabelTable.position?, hprepared.position]

/-- A method that pushes two items and then falls into its own exception handler, which pops two. -/
def fallsIntoHandler : MethodWriter :=
  let context : ClassContext := ⟨.javaLang, "A", ⟨52, 0⟩⟩
  let declared := start context .frames ⟨⟨9⟩, "m", "()V", none, []⟩ ⟨[], none⟩ .empty #[]
  let labelled := stateAfter (newLabel (stateAfter (newLabel (declared.afterEvents [.code]))))
  -- `iconst_0` twice, then `pop2` and `return` behind the label of the handler
  labelled.afterEvents
    [.tryCatch ⟨1, 2, 2, none⟩, .label 1, .instruction (.plain 3), .instruction (.plain 3), .label 2,
      .instruction (.plain 88), .instruction (.plain 177)]

theorem unclosed_fallsIntoHandler : fallsIntoHandler.Unclosed :=
  Unclosed.afterEvents (.newLabel (.newLabel (Unclosed.afterEvents (.start ..) rfl))) rfl

/-- It is accepted, although its handler is entered with two items and with one. -/
theorem heights_agree_iff_fallsIntoHandler :
    fallsIntoHandler.Unclosed ∧ ∃ w', send (.maxs 0 0) fallsIntoHandler = .ok () w' ∧ ¬ w'.HeightsAgree := by
  have haccepted : succeedsIn (fun w =>
      (w.labels.info 0).typed.isReachable && (Graph.of w).edges 0 == [(.normal, 2), (.caught 0, 2)] &&
        (frameOf w 0).map (fun f => (f.input.map (·.stack.size), f.popped, f.stack.size)) == some (some 0, 0, 2))
      (send (.maxs 0 0) fallsIntoHandler) = true := by
    decide +kernel
  obtain ⟨u, w', hsend, hfound⟩ := exists_of_succeedsIn haccepted
  simp only [Bool.and_eq_true, beq_iff_eq, Option.map_eq_some_iff, Prod.mk.injEq] at hfound
  obtain ⟨⟨hreachable, hedges⟩, f, hframe, ⟨input, hinput, hheight⟩, hpopped, hpushed⟩ := hfound
  refine ⟨unclosed_fallsIntoHandler, w', hsend, fun hagree => ?_⟩
  have hapart := (((heights_agree_iff unclosed_fallsIntoHandler 0 0).1 w' hsend).2).1 hagree
  have hone := (hapart 0 f input 2 ⟨hreachable, hframe, hinput⟩ (by simp [hedges])).2 0 0 hreachable (by simp [hedges])
  simp [arrivingHeight, hheight, hpopped, hpushed] at hone

end MethodWriter

end JvmAssembler
