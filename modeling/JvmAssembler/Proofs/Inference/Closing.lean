import JvmAssembler.Proofs.Frame.Failure
import JvmAssembler.Proofs.Inference.Refinement
import JvmAssembler.Proofs.Inference.Start

/-!
# JvmAssembler.Proofs.Inference.Closing

What closing the body of a method does, where frames are computed: exception edges are added, the entry gets the
parameters as its input, the iteration runs, and its results are stored.

`closeCode_ok` and `closeCode_error` say this in terms of the machine of `Worklist`. No other part of closing the body
changes what the machine works on or fails because of stack heights.
-/

namespace JvmAssembler

open Success

namespace MethodWriter

open Inference

/-! ### Exception edges -/

/-- Exception edges change where blocks lead to and what is jumped to. -/
abbrev SameFrames : MethodWriter → MethodWriter → Prop := SameBut fun b => (b.frame, b.isReachable, b.isQueued)

theorem addCatchEdges_run (h : Handler Label) (w : MethodWriter) :
    ∃ row pool, addCatchEdges h w = .ok () { w with
        pool := pool
        labels := (blockRange w.blocks (w.labels.first h.start) (w.labels.first h.stop)).foldl
          (fun labels b => labels.addTypeEdge b (.caught row) (w.labels.first h.handler))
          (w.labels.markTarget (w.labels.first h.handler)) } :=
  ⟨_, _, rfl⟩

theorem sameFrames_addCatchEdges {h : Handler Label} {w w' : MethodWriter} {u : Unit}
    (hrun : addCatchEdges h w = .ok u w') : SameFrames w w' := by
  obtain ⟨row, pool, heq⟩ := addCatchEdges_run h w
  rw [heq] at hrun
  cases hrun
  refine ⟨rfl, ?_⟩
  dsimp only
  exact List.foldlRecOn _ _ (.updateTyped _ _ fun _ => rfl) fun labels hlabs b _ => hlabs.andUpdateTyped _ fun _ => rfl

theorem sameFrames_forM {handlers : List (Handler Label)} {w w' : MethodWriter} {u : PUnit}
    (h : handlers.forM addCatchEdges w = .ok u w') : SameFrames w w' := by
  induction handlers generalizing w with
  | nil =>
    obtain ⟨-, rfl⟩ := run_pure_ok.1 h
    exact .refl _
  | cons handler handlers ih =>
    obtain ⟨_, w₁, hfst, h⟩ := run_bind_ok.1 h
    exact (sameFrames_addCatchEdges hfst).trans (ih h)

/-! ### The start of the iteration -/

/-- The iteration is about to start from an entry. -/
structure Prepared (w : MethodWriter) (entry : Label) (w' : MethodWriter) : Prop where
  context : w'.context = w.context
  position : ∀ l, (w'.labels.info l).position = (w.labels.info l).position
  /-- Only the entry has an input, which has no stack. -/
  frames : ∃ f input, frameOf w entry = some f ∧ input.stack = #[] ∧
    frameOf w' = set (frameOf w) entry (some { f with input := some input })
  reached : ∀ l, (w'.labels.info l).typed.isReachable = (w.labels.info l).typed.isReachable
  queued : ∀ l, (w'.labels.info l).typed.isQueued = if l = entry then true else (w.labels.info l).typed.isQueued

theorem ofMethod_ok {thisClass : String} {isStatic isConstructor : Bool} {desc : MethodDescriptor}
    {maxLocals : Nat} {pool pool' : Pool} {input : FrameInput}
    (h : FrameInput.ofMethod thisClass isStatic isConstructor desc maxLocals pool = .ok input pool') :
    input.stack = #[] := by
  have hrest : ∀ {recv : List FrameType} {pool : Pool}, (do
      let parameters ← desc.parameters.mapM FrameType.ofFieldType
      let slots := recv ++ parameters.flatMap fun t => if t.isWide then [t, .top] else [t]
      let slots := (slots.map some).toArray
      return { locals := slots ++ Array.replicate (maxLocals - slots.size) (some .top) } : PoolM FrameInput) pool =
        .ok input pool' → input.stack = #[] := by
    intro recv pool h
    obtain ⟨_, _, _, h⟩ := run_bind_ok.1 h
    obtain ⟨rfl, -⟩ := run_pure_ok.1 h
    rfl
  unfold FrameInput.ofMethod at h
  split at h
  · exact hrest h
  · split at h
    · exact hrest h
    · obtain ⟨_, _, _, h⟩ := run_bind_ok.1 h
      exact hrest h

/-- The entry gets an input without a stack. -/
theorem startEntry_ok {entry : Label} {w w' : MethodWriter} {locals : List VerificationType}
    (h : startEntry entry w = .ok locals w') :
    ∃ f input pool, frameOf w entry = some f ∧ input.stack = #[] ∧
      w' = { w with
        pool := pool
        labels := w.labels.updateTyped entry fun b =>
          { b with frame := b.frame.map fun f => { f with input := some input } } } := by
  unfold startEntry at h
  obtain ⟨w₁, w₂, hget, h⟩ := run_bind_ok.1 h
  obtain ⟨rfl, rfl⟩ := run_get_ok.1 hget
  cases hfr : (w.labels.info entry).typed.frame with
  | none =>
    rw [hfr, if_pos Option.isNone_none] at h
    cases h
  | some f =>
    rw [hfr, if_neg (by simp)] at h
    obtain ⟨input, w₃, hin, h⟩ := run_bind_ok.1 h
    obtain ⟨pool, hmeth, rfl⟩ := fromPool_ok hin
    obtain ⟨_, w₄, hupd, h⟩ := run_bind_ok.1 h
    obtain rfl := run_modify_ok.1 hupd
    obtain ⟨_, w₅, htypes, h⟩ := run_bind_ok.1 h
    obtain ⟨pool', -, rfl⟩ := fromPool_ok htypes
    obtain ⟨-, rfl⟩ := run_pure_ok.1 h
    exact ⟨f, input, pool', hfr, ofMethod_ok hmeth, rfl⟩

/-- Before the iteration starts, the entry is queued with its input. -/
theorem prepared {entry : Label} {w w₁ w₂ : MethodWriter} {u : PUnit} {locals : List VerificationType}
    (hcatch : w.handlers.toList.forM addCatchEdges w = .ok u w₁)
    (hst : startEntry entry w₁ = .ok locals w₂) :
    Prepared w entry { w₂ with labels := w₂.labels.updateTyped entry fun b => { b with isQueued := true } } := by
  have hsame := sameFrames_forM hcatch
  obtain ⟨f, input, pool, hfr, hstk, rfl⟩ := startEntry_ok hst
  have hlt := w₁.labels.lt_size_of_frame entry hfr
  have hfrs : ∀ l, frameOf w₁ l = frameOf w l := fun l => (Prod.mk.inj (hsame.labels.typed l)).1
  have hflags := fun l => Prod.mk.inj (Prod.mk.inj (hsame.labels.typed l)).2
  -- the two changes of the entry as one
  have hinfo : ∀ l, (((w₁.labels.updateTyped entry fun b =>
        { b with frame := b.frame.map fun f => { f with input := some input } }).updateTyped entry fun b =>
        { b with isQueued := true }).info l) =
      if l = entry then
        { w₁.labels.info l with
          typed := { (w₁.labels.info l).typed with frame := some { f with input := some input }, isQueued := true } }
      else w₁.labels.info l := by
    intro l
    rw [LabelTable.updateTyped_eq, LabelTable.updateTyped_eq]
    by_cases hl : l = entry
    · subst hl
      rw [if_pos rfl, LabelTable.info_update_self _ _ _ (by simpa using hlt), LabelTable.info_update_self _ _ _ hlt]
      rw [frameOf] at hfr
      simp only [hfr, Option.map_some]
    · rw [if_neg hl, LabelTable.info_update_of_ne _ _ _ _ hl, LabelTable.info_update_of_ne _ _ _ _ hl]
  refine ⟨?_, fun l => ?_, ⟨f, input, ?_, hstk, ?_⟩, fun l => ?_, fun l => ?_⟩
  · rw [hsame.rest]
  · dsimp only
    rw [hinfo, ← hsame.labels.position]
    split <;> rfl
  · rw [← hfrs]
    exact hfr
  · funext l
    rw [frameOf, hinfo]
    by_cases hl : l = entry
    · subst hl
      rw [if_pos rfl, set_self]
    · rw [if_neg hl, set_of_ne _ _ hl]
      exact hfrs l
  · dsimp only
    rw [hinfo]
    split <;> exact (hflags l).1
  · dsimp only
    rw [hinfo]
    split
    · rfl
    · exact (hflags l).2

/-! ### Results -/

def HasTable (labels : LabelTable) (context : ClassContext) (w : MethodWriter) : Prop :=
  w.labels = labels ∧ w.context = context

section HasTable

variable {labels : LabelTable} {context : ClassContext}

theorem keepsTable_fromPool {α : Type} (action : PoolM α) : Keeps (HasTable labels context) (fromPool action) := by
  intro w hw
  unfold fromPool
  dsimp only
  split <;> exact hw

theorem keepsTable_checked {α : Type} (result : Except Error α) :
    Keeps (HasTable labels context) (checked result) := by
  cases result with
  | ok a => exact .pure a
  | error e => exact .throw e

theorem keepsTable_storeFrames (blocks : List Label) (map : StackMap.Builder) (largest : Nat) :
    Keeps (HasTable labels context) (storeFrames blocks map largest) := by
  induction blocks generalizing map largest with
  | nil => exact .pure _
  | cons block rest ih =>
    refine .bind (.bind .get fun w => .ite (.pure _) ?_) fun _ => .bind (.bind .get fun w => .ite (.pure _) ?_)
      fun _ => ih _ _
    · split
      · exact .throw _
      · exact .bind (keepsTable_fromPool _) fun _ => keepsTable_checked _
    · exact .bind (.modify fun _ h => h) fun _ => .bind (keepsTable_fromPool _) fun _ =>
        .bind (keepsTable_checked _) fun _ => .bind (.modify fun _ h => h) fun _ => .pure _

end HasTable

/-! ### Closing the body -/

variable {w w' : MethodWriter} {entry : Label} {u : Unit}

theorem marked_of_prepared (h : Prepared w entry w') (hw : w.Uninferred) :
    Marked w' [entry] := by
  refine ⟨by simp, fun l => ?_⟩
  rw [h.queued, List.mem_singleton]
  split
  · simpa
  · rename_i hl
    simp [hl, (hw.labels l).queued]

/-- The stages of inferring the frames of a method: exception edges are added, the entry gets its input, blocks are
visited, and the results are stored. -/
structure Stages (w : MethodWriter) (entry : Label) (caught started visited stored : MethodWriter)
    (parameters : List VerificationType) (largest size : Nat) (map : StackMap.Builder) : Prop where
  catches : ∃ u : PUnit, w.handlers.toList.forM addCatchEdges w = .ok u caught
  starts : startEntry entry caught = .ok parameters started
  visits : ∃ bound, iterate bound [entry] 0
    { started with labels := started.labels.updateTyped entry fun b => { b with isQueued := true } } = .ok largest visited
  stores : storeFrames visited.blocks.toList (.start parameters) largest visited = .ok (map, size) stored

theorem inferFrames_stages (hent : w.blocks[0]? = some entry)
    (h : inferFrames w = .ok u w') :
    ∃ caught started visited stored parameters largest size map,
      Stages w entry caught started visited stored parameters largest size map ∧
        w' = { stored with maxStack := size, stackMap := some map } := by
  unfold inferFrames at h
  rw [run_get_bind, hent] at h
  dsimp only at h
  rw [run_get_bind] at h
  obtain ⟨u₁, w₁, hcatch, h₁⟩ := run_bind_ok.1 h
  obtain ⟨parameters, w₂, hst, h₂⟩ := run_bind_ok.1 h₁
  obtain ⟨_, w₃, hqu, h₃⟩ := run_bind_ok.1 h₂
  obtain rfl := run_modify_ok.1 hqu
  rw [run_get_bind] at h₃
  obtain ⟨largest, w₄, hiter, h₄⟩ := run_bind_ok.1 h₃
  rw [run_get_bind] at h₄
  obtain ⟨⟨map, size⟩, w₅, hsto, h₅⟩ := run_bind_ok.1 h₄
  obtain rfl := run_modify_ok.1 h₅
  exact ⟨w₁, w₂, w₄, w₅, parameters, largest, size, map, ⟨⟨u₁, hcatch⟩, hst, ⟨_, hiter⟩, hsto⟩, rfl⟩

/-- **Inferring frames is a run of the machine** from the entry to where nothing is left to visit. -/
theorem inferFrames_ok (hw : w.Uninferred) (hent : w.blocks[0]? = some entry) (h : inferFrames w = .ok u w') :
    ∃ w₁ w₂, Prepared w entry w₁ ∧ Runs (Graph.of w₁) (Work.of w₁ [entry]) (Work.of w₂ []) ∧
      SameMethod w₁ w₂ ∧ w'.labels = w₂.labels ∧ w'.context = w₂.context := by
  obtain ⟨w₁, w₂, w₃, w₄, parameters, largest, size, map, hstages, rfl⟩ := inferFrames_stages hent h
  obtain ⟨_, hcatch⟩ := hstages.catches
  obtain ⟨_, hiter⟩ := hstages.visits
  have hprep := prepared hcatch hstages.starts
  obtain ⟨hruns, hsame⟩ := iterate_ok (marked_of_prepared hprep hw) hiter
  have htable : HasTable w₃.labels w₃.context w₄ := (keepsTable_storeFrames _ _ _).ok ⟨rfl, rfl⟩ hstages.stores
  exact ⟨_, w₃, hprep, hruns, hsame, htable⟩

/-- Inferring frames fails because of stack heights only where the machine does. -/
theorem inferFrames_error {e : Error} (hw : w.Uninferred) (h : inferFrames w = .error e w') :
    e.IsOther ∨ ∃ entry w₁ work, w.blocks[0]? = some entry ∧ Prepared w entry w₁ ∧ SameMethod w₁ w' ∧
      Runs (Graph.of w₁) (Work.of w₁ [entry]) work ∧ Fails (Graph.of w₁) work e := by
  rcases run_bind_error.1 h with hget | ⟨w₁, w₂, hget, h⟩
  · cases hget
  obtain ⟨rfl, rfl⟩ := run_get_ok.1 hget
  cases hent : w.blocks[0]? with
  | none =>
    rw [hent] at h
    cases h
  | some entry =>
    rw [hent] at h
    rcases run_bind_error.1 h with hget | ⟨w₁, w₂, hget, h⟩
    · cases hget
    obtain ⟨rfl, rfl⟩ := run_get_ok.1 hget
    rcases run_bind_error.1 h with hcatch | ⟨_, w₁, hcatch, h⟩
    · exact .inl ((Raises.forM raises_addCatchEdges _).isOther _ _ _ hcatch)
    rcases run_bind_error.1 h with hst | ⟨locals, w₂, hst, h⟩
    · exact .inl ((raises_startEntry _).isOther _ _ _ hst)
    rcases run_bind_error.1 h with hqu | ⟨_, w₃, hqu, h⟩
    · cases hqu
    obtain rfl := run_modify_ok.1 hqu
    have hprep := prepared hcatch hst
    rcases run_bind_error.1 h with hget | ⟨w₄, w₅, hget, h⟩
    · cases hget
    obtain ⟨rfl, rfl⟩ := run_get_ok.1 hget
    rcases run_bind_error.1 h with hiter | ⟨largest, w₄, hiter, h⟩
    · obtain ⟨hsame, herr⟩ := iterate_error (marked_of_prepared hprep hw) hiter
      rcases herr with rfl | rfl | ⟨work, hruns, hfails⟩
      · exact .inl nofun
      · exact .inl nofun
      · exact .inr ⟨entry, _, work, rfl, hprep, hsame, hruns, hfails⟩
    rcases run_bind_error.1 h with hget | ⟨w₅, w₆, hget, h⟩
    · cases hget
    rcases run_bind_error.1 h with hsto | ⟨_, _, _, h⟩
    · exact .inl ((raises_storeFrames _ _ _).isOther _ _ _ hsto)
    · cases h

/-- Closing the body is inferring its frames, once all labels that are used are placed. -/
theorem closeCode_run (hcomp : w.compute = .frames) (stack locals : Nat) :
    (∃ e, closeCode stack locals w = .error e w ∧ e.IsOther) ∨
      closeCode stack locals w = (inferFrames >>= fun _ => modify fun w => { w with stage := .sealed }) w := by
  have hpl := Keeps.forM (fun h : Handler Label => keeps_requirePlaced w [h.start, h.stop, h.handler])
    w.handlers.toList w rfl
  have hraises := Raises.forM (fun h : Handler Label => (raises_requirePlaced [h.start, h.stop, h.handler]).isOther)
    w.handlers.toList w
  cases hidx : w.labels.findIdx? (!·.waiting.isEmpty) with
  | some lbl =>
    refine .inl ⟨.unresolvedLabel lbl, (run_bind_of_ok rfl).trans ?_, nofun⟩
    rw [hidx]
    rfl
  | none =>
    have hrun : closeCode stack locals w =
        (w.handlers.toList.forM (fun h => requirePlaced [h.start, h.stop, h.handler]) >>= fun _ =>
          inferFrames >>= fun _ => modify fun w => { w with stage := .sealed }) w := by
      refine (run_bind_of_ok rfl).trans ?_
      rw [hidx, hcomp]
    rw [hrun]
    cases hforM : w.handlers.toList.forM (fun h => requirePlaced [h.start, h.stop, h.handler]) w with
    | ok u w₁ =>
      rw [hforM] at hpl
      obtain rfl : w₁ = w := hpl
      exact .inr (run_bind_of_ok hforM)
    | error e w₁ =>
      rw [hforM] at hpl
      obtain rfl : w₁ = w := hpl
      exact .inl ⟨e, run_bind_of_error hforM, hraises _ _ hforM⟩

/-- A `maxs` event that is accepted has inferred the frames. -/
theorem send_maxs_ok {stack locals : UInt16} (hw : w.Uninferred) (h : send (.maxs stack locals) w = .ok u w') :
    ∃ w₁, inferFrames w = .ok () w₁ ∧ w' = { w₁ with stage := .sealed } := by
  rw [send_maxs_run] at h
  split at h
  · rcases closeCode_run hw.compute stack.toNat locals.toNat with ⟨e, herr, -⟩ | hrun
    · rw [herr] at h
      cases h
    · rw [hrun] at h
      obtain ⟨_, w₁, hinfer, hstg⟩ := run_bind_ok.1 h
      exact ⟨w₁, hinfer, (run_modify_ok.1 hstg).symm⟩
  · cases h

/-- A `maxs` event is rejected because of stack heights only where inferring the frames is. -/
theorem send_maxs_error {stack locals : UInt16} {e : Error} (hw : w.Uninferred)
    (h : send (.maxs stack locals) w = .error e w') : e.IsOther ∨ inferFrames w = .error e w' := by
  rw [send_maxs_run] at h
  split at h
  · rcases closeCode_run hw.compute stack.toNat locals.toNat with ⟨e', herr, hoth⟩ | hrun
    · rw [herr] at h
      cases h
      exact .inl hoth
    · rw [hrun] at h
      rcases run_bind_error.1 h with hinfer | ⟨_, _, _, hstg⟩
      · exact .inr hinfer
      · cases hstg
  · cases h
    exact .inl nofun

end MethodWriter

end JvmAssembler
