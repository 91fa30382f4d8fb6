import JvmAssembler.Proofs.Invariant

/-!
# JvmAssembler.Proofs.Inference.Start

The states of a method from which its frames are inferred.

While a method is written nothing is known of the inputs of its blocks, no block is marked as reached or queued, and
blocks lead only to where control goes without an exception. This holds after any events, accepted or rejected, up to
the one that closes the body.
-/

namespace JvmAssembler

/-- Nothing is known of the input of a block, and nothing but jumps and falling through leads away from it. -/
structure TypedBlock.Fresh (b : TypedBlock) : Prop where
  queued : b.isQueued = false
  reached : b.isReachable = false
  input : ∀ f, b.frame = some f → f.input = none
  edges : ∀ e ∈ b.edges, e.1 = .normal

def LabelTable.Fresh (labels : LabelTable) : Prop := ∀ l, (labels.info l).typed.Fresh

/-- Writing keeps blocks fresh. -/
theorem LabelTable.Fresh.retouched {labels labels' : LabelTable} (h : labels.Fresh) (hlabs : labels.Retouched labels') :
    labels'.Fresh := by
  intro l
  obtain ⟨hqueued, hreached, hin, hedges⟩ := h l
  obtain ⟨-, -, hqueued', hreached', hfr, hedges'⟩ := hlabs l
  refine ⟨hqueued'.trans hqueued, hreached'.trans hreached, fun f hf => ?_, fun e he => ?_⟩
  · rcases hfr with hsame | hnew
    · exact hin f (hsame ▸ hf)
    · exact hnew f hf
  · rcases hedges' e he with hold | hnew
    · exact hedges e hold
    · exact hnew

/-- A method of which all frames are computed, but not yet. -/
structure MethodWriter.Uninferred (w : MethodWriter) : Prop where
  compute : w.compute = .frames
  labels : w.labels.Fresh

namespace MethodWriter

theorem uninferred_patchReference {w : MethodWriter} (hw : w.Uninferred) (position : Nat) (r : ForwardRef) :
    (patchReference position w r).Uninferred := by
  unfold patchReference
  dsimp only
  split
  · exact ⟨hw.compute, hw.labels⟩
  · split <;> exact ⟨hw.compute, hw.labels⟩

instance : Invariant Uninferred where
  beside h hw := by
    obtain ⟨hbooks, -, hlabs⟩ := h
    simp only [Prod.mk.injEq] at hbooks
    exact ⟨hbooks.2.2.2.2.2.2.trans hw.compute, hw.labels.retouched hlabs⟩
  fromPool _ w hw := by
    unfold fromPool
    dsimp only
    split <;> exact ⟨hw.compute, hw.labels⟩
  interpret op arg operand w hw := by
    unfold interpret
    split
    · rename_i block _ _
      split
      · exact hw
      · rename_i frame hfr
        have hin := Interpreter.keepsInput_execute op arg operand ⟨frame, w.pool⟩ ((hw.labels block).input frame hfr)
        have hreturned : ∀ f : Frame, f.input = none → w.labels.Retouched ((w.labels.updateTyped block fun b =>
            { b with frame := none }).updateTyped block fun b => { b with frame := some f }) := by
          intro f hf
          rw [LabelTable.updateTyped_updateTyped]
          refine LabelTable.Recorded.retouched (.update _ _ fun _ => ⟨⟨rfl, id, rfl, rfl, .inr fun f' hf' => ?_, fun _ => .inl⟩, rfl⟩)
          cases hf'
          exact hf
        dsimp only
        -- either way the frame that is put back has no input
        split <;> rename_i s hrun <;> rw [hrun] at hin <;>
          exact ⟨hw.compute, hw.labels.retouched (hreturned _ hin)⟩
    · exact hw
  resolve label := by
    refine .bind .get fun _ => .ite (.throw_bind _ _) (.modify fun w hw => ?_)
    have hpl : Uninferred { w with labels := w.labels.update label fun info =>
        { info with position := some w.code.size, waiting := #[] } } :=
      ⟨hw.compute, fun l => w.labels.info_update_cases (P := fun i i' => i.typed.Fresh → i'.typed.Fresh) label l _
        (fun _ => id) (fun _ => id) (hw.labels l)⟩
    exact List.foldlRecOn _ _ hpl fun w hw r _ => uninferred_patchReference hw _ r

/-- A frame that the caller supplies is ignored. -/
theorem keeps_writeFrame (frame : ExplicitFrame Label) : Keeps Uninferred (writeFrame frame) := by
  intro w hw
  have hignored : writeFrame frame w = .ok () w := by
    show (if w.compute = .frames then _ else _ : MethodM Unit) w = _
    rw [if_pos hw.compute]
    rfl
  rw [hignored]
  exact hw

/-- No event but those that end the body infers anything. -/
theorem keeps_send (event : MethodEvent Label) (hev : endsBody event = false) : Keeps Uninferred (send event) :=
  keeps_dispatch hev (fun _ hw => ⟨hw.compute, hw.labels⟩) keeps_writeFrame

/-- A method of which all frames are computed, as events may have left it: labels have been made, and events other
than those that end the body have been sent, whether they were accepted or not. -/
inductive Unclosed : MethodWriter → Prop
  | start (context : ClassContext) (d : Declaration) (descriptor : MethodDescriptor) (pool : Pool)
      (methods : Array (Member .ofMethod)) : Unclosed (start context .frames d descriptor pool methods)
  | newLabel {w : MethodWriter} : Unclosed w → Unclosed (stateAfter (newLabel w))
  | send {w : MethodWriter} (event : MethodEvent Label) : Unclosed w → endsBody event = false →
      Unclosed (stateAfter (send event w))

theorem Unclosed.uninferred {w : MethodWriter} (h : w.Unclosed) : w.Uninferred := by
  induction h with
  | start context d descriptor pool methods =>
    refine ⟨rfl, fun l => ?_⟩
    rw [LabelTable.info_of_size_le _ _ (Nat.zero_le l)]
    exact ⟨rfl, rfl, by simp, by simp⟩
  | newLabel _ ih => exact tame_newLabel.keeps _ ih
  | send event _ hev ih => exact keeps_send event hev _ ih

theorem Unclosed.afterEvents {w : MethodWriter} (h : w.Unclosed) {events : List (MethodEvent Label)}
    (hevents : events.all (!endsBody ·) = true) : (afterEvents w events).Unclosed := by
  refine List.foldlRecOn events _ h fun w hw event hev => .send event hw ?_
  simpa using List.all_eq_true.1 hevents event hev

end MethodWriter

end JvmAssembler
