import JvmAssembler.Proofs.ClassFile.Counts
import JvmAssembler.Proofs.Locals
import JvmAssembler.Proofs.Sizing.Table
import JvmAssembler.Proofs.StackMap

/-!
# JvmAssembler.Proofs.CallerFrames

The locals of the frames that a caller supplies.

Frames are given one relative to the other, and the first one relative to the receiver and the parameters. The writer keeps
track of the locals that the frames themselves speak of (`FrameShape.track`) and makes room for those. What is left of the
receiver and the parameters stands before them, and is not counted along (`callerFrames_slots`), so a frame fits for certain
only from the first full frame on, or if there are neither receiver nor parameters.
-/

namespace JvmAssembler

open Success

/-! ### The locals of decoded frames -/

def VerificationType.width : VerificationType → Nat
  | long | double => 2
  | _ => 1

def slots (types : List VerificationType) : Nat := (types.map VerificationType.width).sum

namespace FrameShape

variable {σ τ : Type}

/-- The locals behind a frame that are known from frames alone. Chopping more than these goes unnoticed. -/
def track (known : List τ) : FrameShape τ → List τ
  | same | sameOne _ => known
  | chop count => known.take (known.length - count)
  | append locals => known ++ locals
  | full locals _ => locals

/-- Whether a frame does not refer to the one before it. -/
def isFull : FrameShape τ → Bool
  | full .. => true
  | _ => false

theorem track_map (f : σ → τ) (known : List σ) (shape : FrameShape σ) :
    (shape.map f).track (known.map f) = (shape.track known).map f := by
  cases shape with
  | chop count => simp [FrameShape.map, track, List.map_take]
  | append locals => exact List.map_append.symm
  | same | sameOne | full => rfl

/-- **What a frame leaves of the locals that no frame speaks of** is a first part of them, and nothing if it is full. -/
theorem apply_split {kept known : List τ} {shape : FrameShape τ} {contents : List τ × List τ}
    (h : shape.apply (kept ++ known) = some contents) :
    ∃ kept', kept' <+: kept ∧ contents.1 = kept' ++ shape.track known ∧ (shape.isFull = true → kept' = []) := by
  cases shape with
  | same | sameOne item =>
    cases h
    exact ⟨kept, List.prefix_refl _, rfl, by simp [isFull]⟩
  | chop count =>
    simp only [apply, Option.ite_none_right_eq_some, Option.some.injEq] at h
    obtain ⟨-, rfl⟩ := h
    have hrest : kept.length + known.length - count - kept.length = known.length - count := by omega
    refine ⟨kept.take (kept.length + known.length - count), List.take_prefix _ _, ?_, by simp [isFull]⟩
    simp only [List.length_append, List.take_append, hrest, track]
  | append locals =>
    cases h
    exact ⟨kept, List.prefix_refl _, List.append_assoc _ _ _, by simp [isFull]⟩
  | full locals stack =>
    cases h
    exact ⟨[], List.nil_prefix, rfl, fun _ => rfl⟩

end FrameShape

namespace StackMap

/-- The locals behind some frames that are known from frames alone. -/
def tracked (known : List VerificationType) (frames : List StackMapFrame) : List VerificationType :=
  frames.foldl (fun known frame => frame.shape.track known) known

/-- The most slots that such locals take, behind any of some frames. -/
def trackedSlots (known : List VerificationType) : List StackMapFrame → Nat
  | [] => slots known
  | frame :: rest => max (slots known) (trackedSlots (frame.shape.track known) rest)

/-- The frame of a stack map with a number in full, where a method starts with the locals `initial`. -/
def full? (initial : List VerificationType) (frames : List StackMapFrame) (i : Nat) : Option FullFrame :=
  if i < frames.length then (expand none initial (frames.take (i + 1))).bind List.getLast? else none

theorem trackedSlots_concat (known : List VerificationType) (frames : List StackMapFrame) (frame : StackMapFrame) :
    trackedSlots known (frames ++ [frame]) =
      max (trackedSlots known frames) (slots (frame.shape.track (tracked known frames))) := by
  induction frames generalizing known with
  | nil => rfl
  | cons first rest ih =>
    rw [List.cons_append, trackedSlots, ih, trackedSlots, Nat.max_assoc]
    rfl

theorem slots_tracked_le (known : List VerificationType) (frames : List StackMapFrame) (n : Nat) :
    slots (tracked known (frames.take n)) ≤ trackedSlots known frames := by
  induction frames generalizing known n with
  | nil => simp [tracked, trackedSlots]
  | cons first rest ih =>
    cases n with
    | zero => exact Nat.le_max_left _ _
    | succ n => exact Nat.le_trans (ih _ n) (Nat.le_max_right _ _)

/-- The locals of the last of some frames: what is left of those that no frame speaks of, then those that are tracked. -/
theorem locals_expand {kept known : List VerificationType} {previous : Option Nat} {frames : List StackMapFrame}
    {fulls : List FullFrame} (h : expand previous (kept ++ known) frames = some fulls) :
    ∃ kept', kept' <+: kept ∧ (fulls.map FullFrame.locals).getLastD (kept ++ known) = kept' ++ tracked known frames ∧
      ((∃ frame ∈ frames, frame.shape.isFull = true) → kept' = []) := by
  induction frames generalizing kept known previous fulls with
  | nil =>
    cases h
    exact ⟨kept, List.prefix_refl _, rfl, by simp⟩
  | cons frame frames ih =>
    obtain ⟨contents, happly, hrest⟩ := Option.bind_eq_some_iff.1 h
    obtain ⟨rest, hexpand, hfulls⟩ := Option.bind_eq_some_iff.1 hrest
    cases hfulls
    obtain ⟨kept₁, hprefix₁, hcontents, hfull₁⟩ := FrameShape.apply_split happly
    rw [hcontents] at hexpand
    obtain ⟨kept₂, hprefix₂, hlast, hfull₂⟩ := ih hexpand
    refine ⟨kept₂, hprefix₂.trans hprefix₁, ?_, ?_⟩
    · rw [List.map_cons, List.getLastD_cons, hcontents, hlast]
      rfl
    · rintro ⟨g, hg, hfull⟩
      rcases List.mem_cons.1 hg with rfl | hg
      · rw [hfull₁ hfull] at hprefix₂
        exact List.prefix_nil.1 hprefix₂
      · exact hfull₂ ⟨g, hg, hfull⟩

/-- **The locals of a decoded frame** are what is left of those at the start, then those that are tracked. -/
theorem locals_full? {initial : List VerificationType} {frames : List StackMapFrame} {i : Nat} {frame : FullFrame}
    (h : full? initial frames i = some frame) :
    ∃ kept, kept <+: initial ∧ frame.locals = kept ++ tracked [] (frames.take (i + 1)) ∧
      ((∃ g ∈ frames.take (i + 1), g.shape.isFull = true) → kept = []) := by
  rw [full?, Option.ite_none_right_eq_some] at h
  obtain ⟨fulls, hexpand, hlast⟩ := Option.bind_eq_some_iff.1 h.2
  rw [← List.append_nil initial] at hexpand
  obtain ⟨kept, hprefix, hloc, hfull⟩ := locals_expand hexpand
  refine ⟨kept, hprefix, ?_, hfull⟩
  rw [← hloc, List.getLastD_eq_getLast?, List.getLast?_map, hlast]
  rfl

end StackMap

namespace MethodWriter

/-! ### What one frame does -/

/-- What a step that asks for a type leaves alone: all but the pool. -/
def OnlyPool (w w' : MethodWriter) : Prop := ∃ pool, w' = { w with pool := pool }

instance : Std.Refl OnlyPool := ⟨fun w => ⟨w.pool, rfl⟩⟩

instance : Trans OnlyPool OnlyPool OnlyPool where
  trans := by
    rintro u v w ⟨pool, rfl⟩ ⟨pool', rfl⟩
    exact ⟨pool', rfl⟩

theorem width_itemType {item : FrameItem Label} {t : VerificationType} {w w' : MethodWriter}
    (h : itemType item w = .ok t w') : t.width = item.width ∧ OnlyPool w w' := by
  cases item with
  | object name =>
    obtain ⟨i, w₁, hcls, hpure⟩ := run_bind_ok.1 h
    obtain ⟨rfl, rfl⟩ := run_pure_ok.1 hpure
    obtain ⟨pool, -, rfl⟩ := fromPool_ok hcls
    exact ⟨rfl, pool, rfl⟩
  | uninitialized label =>
    obtain ⟨_, w₁, hchk, hrest⟩ := run_bind_ok.1 h
    obtain ⟨-, rfl⟩ := checkLabel_ok hchk
    rw [run_get_bind] at hrest
    cases hplc : w.labels.position? label with
    | some position =>
      rw [hplc] at hrest
      obtain ⟨rfl, rfl⟩ := run_pure_ok.1 hrest
      exact ⟨rfl, Std.Refl.refl w⟩
    | none =>
      rw [hplc] at hrest
      cases hrest
  | _ =>
    obtain ⟨rfl, rfl⟩ := run_pure_ok.1 h
    exact ⟨rfl, Std.Refl.refl w⟩

theorem widths_itemTypes {items : List (FrameItem Label)} {types : List VerificationType} {w w' : MethodWriter}
    (h : items.mapM itemType w = .ok types w') :
    types.map VerificationType.width = items.map FrameItem.width ∧ OnlyPool w w' := by
  induction items generalizing types w with
  | nil =>
    obtain ⟨rfl, rfl⟩ := run_pure_ok.1 h
    exact ⟨rfl, Std.Refl.refl w⟩
  | cons item items ih =>
    rw [List.mapM_cons] at h
    obtain ⟨t, w₁, hitem, h⟩ := run_bind_ok.1 h
    obtain ⟨types, w₂, hitems, h⟩ := run_bind_ok.1 h
    obtain ⟨rfl, rfl⟩ := run_pure_ok.1 h
    obtain ⟨hwidth, hpool⟩ := width_itemType hitem
    obtain ⟨hwidths, hpool'⟩ := ih hitems
    exact ⟨by rw [List.map_cons, List.map_cons, hwidth, hwidths], Trans.trans hpool hpool'⟩

/-- **The shape of a frame** has the types that the caller gave, and the locals of the caller are tracked. -/
theorem tracks_callerShape {frame : ExplicitFrame Label} {shape : FrameShape VerificationType} {w w' : MethodWriter}
    (h : callerShape frame w = .ok shape w') :
    shape.map VerificationType.width = frame.map FrameItem.width ∧
      ∃ pool, w' = { w with pool := pool, callerLocals := frame.track w.callerLocals } := by
  cases frame with
  | same =>
    obtain ⟨rfl, rfl⟩ := run_pure_ok.1 h
    exact ⟨rfl, w.pool, rfl⟩
  | sameOne item =>
    obtain ⟨t, w₁, hitem, h⟩ := run_bind_ok.1 h
    obtain ⟨rfl, rfl⟩ := run_pure_ok.1 h
    obtain ⟨hwidth, pool, rfl⟩ := width_itemType hitem
    exact ⟨congrArg FrameShape.sameOne hwidth, pool, rfl⟩
  | chop count =>
    unfold callerShape at h
    dsimp only at h
    split at h
    · cases h
    · obtain ⟨_, w₁, hupd, h⟩ := run_bind_ok.1 h
      obtain ⟨rfl, rfl⟩ := run_pure_ok.1 h
      obtain rfl := run_modify_ok.1 hupd
      exact ⟨rfl, w.pool, rfl⟩
  | append items =>
    unfold callerShape at h
    dsimp only at h
    split at h
    · cases h
    · obtain ⟨types, w₁, hitems, h⟩ := run_bind_ok.1 h
      obtain ⟨_, w₂, hupd, h⟩ := run_bind_ok.1 h
      obtain ⟨rfl, rfl⟩ := run_pure_ok.1 h
      obtain rfl := run_modify_ok.1 hupd
      obtain ⟨hwidths, pool, rfl⟩ := widths_itemTypes hitems
      exact ⟨congrArg FrameShape.append hwidths, pool, rfl⟩
  | full locals stack =>
    obtain ⟨types, w₁, hloc, h⟩ := run_bind_ok.1 h
    obtain ⟨types', w₂, hstk, h⟩ := run_bind_ok.1 h
    obtain ⟨_, w₃, hupd, h⟩ := run_bind_ok.1 h
    obtain ⟨rfl, rfl⟩ := run_pure_ok.1 h
    obtain rfl := run_modify_ok.1 hupd
    obtain ⟨hwidths, pool, rfl⟩ := widths_itemTypes hloc
    obtain ⟨hwidths', pool', rfl⟩ := widths_itemTypes hstk
    exact ⟨congr (congrArg FrameShape.full hwidths) hwidths', pool', rfl⟩

def callerFrames (w : MethodWriter) : List StackMapFrame := (w.stackMap.map (·.frames.toList)).getD []

/-- A shape is stored behind the others, unless it is dropped: then it says nothing about locals. -/
theorem pushShape_frames {b b' : StackMap.Builder} {offset : Nat} {shape : FrameShape VerificationType}
    (h : b.pushShape offset shape = .ok b') :
    (∃ frame : StackMapFrame, frame.shape = shape ∧ b'.frames.toList = b.frames.toList ++ [frame]) ∨
      (shape = .same ∧ b'.frames.toList = b.frames.toList) := by
  unfold StackMap.Builder.pushShape at h
  split at h
  next delta _ =>
    cases h
    exact .inl ⟨⟨delta, shape⟩, rfl, Array.toList_push⟩
  next =>
    split at h
    · cases h
      exact .inr ⟨rfl, rfl⟩
    · cases h

/-- **A frame of the caller**, where sizes are computed: its locals are tracked, there is room for those, and it is stored. -/
theorem writeFrame_maxs {frame : ExplicitFrame Label} {w w' : MethodWriter} (hcomp : w.compute = .maxs)
    (h : writeFrame frame w = .ok () w') :
    w'.compute = .maxs ∧ w'.callerLocals = frame.track w.callerLocals ∧
      w'.maxLocals = max w.maxLocals ((w'.callerLocals.map FrameItem.width).sum) ∧
      ∃ shape : FrameShape VerificationType, shape.map VerificationType.width = frame.map FrameItem.width ∧
        ((∃ stored : StackMapFrame, stored.shape = shape ∧ w'.callerFrames = w.callerFrames ++ [stored]) ∨
          (shape = .same ∧ w'.callerFrames = w.callerFrames)) := by
  unfold writeFrame at h
  rw [run_get_bind] at h
  dsimp only at h
  rw [if_neg (by simp [hcomp])] at h
  obtain ⟨offset, w₁, hpos, h⟩ := run_bind_ok.1 h
  cases hpos
  obtain ⟨shape, w₁, hsh, h⟩ := run_bind_ok.1 h
  obtain ⟨hwidths, pool, rfl⟩ := tracks_callerShape hsh
  rw [run_get_bind] at h
  obtain ⟨_, w₁, huse, h⟩ := run_bind_ok.1 h
  obtain rfl := run_modify_ok.1 huse
  rw [if_neg (by simp [hcomp]), run_get_bind] at h
  obtain ⟨_, w₁, hclear, h⟩ := run_bind_ok.1 h
  obtain rfl := run_modify_ok.1 hclear
  have hbef : (w.stackMap.getD (.start [])).frames.toList = w.callerFrames := by
    unfold callerFrames
    cases w.stackMap <;> rfl
  dsimp only at h
  cases hpush : (w.stackMap.getD (.start [])).pushShape w.code.size shape with
  | ok map =>
    rw [hpush] at h
    obtain rfl := run_modify_ok.1 h
    refine ⟨hcomp, rfl, rfl, shape, hwidths, ?_⟩
    rcases pushShape_frames hpush with ⟨stored, hstored, hfrs⟩ | ⟨hsame, hfrs⟩
    · exact .inl ⟨stored, hstored, hfrs.trans (by rw [hbef])⟩
    · exact .inr ⟨hsame, hfrs.trans hbef⟩
  | error e =>
    rw [hpush] at h
    obtain ⟨_, w₁, -, h⟩ := run_bind_ok.1 h
    cases h

/-! ### What a script does -/

/-- What is known of the frames of the caller: the locals that are tracked, and the room that was made. -/
structure Measured (w : MethodWriter) (needed : Nat) : Prop where
  compute : w.compute = .maxs
  tracked : w.callerLocals.map FrameItem.width = (StackMap.tracked [] w.callerFrames).map VerificationType.width
  room : w.maxLocals = max needed (StackMap.trackedSlots [] w.callerFrames)

namespace Measured

variable {w w' : MethodWriter} {needed : Nat}

/-- The frames of the caller are left alone. -/
theorem of_supplied (h : Measured w needed) (hsame : w'.supplied = w.supplied) {n : Nat}
    (hloc : w'.maxLocals = max w.maxLocals n) : Measured w' (max needed n) := by
  obtain ⟨hcomp, hmap, hcaller⟩ : w'.compute = w.compute ∧ w'.stackMap = w.stackMap ∧ w'.callerLocals = w.callerLocals := by
    simpa [supplied] using hsame
  have hfrs : w'.callerFrames = w.callerFrames := by rw [callerFrames, hmap, callerFrames]
  refine ⟨hcomp.trans h.compute, by rw [hcaller, hfrs, h.tracked], ?_⟩
  rw [hloc, h.room, hfrs]
  omega

/-- A frame is supplied. -/
theorem frame (h : Measured w needed) {frame : ExplicitFrame Label} (hfr : writeFrame frame w = .ok () w') :
    Measured w' needed := by
  obtain ⟨hcomp, hcaller, hloc, shape, hwidths, hstored⟩ := writeFrame_maxs h.compute hfr
  have htrack : w'.callerLocals.map FrameItem.width =
      (shape.track (StackMap.tracked [] w.callerFrames)).map VerificationType.width := by
    rw [hcaller, ← FrameShape.track_map, ← FrameShape.track_map, h.tracked, hwidths]
  have hsl : (w'.callerLocals.map FrameItem.width).sum = slots (shape.track (StackMap.tracked [] w.callerFrames)) := by
    rw [htrack, slots]
  rw [hsl, h.room] at hloc
  rcases hstored with ⟨stored, hsh, hfrs⟩ | ⟨hsh, hfrs⟩
  · refine ⟨hcomp, ?_, ?_⟩
    · rw [htrack, hfrs, StackMap.tracked, StackMap.tracked, List.foldl_append, ← hsh]
      rfl
    · rw [hloc, hfrs, StackMap.trackedSlots_concat, hsh, Nat.max_assoc]
  · -- a frame that is dropped leaves the locals as they were, and there is room for those
    subst hsh
    refine ⟨hcomp, by rw [htrack, hfrs]; rfl, ?_⟩
    have hle := StackMap.slots_tracked_le [] w.callerFrames w.callerFrames.length
    rw [List.take_length] at hle
    rw [hloc, hfrs]
    simp only [FrameShape.track]
    omega

end Measured

/-- **Whatever the caller does, the locals of its frames are tracked and there is room for them.** -/
theorem measured_of_performs {context : ClassContext} {d : Declaration} {desc : MethodDescriptor} {pool : Pool}
    {methods : Array (Member .ofMethod)} {sc : Script} {s : Session}
    (h : (start context .maxs d desc pool methods).Performs sc s) :
    Measured s.writer (sc.localsNeeded (desc.parameterLength (!d.flags.isStatic))) := by
  induction sc using List.reverseRecOn generalizing s with
  | nil =>
    cases h
    exact ⟨rfl, rfl, (Nat.max_zero _).symm⟩
  | append_singleton sc act ih =>
    obtain ⟨before, hbef, hperf⟩ := h.concat
    have hmeas := ih hbef
    rw [Script.localsNeeded, List.foldl_append, List.foldl_cons, List.foldl_nil, ← Script.localsNeeded]
    cases act with
    | newLabel =>
      rw [Session.perform_newLabel hperf]
      exact ⟨hmeas.compute, hmeas.tracked, hmeas.room⟩
    | event e =>
      obtain ⟨hbody, -, -, hsend⟩ := Session.perform_event hperf
      by_cases hfr : ∃ shape, e.map before.label = .frame shape
      · obtain ⟨shape, hsh⟩ := hfr
        have hneeded : e.localsNeeded = 0 := by
          rw [← MethodEvent.localsNeeded_map before.label, hsh]
          rfl
        rw [hsh] at hsend
        unfold send dispatch at hsend
        rw [run_get_bind] at hsend
        dsimp only at hsend
        split at hsend
        · cases hsend
        · simp only [hneeded, Nat.max_zero]
          exact hmeas.frame hsend
      · obtain ⟨hsupply, hneeds⟩ := needs_send (by rwa [MethodEvent.endsBody_map]) (fun shape heq => hfr ⟨shape, heq⟩)
          before.writer () s.writer (by simp [hmeas.compute]) hsend
        rw [MethodEvent.localsNeeded_map] at hneeds
        exact hmeas.of_supplied hsupply hneeds

/-! ### What is written -/

/-- Some locals stand for the receiver and the parameters of a method, one for each, with as many slots. -/
def IsEntry (d : Declaration) (desc : MethodDescriptor) (initial : List VerificationType) : Prop :=
  initial.map VerificationType.width =
    (if d.flags.isStatic then [] else [1]) ++ desc.parameters.map FieldType.width

theorem IsEntry.slots {d : Declaration} {desc : MethodDescriptor} {initial : List VerificationType}
    (h : IsEntry d desc initial) : slots initial = desc.parameterLength (!d.flags.isStatic) := by
  rw [JvmAssembler.slots, show initial.map VerificationType.width = _ from h, List.sum_append, MethodDescriptor.parameterLength]
  cases d.flags.isStatic <;> rfl

/-- Closing the body changes neither the frames of the caller nor the number of locals. -/
theorem Measured.close {w w' : MethodWriter} {needed : Nat} (h : Measured w needed) {stack locals : UInt16}
    (hclose : send (.maxs stack locals) w = .ok () w') : Measured w' needed ∧ w'.stage = .sealed := by
  obtain ⟨-, -, -, v, hsettle, rfl⟩ := Typesetting.maxs_ok hclose
  rw [h.compute] at hsettle
  obtain rfl := Sizing.computeSizes_ok hsettle
  exact ⟨⟨h.compute, h.tracked, h.room⟩, rfl⟩

/-- The only stack map among the attributes of a body is that of its writer. -/
theorem CodeStands.stackMap_of_mem {w : MethodWriter} {pool : Pool} {c : CodeLayout} (h : CodeStands w pool c) {name : Nat}
    {frames : List StackMapFrame} (hmem : (name, CodePart.stackMap frames) ∈ c.parts) :
    ∃ map, w.stackMap = some map ∧ frames = map.frames.toList := by
  obtain ⟨scopes, lines, -, -, htitled⟩ := h.parts
  have hoth : ∀ {α : Type} (make : List α → CodePart) (rows : List α), (∀ rows, make rows ≠ .stackMap frames) →
      CodePart.stackMap frames ∉ nonempty make rows := by
    intro α make rows hmake hrows
    unfold nonempty at hrows
    split at hrows
    · simp at hrows
    · exact hmake rows (List.mem_singleton.1 hrows).symm
  have hparts := htitled.mem hmem
  simp only [List.mem_append] at hparts
  rcases hparts with ((hscopes | htypes) | hlines) | hstored
  · exact absurd hscopes (hoth _ _ (by simp))
  · exact absurd htypes (hoth _ _ (by simp))
  · exact absurd hlines (hoth _ _ (by simp))
  · rcases w.storedFrames_cases with hnone | ⟨map, hmap, hsome⟩
    · simp [hnone] at hstored
    · rw [hsome, List.mem_singleton] at hstored
      cases hstored
      exact ⟨map, hmap, rfl⟩

/-- A method whose jumps all fit is written as its writer ended. -/
theorem code_of_finish {w w' : MethodWriter} (hord : w.pool.Orderly) (hseal : w.stage = .sealed)
    (hfits : w.hasOversized = false) (h : send .finish w = .ok () w') :
    ∃ m row c, w'.methods = w.methods.push (MemberLayout.encoded m) ∧ (row, MemberPart.code c) ∈ m.parts ∧
      CodeStands { w with stage := .ended } w'.pool c := by
  have hfin : finish w = .ok () w' := by
    unfold send dispatch at h
    rw [run_get_bind] at h
    dsimp only at h
    split at h
    · cases h
    · exact h
  have hout := finish_outcome w hord
  rw [hfin] at hout
  obtain ⟨hasCode, f, hconc, -, -, -, m, body, hmeths, hmeth, hbody⟩ := hout
  cases hconc with
  | widened _ hover => simp [hfits] at hover
  | rederived _ hover => simp [hfits] at hover
  | asIs =>
    rw [decide_eq_true hseal] at hbody
    obtain ⟨c, rfl⟩ := Option.isSome_iff_exists.1 hbody.1
    obtain ⟨exceptions, signature, -, -, htitled⟩ := hmeth.parts
    obtain ⟨row, hrow⟩ := htitled.exists_mem (b := .code c) (by simp)
    exact ⟨m, row, c, hmeths, hrow, hbody.2 c rfl⟩

/-- **The locals of the caller's frames.** Sizes are computed, and no jump has to be widened, which would have frames derived
anew. The locals of a frame are what is left of the receiver and the parameters, then those that frames speak of. There is
room for the latter alone, exactly; so a frame that is full or comes behind one fits, and so does every frame of a method
without receiver and parameters. -/
theorem callerFrames_slots {context : ClassContext} {d : Declaration} {descriptor : MethodDescriptor} {pool : Pool}
    (hpool : pool.Orderly) {methods : Array (Member .ofMethod)} {script : Script} {s : Session}
    (hperforms : (start context .maxs d descriptor pool methods).Performs script s) {stack locals : UInt16}
    {w w' : MethodWriter} (hclose : send (.maxs stack locals) s.writer = .ok () w) (hfits : w.hasOversized = false)
    (hfinish : send .finish w = .ok () w') {initial : List VerificationType} (hentry : IsEntry d descriptor initial) :
    ∃ m row c, w'.methods = methods.push (MemberLayout.encoded m) ∧ (row, MemberPart.code c) ∈ m.parts ∧
      ∀ name frames, (name, CodePart.stackMap frames) ∈ c.parts →
        c.maxLocals = max (script.localsNeeded (slots initial)) (StackMap.trackedSlots [] frames) ∧
        ∀ i frame, StackMap.full? initial frames i = some frame → ∃ kept, kept <+: initial ∧
          frame.locals = kept ++ StackMap.tracked [] (frames.take (i + 1)) ∧
          slots (StackMap.tracked [] (frames.take (i + 1))) ≤ c.maxLocals ∧
          (initial = [] ∨ (∃ g ∈ frames.take (i + 1), g.shape.isFull = true) → slots frame.locals ≤ c.maxLocals) := by
  obtain ⟨hmeasured, hsealed⟩ := (measured_of_performs hperforms).close hclose
  have hstep : Step (start context .maxs d descriptor pool methods) w :=
    (step_of_performs hperforms).trans ((steps_dispatch finish _ (by simp)).ok (.refl _) hclose)
  obtain ⟨m, row, c, hmethods, hcode, hstands⟩ := code_of_finish (hstep.pool hpool).1 hsealed hfits hfinish
  rw [hstep.methods] at hmethods
  refine ⟨m, row, c, hmethods, hcode, fun name frames hframes => ?_⟩
  -- the only stack map of the body is that of the caller
  have hsupplied : w.callerFrames = frames := by
    obtain ⟨map, hmap, rfl⟩ := hstands.stackMap_of_mem hframes
    rw [callerFrames, show w.stackMap = some map from hmap]
    rfl
  have hlocals : c.maxLocals = max (script.localsNeeded (slots initial)) (StackMap.trackedSlots [] frames) := by
    rw [hstands.maxLocals, ← hsupplied, hentry.slots]
    exact hmeasured.room
  refine ⟨hlocals, fun i frame hframe => ?_⟩
  obtain ⟨kept, hprefix, hcontents, hfull⟩ := StackMap.locals_full? hframe
  have hroom : slots (StackMap.tracked [] (frames.take (i + 1))) ≤ c.maxLocals := by
    rw [hlocals]
    exact Nat.le_trans (StackMap.slots_tracked_le [] frames (i + 1)) (Nat.le_max_right _ _)
  refine ⟨kept, hprefix, hcontents, hroom, ?_⟩
  intro hcase
  have hnil : kept = [] := by
    rcases hcase with hnone | hsome
    · rw [hnone] at hprefix
      exact List.prefix_nil.1 hprefix
    · exact hfull hsome
  rw [hcontents, hnil]
  exact hroom

/-- A static method with a parameter, and a frame that adds three locals behind it. -/
def appendsThree : Script :=
  [.event .code, .event (.instruction (.plain Opcode.nop)), .event (.frame (.append [.int, .int, .int])),
    .event (.instruction (.plain Opcode.voidReturn))]

/-- It gets three locals, and its frame has four. -/
theorem callerFrames_slots_appendsThree :
    ∃ s w w', (start ⟨.javaLang, "A", ⟨52, 0⟩⟩ .maxs ⟨⟨9⟩, "m", "(I)V", none, []⟩ ⟨[.base .int], none⟩ .empty #[]).Performs
        appendsThree s ∧ send (.maxs 0 0) s.writer = .ok () w ∧ w.hasOversized = false ∧ send .finish w = .ok () w' ∧
      IsEntry ⟨⟨9⟩, "m", "(I)V", none, []⟩ ⟨[.base .int], none⟩ [.int] ∧
      (∃ m row c, w'.methods = #[MemberLayout.encoded m] ∧ (row, MemberPart.code c) ∈ m.parts ∧
        ∀ name frames, (name, CodePart.stackMap frames) ∈ c.parts →
          c.maxLocals = max (appendsThree.localsNeeded 1) (StackMap.trackedSlots [] frames)) ∧
      w.maxLocals = 3 ∧ (StackMap.full? [.int] w.callerFrames 0).map (fun frame => slots frame.locals) = some 4 := by
  have hrun : (Session.run ⟨#[], start ⟨.javaLang, "A", ⟨52, 0⟩⟩ .maxs ⟨⟨9⟩, "m", "(I)V", none, []⟩ ⟨[.base .int], none⟩
      .empty #[]⟩ appendsThree).any (fun s => succeedsIn (fun w => !w.hasOversized && w.maxLocals == 3 &&
        w.callerFrames == [⟨1, .append [.int, .int, .int]⟩] && succeedsIn (fun _ => true) (send .finish w))
        (send (.maxs 0 0) s.writer)) = true := by
    decide +kernel
  obtain ⟨s, hs, hclose⟩ := (Option.any_eq_true _ _).1 hrun
  obtain ⟨_, w, hw, hresult⟩ := exists_of_succeedsIn hclose
  simp only [Bool.and_eq_true, Bool.not_eq_true', beq_iff_eq] at hresult
  obtain ⟨⟨⟨hfits, hlocals⟩, hframes⟩, hfinish⟩ := hresult
  obtain ⟨_, w', hw', -⟩ := exists_of_succeedsIn hfinish
  have hentry : IsEntry ⟨⟨9⟩, "m", "(I)V", none, []⟩ ⟨[.base .int], none⟩ [.int] := by
    show _ = _
    decide
  obtain ⟨m, row, c, hmethods, hcode, hall⟩ := callerFrames_slots Pool.orderly_empty hs hw hfits hw' hentry
  refine ⟨s, w, w', hs, hw, hfits, hw', hentry, ⟨m, row, c, hmethods, hcode, fun name frames h => (hall name frames h).1⟩,
    hlocals, ?_⟩
  rw [hframes]
  decide

end MethodWriter

end JvmAssembler
