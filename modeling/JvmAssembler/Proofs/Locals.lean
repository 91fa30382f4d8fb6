import JvmAssembler.Proofs.Invariant
import Mathlib.Data.List.Induction

/-!
# JvmAssembler.Proofs.Locals

The locals that a method needs.

Where anything is computed, their number is that of the largest variable that the script mentions (`maxLocals_of_performs`),
whatever else is computed.
-/

namespace JvmAssembler

open Success

def MethodEvent.localsNeeded {L : Type} : MethodEvent L → Nat
  | instruction (.var op index) => index.toNat + if op.isWideAccess then 2 else 1
  | instruction (.iinc index _) => index.toNat + 1
  | localVariable s =>
    s.index.toNat + if s.descriptor.toList.head? = some 'J' ∨ s.descriptor.toList.head? = some 'D' then 2 else 1
  | _ => 0

theorem MethodEvent.localsNeeded_map {L M : Type} (f : L → M) (e : MethodEvent L) : (e.map f).localsNeeded = e.localsNeeded := by
  cases e with
  | instruction i => cases i <;> rfl
  | _ => rfl

namespace MethodWriter

/-- What is computed, and what is known of the frames that the caller supplied. -/
def supplied (w : MethodWriter) : Compute × Option StackMap.Builder × List (FrameItem Label) :=
  (w.compute, w.stackMap, w.callerLocals)

/-- Where something is computed, these steps need so many locals, and leave the frames of the caller alone. -/
def Needs {α : Type} (n : Nat) (m : MethodM α) : Prop :=
  ∀ w a w', w.compute ≠ .asGiven → m w = .ok a w' → w'.supplied = w.supplied ∧ w'.maxLocals = max w.maxLocals n

theorem compute_of_supplied {w w' : MethodWriter} (h : w'.supplied = w.supplied) : w'.compute = w.compute :=
  congrArg Prod.fst h

namespace Needs

variable {α β : Type} {n : Nat}

theorem pure (a : α) : Needs 0 (pure a : MethodM α) := by
  intro w a' w' _ h
  obtain ⟨-, rfl⟩ := run_pure_ok.1 h
  exact ⟨rfl, by simp⟩

theorem get : Needs 0 (get : MethodM MethodWriter) := by
  intro w a w' _ h
  obtain ⟨rfl, rfl⟩ := run_get_ok.1 h
  exact ⟨rfl, by simp⟩

theorem modify {f : MethodWriter → MethodWriter} (hf : ∀ w, (f w).supplied = w.supplied ∧ (f w).maxLocals = w.maxLocals) :
    Needs 0 (modify f : MethodM Unit) := by
  intro w a w' _ h
  obtain rfl := run_modify_ok.1 h
  exact ⟨(hf w).1, by simp [hf w]⟩

theorem bind {k : Nat} {m : MethodM α} {f : α → MethodM β} (hm : Needs n m) (hf : ∀ a, Needs k (f a)) :
    Needs (max n k) (m >>= f) := by
  intro w b w' hw h
  obtain ⟨a, w₁, hfst, hrest⟩ := run_bind_ok.1 h
  obtain ⟨hsame, hloc⟩ := hm w a w₁ hw hfst
  obtain ⟨hsame', hloc'⟩ := hf a w₁ b w' (by rwa [compute_of_supplied hsame]) hrest
  exact ⟨hsame'.trans hsame, by rw [hloc', hloc, Nat.max_assoc]⟩

/-- What comes before needs no locals. -/
theorem before {m : MethodM α} {f : α → MethodM β} (hm : Needs 0 m) (hf : ∀ a, Needs n (f a)) : Needs n (m >>= f) := by
  simpa using hm.bind hf

/-- What comes behind needs no locals. -/
theorem after {m : MethodM α} {f : α → MethodM β} (hm : Needs n m) (hf : ∀ a, Needs 0 (f a)) : Needs n (m >>= f) := by
  simpa using hm.bind hf

theorem ite {c : Prop} [Decidable c] {m m' : MethodM α} (hm : Needs n m) (hm' : Needs n m') : Needs n (if c then m else m') := by
  split
  · exact hm
  · exact hm'

theorem throw_bind (e : Error) (f : α → MethodM β) : Needs n (MonadExcept.throw e >>= f : MethodM β) := by
  intro w b w' _ h
  obtain ⟨_, _, hthrow, -⟩ := run_bind_ok.1 h
  exact (run_throw_ok.1 hthrow).elim

end Needs

theorem needs_useLocals (count : Nat) : Needs count (useLocals count) := by
  intro w a w' hw h
  obtain rfl := run_modify_ok.1 h
  simp [supplied, hw]

def Fixed (w₀ w : MethodWriter) : Prop := w.supplied = w₀.supplied ∧ w.maxLocals = w₀.maxLocals

instance (w₀ : MethodWriter) : Steady (Fixed w₀) where
  aloof {w w'} h hw := by
    have hsupp : w'.supplied = w.supplied := by
      have hbooks := h.books
      have hloc := h.locals
      simp only [Prod.mk.injEq] at hbooks hloc
      simp [supplied, hbooks, hloc]
    exact ⟨hsupp.trans hw.1, (congrArg Prod.fst h.locals).trans hw.2⟩
  fromPool _ w hw := by
    unfold fromPool
    dsimp only
    split <;> exact hw
  interpret op arg operand w hw := by
    unfold interpret
    split
    · split
      · exact hw
      · dsimp only
        split <;> exact hw
    · exact hw
  resolve label w hw := by
    rcases resolve_cases label w with ⟨-, hrun⟩ | ⟨-, code, marks, -, hrun⟩ <;> rw [hrun] <;> exact hw

/-- Steps that do not use locals need none. -/
theorem needs_of_tame {α : Type} {m : MethodM α} (h : ∀ w₀, Tame (Fixed w₀) m) : Needs 0 m := by
  intro w a w' _ hrun
  obtain ⟨hsupp, hloc⟩ := (h w).keeps.ok ⟨rfl, rfl⟩ hrun
  exact ⟨hsupp, by simpa using hloc⟩

theorem needs_account (i : Instruction Label) : Needs (MethodEvent.instruction i).localsNeeded (account i) := by
  have hintr : ∀ op arg operand, Needs 0 (interpret op arg operand) := fun _ _ _ => needs_of_tame fun _ => tame_interpret _ _ _
  have hgrow : ∀ delta, Needs 0 (growStack delta) := fun _ => needs_of_tame fun _ => tame_growStack _
  cases i with
  | var op index =>
    refine .before .get fun w => .ite (.throw_bind _ _) (.ite ?_ ?_)
    · exact .before (needs_of_tame fun _ => tame_leave _) fun _ =>
        .before (needs_of_tame fun _ => tame_endBlock) fun _ => needs_useLocals _
    · exact .before (hintr _ _ _) fun _ => .before (hgrow _) fun _ => needs_useLocals _
  | iinc index increment => exact .before (hintr _ _ _) fun _ => needs_useLocals _
  | _ => exact .before (needs_of_tame fun _ => tame_position) fun _ => .before (hintr _ _ _) fun _ => hgrow _

theorem needs_writePlain {i : Instruction Label} (hi : hasLabels i = false) :
    Needs (MethodEvent.instruction i).localsNeeded (write i) := by
  intro w a w' hw h
  obtain ⟨-, bs, pool, -, h⟩ := write_plain_ok hi h
  exact Needs.after (needs_account i) (fun _ => needs_of_tame fun _ => .bind (tame_emit bs) fun _ => tame_conclude i)
    { w with pool := pool } a w' hw h

theorem needs_write (i : Instruction Label) : Needs (MethodEvent.instruction i).localsNeeded (write i) := by
  cases i with
  | jump op target => exact needs_of_tame fun _ => tame_writeJump op target
  | tableSwitch low high fallback targets => exact needs_of_tame fun _ => tame_writeTableSwitch low.toInt high.toInt fallback targets
  | lookupSwitch fallback keys targets => exact needs_of_tame fun _ => tame_writeLookupSwitch fallback keys targets
  | _ => exact needs_writePlain rfl

theorem needs_writeLocal (s : LocalScope Label) : Needs (MethodEvent.localVariable s).localsNeeded (writeLocal s) := by
  have hutf8 : ∀ text, Needs 0 (fromPool (Pool.utf8 text)) := fun text => needs_of_tame fun _ => tame_fromPool (Pool.cares_utf8 _)
  have hrest : ∀ n, Needs n (do
      useLocals n
      modify fun w => { w with locals := w.locals.push s } : MethodM Unit) := fun n =>
    .after (needs_useLocals n) fun _ => .modify fun _ => ⟨rfl, rfl⟩
  refine .before (needs_of_tame fun _ => tame_checkLabels _) fun _ => .before (hutf8 _) fun _ => .before (hutf8 _) fun _ => ?_
  split
  · exact hrest _
  · exact .before (hutf8 _) fun _ => hrest _

/-- **An event needs the locals that it mentions.** Frames that the caller supplies may need more. -/
theorem needs_send {event : MethodEvent Label} (hbody : endsBody event = false) (hfr : ∀ shape, event ≠ .frame shape) :
    Needs event.localsNeeded (send event) := by
  refine .before .get fun w => .ite (.throw_bind _ _) ?_
  cases event with
  | code =>
    exact .before (.modify fun _ => ⟨rfl, rfl⟩) fun _ => .before .get fun _ =>
      .ite (needs_of_tame fun _ => tame_placeNew) (.pure _)
  | frame shape => exact absurd rfl (hfr shape)
  | instruction i => exact needs_write i
  | label label => exact needs_of_tame fun _ => tame_placeLabel label
  | tryCatch h => exact needs_of_tame fun _ => tame_writeHandler h
  | localVariable s => exact needs_writeLocal s
  | lineNumber line start => exact needs_of_tame fun _ => tame_writeLine line start
  | maxs stack locals => cases hbody
  | finish => cases hbody

end MethodWriter

namespace Script

def localsNeeded (script : Script) (parameters : Nat) : Nat :=
  script.foldl (fun n act =>
    match act with
    | .newLabel => n
    | .event e => max n e.localsNeeded) parameters

/-- The caller supplies no frames. -/
def HasNoFrames (script : Script) : Prop := ∀ shape, .event (.frame shape) ∉ script

end Script

open MethodWriter

/-- **The number of locals does not depend on what is computed.** -/
theorem maxLocals_of_performs {context : ClassContext} {compute : Compute} (hcomp : compute ≠ .asGiven) {d : Declaration}
    {descriptor : MethodDescriptor} {pool : Pool} {methods : Array (Member .ofMethod)} {script : Script}
    (hfrs : script.HasNoFrames) {s : Session} (h : (start context compute d descriptor pool methods).Performs script s) :
    s.writer.compute = compute ∧
      s.writer.maxLocals = script.localsNeeded (descriptor.parameterLength (!d.flags.isStatic)) := by
  induction script using List.reverseRecOn generalizing s with
  | nil =>
    cases h
    exact ⟨rfl, if_neg hcomp⟩
  | append_singleton script act ih =>
    obtain ⟨before, hbef, hperf⟩ := h.concat
    obtain ⟨hsame, hloc⟩ := ih (fun shape hmem => hfrs shape (List.mem_append_left _ hmem)) hbef
    rw [Script.localsNeeded, List.foldl_append, List.foldl_cons, List.foldl_nil, ← Script.localsNeeded]
    cases act with
    | newLabel =>
      rw [Session.perform_newLabel hperf]
      exact ⟨hsame, hloc⟩
    | event e =>
      obtain ⟨hbody, -, -, hsend⟩ := Session.perform_event hperf
      have hsupp : ∀ shape, e.map before.label ≠ .frame shape := by
        intro shape heq
        cases e with
        | frame shape' => exact hfrs shape' (by simp)
        | _ => cases heq
      obtain ⟨hsupply, hneeds⟩ := needs_send (by rwa [MethodEvent.endsBody_map]) hsupp before.writer () s.writer
        (by rwa [hsame]) hsend
      rw [MethodEvent.localsNeeded_map] at hneeds
      exact ⟨(compute_of_supplied hsupply).trans hsame, by rw [hneeds, hloc]⟩

end JvmAssembler
