import JvmAssembler.Proofs.ClassFile.Contents
import JvmAssembler.Proofs.Faults

/-!
# JvmAssembler.Proofs.ClassFile.Finishing

How a method ends.

What is written of a method is what its writer holds at the end (`Concludes`): as it stood, or with its jumps widened, or,
if it has frames that widening would invalidate, what a second writer holds that was fed the decoded code. Where `finish`
succeeds, exactly one method is added to the class; where it fails, none is.
-/

namespace JvmAssembler

open Success

open Pool

/-! ### Replayed events -/

namespace Replay

open MethodWriter (isBody)

def Writes (events : List (MethodEvent Label)) : Prop := ∃ body, events = .code :: body ∧ ∀ e ∈ body, isBody e = true

theorem Writes.append {events more : List (MethodEvent Label)} (h : Writes events) (hmore : ∀ e ∈ more, isBody e = true) :
    Writes (events ++ more) := by
  obtain ⟨body, rfl, hbody⟩ := h
  refine ⟨body ++ more, rfl, fun e he => ?_⟩
  rcases List.mem_append.1 he with he | he
  · exact hbody e he
  · exact hmore e he

variable {events : Events}

theorem Writes.push (h : Writes events.toList) {e : MethodEvent Label} (he : isBody e = true) :
    Writes (events.push e).toList := by
  rw [Array.toList_push]
  exact h.append (by simpa using he)

/-- What holds of the events of a replay, also of those before an error. -/
def Sent {α : Type} (events : α → Events) : Except (Events × Error) α → Prop
  | .ok a => Writes (events a).toList
  | .error failure => Writes failure.1.toList ∧ failure.2.IsPlain

theorem sent_placeBefore (position : Nat) (pending : List (Nat × Label)) (h : Writes events.toList) :
    Sent (·.2) (placeBefore position pending events) := by
  induction pending generalizing events with
  | nil => exact h
  | cons first rest ih =>
    unfold placeBefore
    split
    · exact h
    · split
      · exact ⟨h, rfl⟩
      · exact ih (h.push rfl)

theorem sent_sendCode (labels : Labels) (instrs : List (Nat × Instruction Nat)) (pending : List (Nat × Label)) (h : Writes events.toList) : Sent (·.2) (sendCode labels instrs pending events) := by
  induction instrs generalizing pending events with
  | nil => exact h
  | cons first rest ih =>
    unfold sendCode
    have hbef := sent_placeBefore first.1 pending h
    cases hrun : placeBefore first.1 pending events with
    | error failure =>
      rw [hrun] at hbef
      exact hbef
    | ok result =>
      rw [hrun] at hbef
      exact ih _ (Writes.push hbef rfl)

theorem sent_placeAtEnd (codeLength : Nat) (pending : List (Nat × Label)) (h : Writes events.toList) :
    Sent id (placeAtEnd codeLength pending events) := by
  induction pending generalizing events with
  | nil => exact h
  | cons first rest ih =>
    unfold placeAtEnd
    split
    · exact ⟨h, rfl⟩
    · exact ih (h.push rfl)

theorem sent_send (m : Method) (labels : Labels) : Sent id (send m labels) := by
  have hhead : Writes (MethodEvent.code :: m.handlers.map (handlerEvent labels)) := by
    refine ⟨_, rfl, fun e he => ?_⟩
    obtain ⟨h, -, rfl⟩ := List.mem_map.1 he
    rfl
  unfold send
  dsimp only
  have hcode : Sent (·.2) (sendCode labels m.instructions labels.toList
      (MethodEvent.code :: m.handlers.map (handlerEvent labels)).toArray) := sent_sendCode _ _ _ hhead
  cases hrun : sendCode labels m.instructions labels.toList (MethodEvent.code :: m.handlers.map (handlerEvent labels)).toArray with
  | error failure =>
    rw [hrun] at hcode
    exact hcode
  | ok result =>
    rw [hrun] at hcode
    have hend := sent_placeAtEnd m.codeLength result.1 hcode
    show Sent id (placeAtEnd m.codeLength result.1 result.2 >>= _)
    cases hrun' : placeAtEnd m.codeLength result.1 result.2 with
    | error failure =>
      rw [hrun'] at hend
      exact hend
    | ok events =>
      rw [hrun'] at hend
      have htables : Writes (events.toList ++ m.lines.map (lineEvent labels) ++ m.locals.map (localEvent labels)) := by
        refine (Writes.append hend fun e he => ?_).append fun e he => ?_
        · obtain ⟨line, -, rfl⟩ := List.mem_map.1 he
          rfl
        · obtain ⟨s, -, rfl⟩ := List.mem_map.1 he
          rfl
      simpa [Sent] using htables

theorem reports_assign (codeLength : Nat) (places : List Nat) (labels : Labels) :
    Reports (assign codeLength places labels) := by
  induction places generalizing labels with
  | nil => exact .ok _
  | cons place places ih => exact .ite (.fault _ _) (ih _)

/-- A replay opens the body and writes it, unless it fails before, and it only complains about the code. -/
theorem run_writes (m : Method) : ((run m).error = none → Writes (run m).events) ∧
    ((run m).events = [] ∨ Writes (run m).events) ∧ ∀ e, (run m).error = some e → e.IsPlain := by
  unfold run
  cases hassign : assign m.codeLength m.places .empty with
  | error e =>
    refine ⟨by simp, .inl rfl, fun e' he' => ?_⟩
    cases he'
    exact (reports_assign _ _ _).isPlain e hassign
  | ok labels =>
    have hsent := sent_send m labels
    dsimp only
    cases hrun : send m labels with
    | ok events =>
      rw [hrun] at hsent
      exact ⟨fun _ => hsent, .inr hsent, by simp⟩
    | error failure =>
      rw [hrun] at hsent
      refine ⟨by simp, .inr hsent.1, fun e' he' => ?_⟩
      cases he'
      exact hsent.2

/-- A replayed method is not ended by its events. -/
theorem run_proceeds (m : Method) : ∀ e ∈ (run m).events, e ≠ .finish := by
  rintro e he rfl
  rcases (run_writes m).2.1 with hnone | ⟨body, hbody, hall⟩
  · rw [hnone] at he
    cases he
  · rw [hbody] at he
    rcases List.mem_cons.1 he with hcode | he
    · cases hcode
    · cases hall _ he

end Replay

namespace MethodWriter

/-! ### The last event -/

theorem checkCodeLength_outcome (w : MethodWriter) :
    Outcome (fun _ w' => w' = w ∧ w.code.size ≤ 65535) (· = w) (checkCodeLength w) := by
  unfold checkCodeLength
  rw [run_get_bind]
  split
  · rfl
  · exact ⟨rfl, Nat.le_of_not_lt ‹_›⟩

def replayBody (r : Replay.Result) : MethodM Unit := do
  newLabels r.labels
  r.events.forM (dispatch finishOnce)
  match r.error with
  | some e => throw e
  | none => pure ()
  dispatch finishOnce (.maxs 0 0)

theorem writeReplayed_eq (r : Replay.Result) :
    writeReplayed r = (replayBody r >>= fun _ => dispatch finishOnce .finish) := by
  unfold writeReplayed replayBody
  simp only [bind_assoc]
  cases r.error <;> simp

/-- The body of a method has no marked jumps and fits, if there is one. -/
def Fits (w : MethodWriter) : Prop := w.stage = .sealed → w.hasOversized = false ∧ w.code.size ≤ 65535

/-- What a writer holds at the end of a method, and whether there is a body. -/
inductive Concludes (w : MethodWriter) : Bool → MethodWriter → Prop
  /-- There is no body, or one that fits as it is. -/
  | asIs (hfits : w.Fits) :
      Concludes w (w.stage = .sealed) { w with stage := .ended }
  /-- The jumps are widened, and there are no frames. -/
  | widened {f : MethodWriter} (hstg : w.stage = .sealed) (hoversized : w.hasOversized = true)
      (hwiden : widenJumps { w with stage := .ended } = .ok () f) (hfrs : f.hasFrames = false) : Concludes w true f
  /-- The method is written once more, from its widened code. -/
  | rederived {v v' f : MethodWriter} {method : Replay.Method} {descriptor : MethodDescriptor}
      (hstg : w.stage = .sealed) (hoversized : w.hasOversized = true)
      (hwiden : widenJumps { w with stage := .ended } = .ok () v) (hpl : placedMethod v = .ok method v)
      (hdec : fromPool (declare v.declaration) v = .ok descriptor v')
      (hreplay : replayBody (Replay.run method)
        (start v.context .frames v.declaration descriptor v'.pool v.methods) = .ok () f)
      (hfits : f.Fits) :
      Concludes w (f.stage = .sealed) { f with stage := .ended }

/-- A method is added to the class that stands for what a writer held at the end. -/
def Adds (w f : MethodWriter) (hasCode : Bool) (w' : MethodWriter) : Prop :=
  w'.pool.Orderly ∧ Extends 5 w.pool w'.pool ∧ Extends 5 f.pool w'.pool ∧ ∃ m body, w'.methods = w.methods.push m.encoded ∧
    MethodStands w'.pool w.declaration body m ∧ BodyStands f hasCode w'.pool body

variable {w w₀ : MethodWriter}

theorem Untouched.refl (h : w.pool.Orderly) : Untouched w w := ⟨h, .refl 5 _, rfl⟩

theorem Untouched.trans {u v : MethodWriter} (h : Untouched u v) (h' : Untouched v w) : Untouched u w :=
  ⟨h'.1, h.2.1.trans h'.2.1, h'.2.2.trans h.2.2⟩

theorem Step.untouched {w' : MethodWriter} (h : Step w w') (hord : w.pool.Orderly) : Untouched w w' :=
  ⟨(h.pool hord).1, (h.pool hord).2, h.methods⟩

variable {f : MethodWriter} {P : MethodWriter → Prop} {α : Type}

/-- Adding a method from a later state. -/
theorem append_later {hasCode : Bool} (h : Untouched w f) (hdecl : f.declaration = w.declaration) :
    Outcome (fun _ => Adds w f hasCode) (Untouched w) (appendMethod hasCode f) := by
  refine (appendMethod_outcome hasCode f h.1).mono ?_ fun w' hw' => h.trans hw'
  rintro _ w' ⟨hord, hext, m, body, hmeths, hstd, hbody⟩
  rw [h.2.2] at hmeths
  rw [hdecl] at hstd
  exact ⟨hord, h.2.1.trans hext, hext, m, body, hmeths, hstd, hbody⟩

theorem finishOnce_outcome (h : Untouched w f) (hdecl : f.declaration = w.declaration) :
    Outcome (fun _ w' => f.Fits ∧ Adds w { f with stage := .ended } (f.stage = .sealed) w') (Untouched w) (finishOnce f) := by
  have happend : ∀ hasCode, f.Fits → Outcome (fun _ w' => f.Fits ∧ Adds w { f with stage := .ended } hasCode w') (Untouched w)
      (appendMethod hasCode { f with stage := .ended }) := by
    intro hasCode hfits
    exact (append_later (f := { f with stage := .ended }) h hdecl).mono (fun _ _ hadds => ⟨hfits, hadds⟩) fun _ h => h
  unfold finishOnce
  refine Outcome.bind (Q := fun hasCode w' => hasCode = decide (f.stage = .sealed) ∧ w' = { f with stage := .ended })
    ⟨rfl, rfl⟩ ?_
  rintro hasCode w' ⟨rfl, rfl⟩
  split
  · rename_i hseal
    rw [run_get_bind]
    dsimp only
    split
    · exact h
    · rename_i hoversized
      refine Outcome.bind ((checkCodeLength_outcome _).mono (fun _ _ h => h) ?_) ?_
      · rintro w' rfl
        exact h
      · rintro _ w' ⟨rfl, hsize⟩
        exact happend _ fun _ => ⟨by simpa using hoversized, hsize⟩
  · rename_i hseal
    exact happend _ fun hstg => absurd (by simpa using hstg) hseal

theorem steps_newLabels (n : Nat) : Keeps (Step w₀) (newLabels n) := by
  induction n with
  | zero => exact .pure _
  | succ n ih => exact .bind tame_newLabel.keeps fun _ => ih

theorem steps_forM (finish : MethodM Unit) (events : List (MethodEvent Label))
    (h : ∀ e ∈ events, e ≠ .finish) : Keeps (Step w₀) (events.forM (dispatch finish)) := by
  induction events with
  | nil => exact .pure _
  | cons e events ih =>
    exact .bind (steps_dispatch finish e (h e List.mem_cons_self)) fun _ => ih fun e' he' => h e' (List.mem_cons_of_mem _ he')

/-- Writing the body of a replayed method is a sequence of steps. -/
theorem steps_replayBody (m : Replay.Method) : Keeps (Step w₀) (replayBody (Replay.run m)) := by
  refine .bind (steps_newLabels _) fun _ => .bind (steps_forM _ _ (Replay.run_proceeds m)) fun _ => ?_
  cases (Replay.run m).error with
  | some e => exact .throw_bind _ _
  | none => exact steps_dispatch _ _ (by simp)

theorem tame_labelPosition (label : Label) : Tame P (labelPosition label) := by
  refine .bind .get fun w => ?_
  split
  · exact .pure _
  · exact .throw rfl

theorem tame_placedMethod : Tame P placedMethod := by
  refine .bind .get fun _ => .bind (.mapM (fun h => ?_) _) fun _ => .bind .get fun _ => .bind (.mapM (fun line => ?_) _) fun _ =>
    .bind .get fun _ => .bind (.mapM (fun s => ?_) _) fun _ => .bind .get fun w =>
    .bind (tame_checked (Decoding.reports_decode w.pool w.code).isPlain) fun _ => .pure _
  · exact .bind (tame_labelPosition _) fun _ => .bind (tame_labelPosition _) fun _ => .bind (tame_labelPosition _) fun _ => .pure _
  · exact .bind (tame_labelPosition _) fun _ => .pure _
  · exact .bind (tame_labelPosition _) fun _ => .bind (tame_labelPosition _) fun _ => .pure _

theorem cares_declare (d : Declaration) : Cares (declare d) := by
  unfold declare
  split
  · exact .throw (isPlain_of_badDescriptor ‹_›)
  · exact .bind (cares_utf8 _) fun _ => .bind (cares_utf8 _) fun _ =>
      .bind (.forM (fun name => .bind (cares_cls name) fun _ => .pure _) _) fun _ => .pure _

theorem widenJumps_outcome (w : MethodWriter) (hord : w.pool.Orderly) :
    Outcome (fun _ w' => Untouched w w' ∧ w'.declaration = w.declaration) (Untouched w) (widenJumps w) := by
  have hsame : Untouched w w := .refl hord
  unfold widenJumps
  refine Outcome.bind ((checkCodeLength_outcome w).mono (fun _ _ h => h) ?_) ?_
  · rintro w' rfl
    exact hsame
  · rintro _ w' ⟨rfl, -⟩
    rw [run_get_bind]
    cases Widening.widen w'.code with
    | error e => exact hsame
    | ok widened =>
      refine ((checkCodeLength_outcome _).mono (fun _ _ h => h.1) fun _ h => h).mono ?_ ?_
      · rintro _ w'' rfl
        exact ⟨hsame, rfl⟩
      · rintro w'' rfl
        exact hsame

/-- Writing a method once more adds it to the class, or adds nothing. -/
theorem writeAnew_outcome {v' : MethodWriter} (h : Untouched w v') (hdecl : v'.declaration = w.declaration)
    (desc : MethodDescriptor) (m : Replay.Method) :
    Outcome (fun _ w' => ∃ f, replayBody (Replay.run m)
        (start v'.context .frames v'.declaration desc v'.pool v'.methods) = .ok () f ∧ f.Fits ∧
        Adds w { f with stage := .ended } (f.stage = .sealed) w')
      (Untouched w) (writeAnew desc (Replay.run m) v') := by
  generalize hfresh : start v'.context .frames v'.declaration desc v'.pool v'.methods = fresh
  have hst : Untouched w fresh := by
    rw [← hfresh]
    exact h
  have hnamed : fresh.declaration = w.declaration := by
    rw [← hfresh]
    exact hdecl
  have hsteps := Outcome.of_keeps (steps_replayBody m) (Step.refl fresh)
  have hrun : Outcome (fun _ w' => ∃ f, replayBody (Replay.run m) fresh = .ok () f ∧ f.Fits ∧
      Adds w { f with stage := .ended } (f.stage = .sealed) w') (Untouched w) (writeReplayed (Replay.run m) fresh) := by
    rw [writeReplayed_eq]
    cases hbody : replayBody (Replay.run m) fresh with
    | error e f =>
      rw [hbody] at hsteps
      rw [run_bind_of_error hbody]
      exact hst.trans (hsteps.untouched hst.1)
    | ok u f =>
      rw [hbody] at hsteps
      rw [run_bind_of_ok hbody]
      have hlater : Untouched w f := hst.trans (Step.untouched hsteps hst.1)
      unfold dispatch
      rw [run_get_bind]
      split
      · exact hlater
      · refine (finishOnce_outcome hlater ((Step.declaration hsteps).trans hnamed)).mono ?_ fun _ h => h
        rintro _ w' ⟨hfits, hadds⟩
        exact ⟨f, rfl, hfits, hadds⟩
  unfold writeAnew
  dsimp only
  rw [hfresh]
  cases hwritten : writeReplayed (Replay.run m) fresh with
  | error e f =>
    rw [hwritten] at hrun
    exact hrun
  | ok u f =>
    rw [hwritten] at hrun
    exact hrun

/-- **The last event.** Where it succeeds, the method is added to the class as its writer ended; where it fails, nothing is
added. -/
theorem finish_outcome (w : MethodWriter) (hord : w.pool.Orderly) :
    Outcome (fun _ w' => ∃ hasCode f, Concludes w hasCode f ∧ Adds w f hasCode w') (Untouched w) (finish w) := by
  have hended : Untouched w { w with stage := .ended } := ⟨hord, .refl 5 _, rfl⟩
  unfold finish
  refine Outcome.bind (Q := fun hasCode w' => hasCode = decide (w.stage = .sealed) ∧ w' = { w with stage := .ended })
    ⟨rfl, rfl⟩ ?_
  rintro hasCode w' ⟨rfl, rfl⟩
  rw [run_get_bind]
  dsimp only
  split
  · rename_i hmark
    obtain ⟨hseal, hoversized⟩ : w.stage = .sealed ∧ w.hasOversized = true := by simpa using hmark
    have hwiden := widenJumps_outcome { w with stage := .ended } hord
    cases hrun : widenJumps { w with stage := .ended } with
    | error e v =>
      rw [hrun] at hwiden
      rw [run_bind_of_error hrun]
      exact hended.trans hwiden
    | ok u v =>
      rw [hrun] at hwiden
      rw [run_bind_of_ok hrun, run_get_bind]
      have hwidened : Untouched w v := hended.trans hwiden.1
      split
      · -- the frames are computed anew, by a second writer
        unfold rederive
        have hpl := tame_placedMethod.keeps (P := (· = v)) v rfl
        cases hmeth : placedMethod v with
        | error e v₁ =>
          rw [hmeth] at hpl
          obtain rfl : v₁ = v := hpl
          rw [run_bind_of_error hmeth]
          exact hwidened
        | ok method v₁ =>
          rw [hmeth] at hpl
          obtain rfl : v₁ = v := hpl
          rw [run_bind_of_ok hmeth, run_get_bind]
          have hdec := (inside_fromPool (cares_declare v₁.declaration) v₁ (.refl v₁)).toStep
          cases hdesc : fromPool (declare v₁.declaration) v₁ with
          | error e v' =>
            rw [hdesc] at hdec
            rw [run_bind_of_error hdesc]
            exact hwidened.trans (hdec.untouched hwidened.1)
          | ok desc v' =>
            rw [hdesc] at hdec
            rw [run_bind_of_ok hdesc]
            have hlater : Untouched w v' := hwidened.trans (Step.untouched hdec hwidened.1)
            refine (writeAnew_outcome hlater ((Step.declaration hdec).trans hwiden.2) desc method).mono ?_
              fun _ h => h
            rintro _ w' ⟨f, hreplay, hfits, hadds⟩
            obtain ⟨pool, -, rfl⟩ := fromPool_ok hdesc
            exact ⟨_, _, .rederived hseal hoversized hrun hmeth hdesc hreplay hfits, hadds⟩
      · rename_i hfrs
        refine (append_later hwidened hwiden.2).mono ?_ fun _ h => h
        intro _ w' hadds
        exact ⟨true, v, .widened hseal hoversized hrun (by simpa using hfrs), hadds⟩
  · rename_i hmark
    have happend : w.Fits → Outcome (fun _ w' => ∃ hasCode f, Concludes w hasCode f ∧ Adds w f hasCode w') (Untouched w)
        (appendMethod (decide (w.stage = .sealed)) { w with stage := .ended }) := by
      intro hfits
      refine (append_later hended rfl).mono ?_ fun _ h => h
      intro _ w' hadds
      exact ⟨_, _, .asIs hfits, hadds⟩
    split
    · rename_i hseal
      refine Outcome.bind ((checkCodeLength_outcome _).mono (fun _ _ h => h) ?_) ?_
      · rintro w' rfl
        exact hended
      · rintro _ w' ⟨rfl, hsize⟩
        refine happend fun hstg => ⟨?_, hsize⟩
        simpa [hstg] using hmark
    · rename_i hseal
      exact happend fun hstg => absurd (by simpa using hstg) hseal

/-! ### After the end -/

def Over (w : MethodWriter) : Prop := w.stage = .ended

theorem over_fromPool {action : PoolM α} (h : Cares action) : Tame Over (fromPool action) where
  keeps w hw := by
    unfold fromPool
    dsimp only
    split <;> exact hw
  raises := (raises_fromPool h.raises).mono fun _ he => he.inner

theorem over_checkCodeLength : Tame Over checkCodeLength := .bind .get fun _ => .ite (.throw rfl) (.pure _)

theorem over_tableAttribute (name : String) (row : α → List UInt8) (rows : List α) :
    Tame Over (tableAttribute name row rows) := .ite (.pure _) (.bind (over_fromPool (cares_namedAttribute _ _)) fun _ => .pure _)

theorem over_exceptionRow (h : Handler Label) : Tame Over (exceptionRow h) := by
  have hpls : ∀ catchType : Option Nat, Tame Over (do
      return (⟨← labelPosition h.start, ← labelPosition h.stop, ← labelPosition h.handler, catchType⟩ : ExceptionRow)) :=
    fun _ => .bind (tame_labelPosition _) fun _ => .bind (tame_labelPosition _) fun _ =>
      .bind (tame_labelPosition _) fun _ => .pure _
  unfold exceptionRow
  cases h.catchType with
  | none => exact hpls none
  | some name =>
    refine .bind ?_ hpls
    rw [map_eq_pure_bind]
    exact .bind (over_fromPool (cares_cls _)) fun _ => .pure _

theorem over_localRows (s : LocalScope Label) : Tame Over (localRows s) := by
  refine .bind (tame_labelPosition _) fun _ => .bind (tame_labelPosition _) fun _ => .bind (over_fromPool (cares_utf8 _)) fun _ =>
    .bind (over_fromPool (cares_utf8 _)) fun _ => ?_
  dsimp only
  cases s.signature with
  | none => exact .pure _
  | some text => exact .bind (over_fromPool (cares_utf8 _)) fun _ => .pure _

theorem over_stackMapAttribute : Tame Over stackMapAttribute := by
  refine .bind .get fun w => ?_
  split
  · exact .pure _
  · refine .ite (.pure _) (.bind (over_fromPool (cares_utf8 _)) fun _ => ?_)
    split
    · exact .pure _
    · exact .throw rfl

theorem over_codeAttribute : Tame Over codeAttribute := by
  have hsl : Tame Over checkSlots := .bind .get fun _ => .ite (.throw_bind rfl _) (.ite (.throw rfl) (.pure _))
  have hline : ∀ line, Tame Over (lineRow line) := fun line => .bind (tame_labelPosition line.1) fun _ => .pure _
  exact .bind hsl fun _ => .bind .get fun _ => .bind (.mapM over_exceptionRow _) fun _ => .bind .get fun _ =>
    .bind (.mapM over_localRows _) fun _ => .bind (over_tableAttribute _ _ _) fun _ =>
    .bind (over_tableAttribute _ _ _) fun _ => .bind .get fun _ =>
    .bind (.mapM hline _) fun _ =>
    .bind (over_tableAttribute _ _ _) fun _ => .bind over_stackMapAttribute fun _ => .bind .get fun _ =>
    over_fromPool (cares_namedAttribute _ _)

theorem cares_exceptionsAttribute (names : List String) : Cares (exceptionsAttribute names) := by
  cases names with
  | nil => exact .pure _
  | cons name names =>
    exact .bind (.mapM cares_cls _) fun _ => .bind (cares_namedAttribute _ _) fun _ => .pure _

theorem cares_signatureAttribute (sig : Option String) : Cares (signatureAttribute sig) := by
  cases sig with
  | none => exact .pure _
  | some text => exact .bind (cares_utf8 _) fun _ => .bind (cares_namedAttribute _ _) fun _ => .pure _

theorem over_appendMethod (hasCode : Bool) : Tame Over (appendMethod hasCode) := by
  have hrest : ∀ code : List Attribute, Tame Over (do
      let d := (← get).declaration
      let excs ← fromPool (exceptionsAttribute d.exceptions)
      let sig ← fromPool (signatureAttribute d.signature)
      let name ← fromPool (Pool.utf8 d.name)
      let desc ← fromPool (Pool.utf8 d.descriptor)
      let method : Member .ofMethod := ⟨d.flags, name, desc, code ++ excs ++ sig⟩
      modify fun w => { w with methods := w.methods.push method } : MethodM Unit) := fun code =>
    .bind .get fun _ => .bind (over_fromPool (cares_exceptionsAttribute _)) fun _ =>
      .bind (over_fromPool (cares_signatureAttribute _)) fun _ => .bind (over_fromPool (cares_utf8 _)) fun _ =>
      .bind (over_fromPool (cares_utf8 _)) fun _ => .modifyGet fun _ h => h
  cases hasCode with
  | false => exact hrest []
  | true => exact .bind over_codeAttribute fun a => hrest [a]

theorem over_endStage {rest : Bool → MethodM Unit} (h : ∀ hasCode, Tame Over (rest hasCode)) :
    (stateAfter ((endStage >>= rest) w)).Over ∧ ∀ e w', (endStage >>= rest) w = .error e w' → e.IsInner :=
  ⟨(h _).keeps { w with stage := .ended } rfl, (h _).raises { w with stage := .ended }⟩

theorem over_finishOnce (w : MethodWriter) :
    (stateAfter (finishOnce w)).Over ∧ ∀ e w', finishOnce w = .error e w' → e.IsInner := by
  refine over_endStage fun hasCode => .ite (.bind .get fun _ => .ite (.throw_bind rfl _) ?_) (over_appendMethod _)
  exact .bind over_checkCodeLength fun _ => over_appendMethod _

theorem leads_newLabels (n : Nat) {s : Stage} : Leads s s (newLabels n) := by
  induction n with
  | zero => exact .pure _
  | succ n ih => exact .bind (.of_inside fun _ => tame_newLabel) fun _ => ih

/-- Events that write a body can come one after the other. -/
theorem leads_writes {finish : MethodM Unit} {events : List (MethodEvent Label)} (h : Replay.Writes events) :
    Leads .declared .open (events.forM (dispatch finish)) := by
  obtain ⟨body, rfl, hbody⟩ := h
  refine .bind (.dispatch rfl .openCode) fun _ => .forM fun e he => .dispatch ?_ (.of_inside fun _ => inside_body (hbody e he))
  have hev := hbody e he
  cases e with
  | code | maxs | finish => cases hev
  | _ => rfl

/-- A method that is written anew gets its events in order. -/
theorem leads_writeReplayed (m : Replay.Method) : Leads .declared .ended (writeReplayed (Replay.run m)) := by
  obtain ⟨hwrites, hcases, hpln⟩ := Replay.run_writes m
  have hfin : Leads .sealed .ended finishOnce := by
    intro w hw
    refine ⟨fun a w' hrun => ?_, (over_finishOnce w).2⟩
    have hover := (over_finishOnce w).1
    rwa [hrun] at hover
  unfold writeReplayed
  refine .bind (leads_newLabels _) fun _ => ?_
  cases herr : (Replay.run m).error with
  | some e =>
    rcases hcases with hnone | hsome
    · rw [hnone]
      exact .bind (.pure _) fun _ => .throw (hpln e herr).inner _
    · exact .bind (leads_writes hsome) fun _ => .throw (hpln e herr).inner _
  | none =>
    exact .bind (leads_writes (hwrites herr)) fun _ => .bind (.dispatch rfl (.closeCode _ _)) fun _ => .dispatch rfl hfin

theorem over_rederive : Tame Over rederive := by
  have hanew : ∀ desc m, Tame Over (writeAnew desc (Replay.run m)) := by
    intro desc m
    constructor
    · intro w hw
      unfold writeAnew
      dsimp only
      split <;> exact hw
    · intro w e w' hrun
      unfold writeAnew at hrun
      dsimp only at hrun
      split at hrun
      · cases hrun
      · cases hrun
        exact (leads_writeReplayed m _ rfl).2 _ _ ‹_›
  exact .bind tame_placedMethod fun _ => .bind .get fun _ => .bind (over_fromPool (cares_declare _)) fun _ => hanew _ _

/-- Once a method has been asked to end, it is over, and it was not too early. -/
theorem over_finish (w : MethodWriter) : (stateAfter (finish w)).Over ∧ ∀ e w', finish w = .error e w' → e.IsInner := by
  have hwiden : Tame Over widenJumps :=
    .bind over_checkCodeLength fun _ => .bind .get fun w => .bind (tame_checked (Widening.reports_widen w.code).isPlain) fun _ =>
      .bind (.modifyGet fun _ h => h) fun _ => over_checkCodeLength
  refine over_endStage fun hasCode => .bind .get fun w => .ite ?_ ?_
  · exact .bind hwiden fun _ => .bind .get fun _ => .ite over_rederive (over_appendMethod _)
  · exact .ite (.bind over_checkCodeLength fun _ => over_appendMethod _) (over_appendMethod _)

/-- A method that is over rejects every event, and nothing changes. -/
theorem send_over (h : w.Over) (event : MethodEvent Label) : ∃ e, send event w = .error e w := by
  have hrejected : event.isAllowed w.stage = false := by
    rw [show w.stage = .ended from h]
    cases event <;> rfl
  refine ⟨.invalidState event.name w.stage.moment, ?_⟩
  unfold send dispatch
  rw [run_get_bind]
  dsimp only
  rw [hrejected]
  rfl

end MethodWriter

end JvmAssembler
