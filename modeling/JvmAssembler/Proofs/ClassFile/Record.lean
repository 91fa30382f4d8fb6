import JvmAssembler.Proofs.ClassFile.Finishing

/-!
# JvmAssembler.Proofs.ClassFile.Record

What a class writer holds of the events that it has accepted.

A class is described by steps: events of the class, constants, and methods with steps of their own. Steps may be rejected.
The `Record` of a class notes what the accepted ones say, and a writer `Holds` its record after any steps: each row that
it keeps refers to the pool for what was said.
-/

namespace JvmAssembler

open Success

open Pool

/-! ### Steps of a method -/

/-- What the caller of a method writer does. -/
inductive MethodStep
  | newLabel
  | event (event : MethodEvent Label)
  deriving DecidableEq

def MethodStep.run : MethodStep → MethodM Unit
  | newLabel => do let _ ← MethodWriter.newLabel
  | event e => MethodWriter.send e

namespace MethodWriter

def afterSteps : List MethodStep → MethodWriter → MethodWriter
  | [], w => w
  | step :: steps, w => afterSteps steps (stateAfter (step.run w))

def finishedAs : List MethodStep → MethodWriter → Option MethodWriter
  | [], _ => none
  | step :: steps, w =>
    if step = .event .finish ∧ succeedsIn (fun _ => true) (send .finish w) = true then some w
    else finishedAs steps (stateAfter (step.run w))

theorem over_step {w : MethodWriter} (h : w.Over) (step : MethodStep) :
    (stateAfter (step.run w)).Over ∧ (stateAfter (step.run w)).pool = w.pool ∧
      (stateAfter (step.run w)).methods = w.methods := by
  cases step with
  | newLabel => exact ⟨h, rfl, rfl⟩
  | event e =>
    obtain ⟨error, hrun⟩ := send_over h e
    have hsame : stateAfter ((MethodStep.event e).run w) = w := by
      show stateAfter (send e w) = w
      rw [hrun]
      rfl
    rw [hsame]
    exact ⟨h, rfl, rfl⟩

/-- What comes after the end changes nothing. -/
theorem afterSteps_over {w : MethodWriter} (h : w.Over) (steps : List MethodStep) :
    (afterSteps steps w).pool = w.pool ∧ (afterSteps steps w).methods = w.methods ∧ finishedAs steps w = none := by
  induction steps generalizing w with
  | nil => exact ⟨rfl, rfl, rfl⟩
  | cons step steps ih =>
    obtain ⟨hover, hpool, hmeths⟩ := over_step h step
    obtain ⟨hpool', hmeths', hnone⟩ := ih hover
    refine ⟨hpool'.trans hpool, hmeths'.trans hmeths, ?_⟩
    have hfails : succeedsIn (fun _ => true) (send .finish w) = false := by
      obtain ⟨e, hrun⟩ := send_over h .finish
      rw [hrun]
      rfl
    rw [finishedAs, hfails]
    simpa using hnone

/-- The last event is rejected while the body is open. -/
theorem send_finish (w : MethodWriter) : (∃ e, send .finish w = .error e w) ∨ send .finish w = finish w := by
  unfold send dispatch
  rw [run_get_bind]
  dsimp only
  split
  · exact .inl ⟨_, rfl⟩
  · exact .inr rfl

/-- How the steps of a method end: it is finished, and the class has one method more, or it is not, and has none. -/
structure Results (w₀ : MethodWriter) (finished : Option MethodWriter) (w : MethodWriter) : Prop where
  orderly : w.pool.Orderly
  grows : Extends 5 w₀.pool w.pool
  unfinished : finished = none → w.methods = w₀.methods
  finished : ∀ f₀, finished = some f₀ → Step w₀ f₀ ∧ ∃ hasCode f m body, Concludes f₀ hasCode f ∧
    Extends 5 f₀.pool w.pool ∧ Extends 5 f.pool w.pool ∧ w.methods = w₀.methods.push m.encoded ∧
    MethodStands w.pool w₀.declaration body m ∧ BodyStands f hasCode w.pool body

theorem results_afterSteps {w₀ w : MethodWriter} (hord : w₀.pool.Orderly) (hstep : Step w₀ w) (steps : List MethodStep) :
    Results w₀ (finishedAs steps w) (afterSteps steps w) := by
  induction steps generalizing w with
  | nil =>
    exact ⟨(hstep.pool hord).1, (hstep.pool hord).2, fun _ => hstep.methods, by simp [finishedAs]⟩
  | cons step steps ih =>
    by_cases hfin : step = .event .finish
    · subst hfin
      rcases send_finish w with ⟨e, hrun⟩ | hrun
      · -- too early: the body is still open
        have hfails : succeedsIn (fun _ => true) (send .finish w) = false := by rw [hrun]; rfl
        have hsame : stateAfter ((MethodStep.event .finish).run w) = w := by
          show stateAfter (send .finish w) = w
          rw [hrun]
          rfl
        rw [finishedAs, hfails, afterSteps, hsame]
        simpa using ih hstep
      · -- the method is over, whether it could be finished or not
        obtain ⟨hord', hgrows⟩ := hstep.pool hord
        have hover := (over_finish w).1
        have hout := finish_outcome w hord'
        have hstate : stateAfter ((MethodStep.event .finish).run w) = stateAfter (finish w) := by
          show stateAfter (send .finish w) = _
          rw [hrun]
        obtain ⟨hpool, hmeths, hnone⟩ := afterSteps_over hover steps
        rw [finishedAs, afterSteps, hstate, hrun]
        cases hend : finish w with
        | error e w' =>
          rw [hend] at hpool hmeths hnone hout
          obtain ⟨hlater, hext, hsame⟩ : Untouched w w' := hout
          have hnot : succeedsIn (fun _ => true) (.error e w' : EStateM.Result Error MethodWriter Unit) = false := rfl
          rw [hnot, if_neg (by simp), hnone]
          refine ⟨?_, ?_, fun _ => hmeths.trans (hsame.trans hstep.methods), by simp⟩
          · rw [hpool]
            exact hlater
          · rw [hpool]
            exact hgrows.trans hext
        | ok u w' =>
          rw [hend] at hpool hmeths hnone hout
          obtain ⟨hasCode, f, hconc, hlater, hext, hext', m, body, hpush, hstd, hbody⟩ := hout
          have hdone : succeedsIn (fun _ => true) (.ok u w' : EStateM.Result Error MethodWriter Unit) = true := rfl
          rw [hdone, if_pos (by simp)]
          rw [hstep.declaration] at hstd
          rw [hstep.methods] at hpush
          refine ⟨?_, ?_, by simp, fun f₀ hf₀ => ?_⟩
          · rw [hpool]
            exact hlater
          · rw [hpool]
            exact hgrows.trans hext
          · cases hf₀
            rw [hpool, hmeths]
            exact ⟨hstep, hasCode, f, m, body, hconc, hext, hext', hpush, hstd, hbody⟩
    · have hnext : Step w₀ (stateAfter (step.run w)) := by
        cases step with
        | newLabel => exact hstep.trans ((Keeps.bind tame_newLabel.keeps fun _ => .pure _) w (.refl w))
        | event e => exact hstep.trans (steps_dispatch finish e (by simpa using hfin) w (.refl w))
      rw [finishedAs, if_neg (by simp [hfin]), afterSteps]
      exact ih hnext

end MethodWriter

/-! ### Steps of a class -/

/-- What the caller of a class writer does. -/
inductive ClassStep
  | event (event : ClassEvent)
  /-- Ask the pool for a constant. -/
  | constant (constant : Loadable)
  /-- Write a method. -/
  | method (d : Declaration) (steps : List MethodStep)
  deriving DecidableEq

def ClassStep.run : ClassStep → ClassM Unit
  | event e => ClassWriter.send e
  | constant c => do let _ ← ClassWriter.fromPool (Pool.loadable c)
  | method d steps => do let _ ← ClassWriter.method d fun w => .ok () (MethodWriter.afterSteps steps w)

def ClassStep.isVisit : ClassStep → Bool
  | event (.visit ..) => true
  | _ => false

/-- A field that was accepted. -/
structure FieldRecord where
  flags : AccessFlags .ofField
  name : String
  descriptor : String
  signature : Option String
  constant : Option Loadable

/-- An inner class that was accepted. -/
structure InnerRecord where
  name : String
  outer : Option String
  innerName : Option String
  flags : AccessFlags .ofInnerClass

/-- What accepted steps say of a class, apart from its header. -/
structure Record where
  source : Option String := none
  signature : Option String := none
  nestHost : Option String := none
  nestMembers : List String := []
  innerClasses : List InnerRecord := []
  fields : List FieldRecord := []
  /-- The headers of finished methods, with their writers as they stood before the last event. -/
  methods : List (Declaration × MethodWriter) := []

namespace Record

def add (r : Record) : ClassEvent → Record
  | .visit .. | .finish => r
  | .source file => { r with source := some file }
  | .signature text => { r with signature := some text }
  | .nestHost host => { r with nestHost := some host }
  | .nestMember member => { r with nestMembers := r.nestMembers ++ [member] }
  | .innerClass name outer innerName flags => { r with innerClasses := r.innerClasses ++ [⟨name, outer, innerName, flags⟩] }
  | .field flags name desc signature constant =>
    { r with fields := r.fields ++ [⟨flags, name, desc, signature, constant⟩] }

def addMethod (r : Record) (d : Declaration) : Option MethodWriter → Record
  | some finished => { r with methods := r.methods ++ [(d, finished)] }
  | none => r

end Record

namespace ClassWriter

def opened (w : ClassWriter) (d : Declaration) : Option MethodWriter :=
  if w.stage ≠ .open then none
  else
    match MethodWriter.declare d w.pool with
    | .ok desc pool => some (MethodWriter.start w.context w.compute d desc pool w.methods)
    | .error _ _ => none

def note (w : ClassWriter) (r : Record) : ClassStep → Record
  | .event e => if succeedsIn (fun _ => true) (send e w) then r.add e else r
  | .constant _ => r
  | .method d steps => r.addMethod d ((w.opened d).bind (MethodWriter.finishedAs steps))

def proceed : List ClassStep → ClassWriter × Record → ClassWriter × Record
  | [], state => state
  | step :: steps, (w, r) => proceed steps (stateAfter (step.run w), w.note r step)

def afterAll (compute : Compute) (hierarchy : Hierarchy) (steps : List ClassStep) : ClassWriter × Record :=
  proceed steps (start compute hierarchy, {})

/-! ### What the writer holds -/

/-- A field as it is written stands for what was said of it. -/
structure FieldStands (pool : Pool) (r : FieldRecord) (m : MemberLayout .ofField) : Prop where
  flags : m.flags = r.flags
  name : pool.entry? m.name = some (.utf8 r.name)
  descriptor : pool.entry? m.descriptor = some (.utf8 r.descriptor)
  parts : ∃ constant signature, Option.Rel (fun c i => pool.entry? i = some (Loadable.entry c)) r.constant constant ∧
    Option.Rel (fun text i => pool.entry? i = some (.utf8 text)) r.signature signature ∧
    Titled pool (constant.toList.map .constantValue ++ signature.toList.map .signature) m.parts

/-- An inner class as it is written stands for what was said of it. -/
structure InnerStands (pool : Pool) (r : InnerRecord) (row : InnerClassRow) : Prop where
  inner : pool.entry? row.inner = some (.cls r.name)
  outer : Option.Rel (fun name i => pool.entry? i = some (.cls name)) r.outer row.outer
  name : Option.Rel (fun text i => pool.entry? i = some (.utf8 text)) r.innerName row.name
  flags : row.flags = r.flags

/-- A method as it is written stands for its header and for what its writer held at the end. -/
def FinishedStands (pool : Pool) (finished : Declaration × MethodWriter) (m : MemberLayout .ofMethod) : Prop :=
  ∃ w₀ hasCode f body, w₀.labels = #[] ∧ w₀.stackMap = none ∧ w₀.pool.Orderly ∧ MethodWriter.Step w₀ finished.2 ∧
    MethodWriter.Concludes finished.2 hasCode f ∧ Extends 5 finished.2.pool pool ∧ Extends 5 f.pool pool ∧
    MethodWriter.MethodStands pool finished.1 body m ∧ MethodWriter.BodyStands f hasCode pool body

/-- A member in encoded form. -/
def Stored {α : Type} {kind : FlagKind} (R : α → MemberLayout kind → Prop) (a : α) (member : Member kind) : Prop :=
  ∃ m, member = m.encoded ∧ R a m

variable {α : Type} {pool : Pool} {n : Nat}

theorem Stored.imp {kind : FlagKind} {R S : α → MemberLayout kind → Prop} (h : ∀ a m, R a m → S a m) (a : α)
    (member : Member kind) (hstored : Stored R a member) : Stored S a member := by
  obtain ⟨m, heq, hm⟩ := hstored
  exact ⟨m, heq, h a m hm⟩

/-- A writer holds what its record says. -/
structure Holds (w : ClassWriter) (r : Record) : Prop where
  orderly : w.pool.Orderly
  fields : List.Forall₂ (Stored (FieldStands w.pool)) r.fields w.fields.toList
  methods : List.Forall₂ (Stored (FinishedStands w.pool)) r.methods w.methods.toList
  innerClasses : List.Forall₂ (InnerStands w.pool) r.innerClasses w.innerClasses.toList
  sourceFile : w.sourceFile = r.source
  signature : w.signature = r.signature
  nestHost : w.nestHost = r.nestHost
  nestMembers : w.nestMembers.toList = r.nestMembers

theorem stays_rows (entry : α → Entry) (a : Option α) (i : Option Nat) :
    Stays fun pool => Option.Rel (fun a i => pool.entry? i = some (entry a)) a i :=
  stays_optionRel (fun _ _ => stays_entry _ _) a i

theorem stays_fieldStands (r : FieldRecord) (m : MemberLayout .ofField) : Stays fun pool => FieldStands pool r m := by
  intro n pool pool' hext h
  obtain ⟨constant, signature, hcon, hsig, htitled⟩ := h.parts
  exact {
    flags := h.flags
    name := hext.entry? h.name
    descriptor := hext.entry? h.descriptor
    parts := ⟨constant, signature, stays_rows _ _ _ n pool pool' hext hcon,
      stays_rows _ _ _ n pool pool' hext hsig, stays_titled _ _ n pool pool' hext htitled⟩ }

theorem stays_innerStands (r : InnerRecord) (row : InnerClassRow) : Stays fun pool => InnerStands pool r row := by
  intro n pool pool' hext h
  exact {
    inner := hext.entry? h.inner
    outer := stays_rows _ _ _ n pool pool' hext h.outer
    name := stays_rows _ _ _ n pool pool' hext h.name
    flags := h.flags }

theorem finishedStands_later (finished : Declaration × MethodWriter) {pool' : Pool} (hext : Extends 5 pool pool')
    {m : MemberLayout .ofMethod} (h : FinishedStands pool finished m) : FinishedStands pool' finished m := by
  obtain ⟨w₀, hasCode, f, body, hlabs, hmap, hord, hstep, hconc, hgrows, hgrows', hstd, hbody⟩ := h
  exact ⟨w₀, hasCode, f, body, hlabs, hmap, hord, hstep, hconc, hgrows.trans hext, hgrows'.trans hext,
    MethodWriter.stays_methodStands _ _ _ 5 _ _ hext hstd,
    MethodWriter.stays_bodyStands _ _ _ 5 _ _ hext hbody⟩

/-- More rows in the pool do not matter. -/
theorem Holds.grow {w : ClassWriter} {r : Record} (h : Holds w r) (hord : pool.Orderly)
    (hext : Extends 5 w.pool pool) : Holds { w with pool := pool } r where
  orderly := hord
  fields := h.fields.imp (Stored.imp fun f m => stays_fieldStands f m 5 _ _ hext)
  methods := h.methods.imp (Stored.imp fun f _ => finishedStands_later f hext)
  innerClasses := stays_forall₂ stays_innerStands _ _ 5 _ _ hext h.innerClasses
  sourceFile := h.sourceFile
  signature := h.signature
  nestHost := h.nestHost
  nestMembers := h.nestMembers

/-- A writer holds what its record says, and its header is as it was earlier. -/
structure Follows (w₀ w : ClassWriter) (r : Record) : Prop extends Holds w r where
  grows : Extends 5 w₀.pool w.pool
  header : (w.stage = .fresh ↔ w₀.stage = .fresh) ∧ (w.version, w.flags, w.thisClass, w.superClass, w.interfaces) =
    (w₀.version, w₀.flags, w₀.thisClass, w₀.superClass, w₀.interfaces)

theorem Holds.follows {w : ClassWriter} {r : Record} (h : Holds w r) : Follows w w r :=
  { h with grows := .refl 5 _, header := ⟨.rfl, rfl⟩ }

theorem Follows.grow {w₀ w : ClassWriter} {r : Record} (h : Follows w₀ w r) (hord : pool.Orderly)
    (hext : Extends 5 w.pool pool) : Follows w₀ { w with pool := pool } r :=
  { h.toHolds.grow hord hext with grows := h.grows.trans hext, header := h.header }

/-- What follows asking the pool. -/
theorem fromPool_bind {β : Type} {action : PoolM α} {f : α → ClassM β} {Q : α → Pool → Prop}
    {R : β → ClassWriter → Prop} {E : ClassWriter → Prop} (hn : n ≤ 5) (h : Interns n Any action Q) {w : ClassWriter}
    (hord : w.pool.Orderly) (hE : ∀ pool, pool.Orderly → Extends 5 w.pool pool → E { w with pool := pool })
    (hf : ∀ a pool, pool.Orderly → Extends 5 w.pool pool → Q a pool → Outcome R E (f a { w with pool := pool })) :
    Outcome R E ((fromPool action >>= f) w) := by
  have hends := h w.pool hord trivial
  cases hrun : action w.pool with
  | ok a pool =>
    have hstep : fromPool action w = .ok a { w with pool := pool } := by simp only [fromPool, hrun]
    rw [hrun] at hends
    rw [run_bind_of_ok hstep]
    exact hf a pool hends.1 (hends.2.1.mono hn) hends.2.2
  | error e pool =>
    have hstep : fromPool action w = .error e { w with pool := pool } := by simp only [fromPool, hrun]
    rw [hrun] at hends
    rw [run_bind_of_error hstep]
    exact hE pool hends.1 (hends.2.mono hn)

theorem interns_optional {action : String → PoolM Nat} {entry : String → Entry}
    (h : ∀ text, Interns n Any (action text) fun i pool => pool.entry? i = some (entry text)) (text : Option String) :
    Interns n Any (optional action text) fun row pool =>
      Option.Rel (fun text i => pool.entry? i = some (entry text)) text row := by
  cases text with
  | none => exact .pure fun _ _ => .none
  | some text => exact .bind (h text) fun i => .pure fun _ hi => .some hi

/-! ### Events -/

variable {w₀ w : ClassWriter} {r : Record}

theorem innerClass_outcome (h : Follows w₀ w r) (name : String) (outer innerName : Option String)
    (flags : AccessFlags .ofInnerClass) :
    Outcome (fun _ w' => Follows w₀ w' (r.add (.innerClass name outer innerName flags))) (Follows w₀ · r)
      (innerClass name outer innerName flags w) := by
  unfold innerClass
  refine fromPool_bind (by decide) (interns_cls name) h.orderly (fun _ hp he => h.grow hp he) fun i pool₁ h₁ e₁ hi => ?_
  have hw₁ := h.grow h₁ e₁
  refine fromPool_bind (by decide) (interns_optional interns_cls outer) hw₁.orderly (fun _ hp he => hw₁.grow hp he)
    fun outerRow pool₂ h₂ e₂ houter => ?_
  have hw₂ := hw₁.grow h₂ e₂
  refine fromPool_bind (by decide) (interns_optional interns_utf8 innerName) hw₂.orderly (fun _ hp he => hw₂.grow hp he)
    fun nameRow pool₃ h₃ e₃ hname => ?_
  have hw₃ := hw₂.grow h₃ e₃
  exact { hw₃ with
    innerClasses := by
      rw [Array.toList_push]
      refine List.rel_append hw₃.innerClasses (.cons ⟨?_, ?_, hname, rfl⟩ .nil)
      · exact Extends.entry? (e₂.trans e₃) hi
      · exact stays_rows _ _ _ 5 _ _ e₃ houter }

theorem interns_constantAttribute (field : String) (constant : Option Loadable) :
    Interns 5 Any (constantAttribute field constant) fun as pool => ∃ row,
      Option.Rel (fun c i => pool.entry? i = some (Loadable.entry c)) constant row ∧
      Encodes pool (row.toList.map MemberPart.constantValue) as := by
  cases constant with
  | none => exact .pure fun _ _ => ⟨none, .none, encodes_nil _⟩
  | some value =>
    have hstored : Interns 5 Any (do
        let index ← Pool.loadable value
        let a ← Pool.namedAttribute "ConstantValue" (Bytes.u2 index)
        return [a]) fun as pool => ∃ row,
          Option.Rel (fun c i => pool.entry? i = some (Loadable.entry c)) (some value) row ∧
          Encodes pool (row.toList.map MemberPart.constantValue) as := by
      refine .bind ((interns_loadable value).mono (by decide) (fun _ h => h) fun _ _ h => h) fun i => ?_
      refine .bind (.keeping (stays_entry i _) (interns_namedAttribute _ _)) fun a => .pure fun pool ha => ?_
      exact ⟨some i, .some ha.1, encodes_one (MemberPart.constantValue i) ha.2.1 ha.2.2⟩
    cases value with
    | cls _ | methodType _ | methodHandle _ => exact .throw _
    | _ => exact hstored

theorem field_outcome (h : Follows w₀ w r) (flags : AccessFlags .ofField) (name desc : String) (signature : Option String)
    (constant : Option Loadable) :
    Outcome (fun _ w' => Follows w₀ w' (r.add (.field flags name desc signature constant))) (Follows w₀ · r)
      (field flags name desc signature constant w) := by
  unfold field
  cases FieldType.ofDescriptor desc with
  | error e => exact h
  | ok type =>
    refine fromPool_bind (Nat.le_refl 5) (interns_constantAttribute name constant) h.orderly (fun _ hp he => h.grow hp he)
      fun constants pool₁ h₁ e₁ hcon => ?_
    obtain ⟨constantRow, hconstantRow, hconstants⟩ := hcon
    have hw₁ := h.grow h₁ e₁
    refine fromPool_bind (Nat.le_refl 5) (MethodWriter.interns_signatureAttribute signature) hw₁.orderly
      (fun _ hp he => hw₁.grow hp he) fun signatures pool₂ h₂ e₂ hsig => ?_
    obtain ⟨signatureRow, hsignatureRow, hsignatures⟩ := hsig
    have hw₂ := hw₁.grow h₂ e₂
    refine fromPool_bind (by decide) (interns_utf8 name) hw₂.orderly (fun _ hp he => hw₂.grow hp he)
      fun nameRow pool₃ h₃ e₃ hname => ?_
    have hw₃ := hw₂.grow h₃ e₃
    refine fromPool_bind (by decide) (interns_utf8 desc) hw₃.orderly (fun _ hp he => hw₃.grow hp he)
      fun descriptorRow pool₄ h₄ e₄ hdesc => ?_
    have hw₄ := hw₃.grow h₄ e₄
    obtain ⟨parts, hparts, htitled⟩ := (stays_encodes _ _ 5 _ _ ((e₂.trans e₃).trans e₄) hconstants).append
      (stays_encodes _ _ 5 _ _ (e₃.trans e₄) hsignatures)
    exact { hw₄ with
      fields := by
        rw [Array.toList_push]
        refine List.rel_append hw₄.fields (.cons ?_ .nil)
        refine ⟨⟨flags, nameRow, descriptorRow, parts⟩, ?_, rfl, e₄.entry? hname, hdesc, constantRow, signatureRow,
          stays_rows _ _ _ 5 _ _ ((e₂.trans e₃).trans e₄) hconstantRow, stays_rows _ _ _ 5 _ _ (e₃.trans e₄) hsignatureRow,
          htitled⟩
        rw [MemberLayout.encoded, hparts] }

theorem keeps_fromPool {action : PoolM α} {Q : α → Pool → Prop} (hn : n ≤ 5)
    (h : Interns n Any action Q) (r : Record) : Keeps (Holds · r) (fromPool action) := by
  intro w hw
  rw [← bind_pure (fromPool action)]
  exact Outcome.stateAfter (P := (Holds · r)) (fromPool_bind hn h hw.orderly (fun _ hp he => hw.grow hp he)
    fun _ _ hp he _ => hw.grow hp he)

/-- The header is not part of the record. -/
theorem keeps_visit (version : Version) (flags : AccessFlags .ofClass) (name : String) (superClass : Option String)
    (interfaces : List String) (r : Record) : Keeps (Holds · r) (visit version flags name superClass interfaces) := by
  refine .bind (.modify fun w h => { h with }) fun _ => ?_
  refine .bind (keeps_fromPool (by decide) (interns_cls name) r) fun this => ?_
  refine .bind (.modify fun w h => { h with }) fun _ => ?_
  refine .bind (keeps_fromPool (by decide) (interns_optional interns_cls superClass) r) fun sup => ?_
  refine .bind (.modify fun w h => { h with }) fun _ => ?_
  refine .bind (.forM (fun interface => ?_) interfaces) fun _ => ?_
  · refine .bind (keeps_fromPool (by decide) (interns_cls interface) r) fun index => ?_
    exact .modify fun w h => { h with }
  · exact .modify fun w h => { h with }

theorem require_outcome (stage : ClassStage) (name : String) (w : ClassWriter) :
    Outcome (fun _ w' => w' = w ∧ w.stage = stage) (fun w' => w' = w ∧ w.stage ≠ stage) (require stage name w) := by
  unfold require
  rw [run_get_bind]
  split
  next hstg => exact ⟨rfl, hstg⟩
  next hstg => exact ⟨rfl, not_not.1 hstg⟩

/-- An accepted event adds to the record, a rejected one does not. -/
theorem send_outcome (h : Holds w r) (e : ClassEvent) (he : (ClassStep.event e).isVisit = false) :
    Outcome (fun _ w' => Follows w w' (r.add e)) (Follows w · r) (send e w) := by
  refine Outcome.bind ((require_outcome _ _ w).mono (fun _ _ h => h) ?_) ?_
  · rintro _ ⟨rfl, -⟩
    exact h.follows
  rintro _ _ ⟨rfl, hstg⟩
  have h := h.follows
  cases e with
  | visit => cases he
  | source file => exact { h with sourceFile := rfl }
  | signature text => exact { h with signature := rfl }
  | nestHost host => exact { h with nestHost := rfl }
  | nestMember member =>
    refine { h with nestMembers := ?_ }
    rw [Array.toList_push, h.nestMembers]
    rfl
  | innerClass name outer innerName flags => exact innerClass_outcome h name outer innerName flags
  | field flags name desc signature constant => exact field_outcome h flags name desc signature constant
  | finish => exact { h with header := ⟨by simp [show _ = ClassStage.open from hstg], rfl⟩ }

/-! ### Methods -/

/-- What becomes of the class while a method is written. -/
theorem results_holds {m w' : MethodWriter} {finished : Option MethodWriter} {d : Declaration}
    (h : Follows w₀ w r) (hlabs : m.labels = #[]) (hmap : m.stackMap = none) (hdecl : m.declaration = d)
    (hpool : m.pool = w.pool) (hmeths : m.methods = w.methods) (hresu : MethodWriter.Results m finished w') :
    Follows w₀ { w with pool := w'.pool, methods := w'.methods } (r.addMethod d finished) := by
  have hgr : Follows w₀ { w with pool := w'.pool } r := h.grow hresu.orderly (hpool ▸ hresu.grows)
  cases finished with
  | none =>
    refine { hgr with methods := ?_ }
    show List.Forall₂ (Stored (FinishedStands w'.pool)) r.methods w'.methods.toList
    rw [hresu.unfinished rfl, hmeths]
    exact hgr.methods
  | some f₀ =>
    obtain ⟨hstep, hasCode, f, member, body, hconc, hbef, haft, hpush, hstd, hbody⟩ := hresu.finished f₀ rfl
    refine { hgr with methods := ?_ }
    show List.Forall₂ (Stored (FinishedStands w'.pool)) (r.methods ++ [(d, f₀)]) w'.methods.toList
    rw [hpush, hmeths, Array.toList_push]
    refine List.rel_append hgr.methods (.cons ?_ .nil)
    exact ⟨member, rfl, m, hasCode, f, body, hlabs, hmap, hpool ▸ h.orderly, hstep, hconc, hbef, haft,
      hdecl ▸ hstd, hbody⟩

/-- A method that comes too early or too late does nothing. -/
theorem run_method_of_stage (h : w.stage ≠ .open) (d : Declaration) (steps : List MethodStep) :
    ∃ e, (ClassStep.method d steps).run w = .error e w := by
  have hreq : require .open "visit_method" w = .error (.invalidState "visit_method" w.stage.moment) w := by
    rw [require, run_get_bind, if_pos h]
    rfl
  exact ⟨_, run_bind_of_error (run_bind_of_error hreq)⟩

/-- A method borrows the pool and the finished methods. -/
theorem run_method (h : w.stage = .open) (d : Declaration) (steps : List MethodStep) :
    (ClassStep.method d steps).run w = match MethodWriter.declare d w.pool with
      | .error e pool => .error e { w with pool := pool }
      | .ok desc pool =>
        let m := MethodWriter.afterSteps steps (MethodWriter.start w.context w.compute d desc pool w.methods)
        .ok () { w with pool := m.pool, methods := m.methods } := by
  have hreq : require .open "visit_method" w = .ok () w := by
    rw [require, run_get_bind, if_neg (by simpa using h)]
    rfl
  unfold ClassStep.run method
  cases hdec : MethodWriter.declare d w.pool with
  | error e pool =>
    have hpool : fromPool (MethodWriter.declare d) w = .error e { w with pool := pool } := by
      rw [fromPool, hdec]
    refine run_bind_of_error ?_
    rw [run_bind_of_ok hreq, run_bind_of_error hpool]
  | ok desc pool =>
    have hpool : fromPool (MethodWriter.declare d) w = .ok desc { w with pool := pool } := by
      rw [fromPool, hdec]
    refine run_bind_of_ok (a := .ok ()) ?_
    rw [run_bind_of_ok hreq, run_bind_of_ok hpool]
    rfl

/-- A method adds itself to the record if it is finished, and else nothing but rows of the pool. -/
theorem method_follows (h : Follows w₀ w r) (d : Declaration) (steps : List MethodStep) :
    Follows w₀ (stateAfter ((ClassStep.method d steps).run w)) (w.note r (.method d steps)) := by
  by_cases hstg : w.stage = .open
  · have hdec := (MethodWriter.cares_declare d).develops w.pool h.orderly
    rw [run_method hstg, note, opened, if_neg (by simpa using hstg)]
    cases hd : MethodWriter.declare d w.pool with
    | error e pool =>
      rw [hd] at hdec
      exact h.grow hdec.1 hdec.2
    | ok desc pool =>
      rw [hd] at hdec
      have hgr : Follows w₀ { w with pool := pool } r := h.grow hdec.1 hdec.2
      let m := MethodWriter.start w.context w.compute d desc pool w.methods
      have hresu : MethodWriter.Results m (MethodWriter.finishedAs steps m) (MethodWriter.afterSteps steps m) :=
        MethodWriter.results_afterSteps hgr.orderly (.refl m) steps
      have haft := results_holds hgr rfl rfl rfl rfl rfl hresu
      exact haft
  · obtain ⟨e, hrun⟩ := run_method_of_stage hstg d steps
    rw [hrun, note, opened, if_pos hstg]
    exact h

/-- A step that says nothing of the header. -/
theorem step_follows (h : Holds w r) (step : ClassStep) (hstep : step.isVisit = false) :
    Follows w (stateAfter (step.run w)) (w.note r step) := by
  cases step with
  | event e =>
    have hout := send_outcome h e hstep
    show Follows w (stateAfter (send e w)) (if succeedsIn (fun _ => true) (send e w) then r.add e else r)
    cases hrun : send e w with
    | ok u w' =>
      rw [hrun] at hout
      exact hout
    | error e w' =>
      rw [hrun] at hout
      exact hout
  | constant c =>
    exact Outcome.stateAfter (P := (Follows w · r)) (fromPool_bind (by decide) (interns_loadable c) h.orderly
      (fun _ hp he => h.follows.grow hp he) fun _ _ hp he _ => h.follows.grow hp he)
  | method d steps => exact method_follows h.follows d steps

theorem step_holds (h : Holds w r) (step : ClassStep) : Holds (stateAfter (step.run w)) (w.note r step) := by
  cases hstep : step.isVisit with
  | false => exact (step_follows h step hstep).toHolds
  | true =>
    unfold ClassStep.isVisit at hstep
    split at hstep
    · rw [note, Record.add, ite_self]
      exact Keeps.bind (.bind .get fun _ => .ite (.throw _) (.pure _)) (fun _ => keeps_visit _ _ _ _ _ r) w h
    · cases hstep

theorem proceed_holds (steps : List ClassStep) (h : Holds w r) :
    Holds (proceed steps (w, r)).1 (proceed steps (w, r)).2 := by
  induction steps generalizing w r with
  | nil => exact h
  | cons step steps ih => exact ih (step_holds h step)

theorem holds_start (compute : Compute) (hierarchy : Hierarchy) : Holds (start compute hierarchy) {} :=
  ⟨orderly_empty, .nil, .nil, .nil, rfl, rfl, rfl, rfl⟩

/-- Whatever the caller does, the writer holds what its record says. -/
theorem holds_afterAll (compute : Compute) (hierarchy : Hierarchy) (steps : List ClassStep) :
    Holds (afterAll compute hierarchy steps).1 (afterAll compute hierarchy steps).2 :=
  proceed_holds steps (holds_start compute hierarchy)

end ClassWriter

end JvmAssembler
