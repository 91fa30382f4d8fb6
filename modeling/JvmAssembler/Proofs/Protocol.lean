import JvmAssembler.Proofs.ClassFile.Record

/-!
# JvmAssembler.Proofs.Protocol

The order in which a method gets its events.

A method is declared, opened, written, closed and finished, or declared and finished. Whatever its caller does, the events
that are accepted come in this order: each stage of the method lets only those through that may come next, and no event
fails for its place in the order once it is let through. What comes at a wrong moment changes nothing. A method gets into
its class when it is finished, once, and a class has the methods that were finished, in that order.
-/

namespace JvmAssembler

open Pool

namespace MethodWriter

def accepted : List MethodStep → MethodWriter → List (MethodEvent Label)
  | [], _ => []
  | .newLabel :: steps, w => accepted steps (stateAfter (MethodStep.newLabel.run w))
  | .event e :: steps, w =>
    (if succeedsIn (fun _ => true) (send e w) then [e] else []) ++ accepted steps (stateAfter (send e w))

/-- The events of a whole method: those of its body, if it has one, between `code` and `maxs`. -/
inductive Course : List (MethodEvent Label) → Prop
  | bare : Course [.finish]
  | full {body : List (MethodEvent Label)} (hbody : ∀ e ∈ body, isBody e = true) (stack locals : UInt16) :
      Course (.code :: body ++ [.maxs stack locals, .finish])

/-- What has been accepted by the time that a method gets to a stage. -/
def Spells : Stage → List (MethodEvent Label) → Prop
  | .declared, events => events = []
  | .open, events => Replay.Writes events
  | .sealed, events => ∃ before stack locals, Replay.Writes before ∧ events = before ++ [.maxs stack locals]
  | .ended, events => ∃ course, Course course ∧ events <+: course

/-- What has been accepted is the start of a course. -/
theorem Spells.course {stage : Stage} {events : List (MethodEvent Label)} (h : Spells stage events) :
    ∃ course, Course course ∧ events <+: course := by
  cases stage with
  | declared =>
    obtain rfl : events = [] := h
    exact ⟨_, .bare, List.nil_prefix⟩
  | «open» =>
    obtain ⟨body, rfl, hbody⟩ := h
    exact ⟨_, .full hbody 0 0, List.prefix_append _ _⟩
  | sealed =>
    obtain ⟨_, stack, locals, ⟨body, rfl, hbody⟩, rfl⟩ := h
    exact ⟨_, .full hbody stack locals, [.finish], by simp⟩
  | ended => exact h

variable {w : MethodWriter}

/-! ### One event -/

/-- An event that is let through does not fail for its place in the order. -/
theorem raises_effect (event : MethodEvent Label) : Raises Error.IsInner (effect finish event) := by
  cases event with
  | code =>
    intro w e w' hrun
    exact (Leads.openCode w rfl).2 e w' hrun
  | maxs stack locals =>
    intro w e w' hrun
    exact (Leads.closeCode _ _ w rfl).2 e w' hrun
  | finish =>
    intro w e w' hrun
    exact (over_finish w).2 e w' hrun
  | _ =>
    intro w e w' hrun
    exact (inside_body rfl : Tame (Inside w) _).raises w e w' hrun

/-- What comes at a wrong moment changes nothing. -/
theorem eq_of_invalidState {event : MethodEvent Label} {name : String} {moment : Moment} {v : MethodWriter}
    (h : send event w = .error (.invalidState name moment) v) : v = w := by
  rw [send, dispatch_run] at h
  split at h
  · cases raises_effect event w _ v h
  · cases h
    rfl

/-- An event that comes too late is rejected. -/
theorem send_ended (h : w.Over) (event : MethodEvent Label) : ∃ name moment, send event w = .error (.invalidState name moment) w := by
  rw [send, dispatch_run, if_neg]
  · exact ⟨_, _, rfl⟩
  · rw [show w.stage = .ended from h]
    cases event <;> simp [MethodEvent.isAllowed]

/-- The end is over, unless it came at a wrong moment. -/
theorem over_of_finish (h : ∀ name moment v, send .finish w ≠ .error (.invalidState name moment) v) :
    (stateAfter (send .finish w)).Over := by
  have hrun := dispatch_run finish .finish w
  split at hrun
  · rw [send, hrun]
    exact (over_finish w).1
  · exact absurd hrun (h _ _ _)

/-- **One event.** The stage tells what has been accepted, also after the event. -/
theorem spells_send {done : List (MethodEvent Label)} (h : Spells w.stage done) (event : MethodEvent Label) :
    Spells (stateAfter (send event w)).stage (done ++ if succeedsIn (fun _ => true) (send event w) then [event] else []) := by
  rw [send, dispatch_run]
  split
  · rename_i hallowed
    cases event with
    | code =>
      have hstg : w.stage = .declared := by simpa [MethodEvent.isAllowed] using hallowed
      rw [hstg] at h
      obtain rfl : done = [] := h
      obtain ⟨w', hrun, hopen⟩ := openCode_run w
      rw [show effect finish .code w = _ from hrun]
      show Spells w'.stage [.code]
      rw [hopen]
      exact ⟨[], rfl, by simp⟩
    | maxs stack locals =>
      have hstg : w.stage = .open := by simpa [MethodEvent.isAllowed] using hallowed
      rw [hstg] at h
      cases hrun : effect finish (.maxs stack locals) w with
      | ok u w' =>
        show Spells w'.stage (done ++ [.maxs stack locals])
        rw [(Leads.closeCode _ _ w rfl).1 u w' hrun]
        exact ⟨done, stack, locals, h, rfl⟩
      | error e w' =>
        show Spells w'.stage (done ++ [])
        rw [(closeCode_error hrun).stage, hstg, List.append_nil]
        exact h
    | finish =>
      have hover := (over_finish w).1
      have hstg : w.stage = .declared ∨ w.stage = .sealed := by simpa [MethodEvent.isAllowed] using hallowed
      rw [show effect finish .finish w = finish w from rfl, show (stateAfter (finish w)).stage = .ended from hover]
      split
      · -- a whole course has been accepted
        rcases hstg with hstg | hstg
        · rw [hstg] at h
          obtain rfl : done = [] := h
          exact ⟨_, .bare, List.prefix_refl _⟩
        · rw [hstg] at h
          obtain ⟨_, stack, locals, ⟨body, rfl, hbody⟩, rfl⟩ := h
          exact ⟨_, .full hbody stack locals, [], by simp⟩
      · rw [List.append_nil]
        exact h.course
    | _ =>
      have hstg : w.stage = .open := by simpa [MethodEvent.isAllowed] using hallowed
      rw [((inside_body rfl : Tame (Inside w) _).keeps w (.refl w)).stage, hstg]
      rw [hstg] at h
      refine Replay.Writes.append h fun e he => ?_
      split at he
      · rw [List.mem_singleton.1 he]
        rfl
      · cases he
  · show Spells w.stage (done ++ [])
    rw [List.append_nil]
    exact h

/-! ### All events -/

/-- **All events.** The stage tells what has been accepted. -/
theorem spells_accepted {done : List (MethodEvent Label)} (h : Spells w.stage done) (steps : List MethodStep) :
    Spells (afterSteps steps w).stage (done ++ accepted steps w) := by
  induction steps generalizing w done with
  | nil =>
    rw [accepted, List.append_nil]
    exact h
  | cons step steps ih =>
    cases step with
    | newLabel => exact ih (w := stateAfter (MethodStep.newLabel.run w)) h
    | event e =>
      rw [accepted, ← List.append_assoc]
      exact ih (spells_send h e)

theorem afterSteps_append (first rest : List MethodStep) (w : MethodWriter) :
    afterSteps (first ++ rest) w = afterSteps rest (afterSteps first w) := by
  induction first generalizing w with
  | nil => rfl
  | cons step first ih => exact ih _

theorem over_afterSteps (h : w.Over) (steps : List MethodStep) : (afterSteps steps w).Over := by
  induction steps generalizing w with
  | nil => exact h
  | cons step steps ih => exact ih (over_step h step).1

/-- A method is finished if and only if its end is accepted. -/
theorem finishedAs_isSome (steps : List MethodStep) (w : MethodWriter) :
    (finishedAs steps w).isSome = true ↔ .finish ∈ accepted steps w := by
  induction steps generalizing w with
  | nil => simp [finishedAs, accepted]
  | cons step steps ih =>
    cases step with
    | newLabel =>
      rw [finishedAs, if_neg (by simp), ih]
      rfl
    | event e =>
      rw [finishedAs, accepted]
      by_cases hfin : e = .finish ∧ succeedsIn (fun _ => true) (send .finish w) = true
      · obtain ⟨rfl, hok⟩ := hfin
        simp [hok]
      · rw [if_neg (by simpa using hfin), ih, List.mem_append]
        refine ⟨.inr, fun hmem => hmem.resolve_left fun hnow => ?_⟩
        split at hnow
        · rename_i hok
          obtain rfl := List.mem_singleton.1 hnow
          exact hfin ⟨rfl, hok⟩
        · cases hnow

end MethodWriter

namespace ClassWriter

/-! ### The methods of a class -/

/-- The headers of the methods whose end is accepted, in this order. -/
def finishedHeaders : List ClassStep → ClassWriter → List Declaration
  | [], _ => []
  | .method d body :: steps, w =>
    (if (w.opened d).any (.finish ∈ MethodWriter.accepted body ·) then [d] else []) ++
      finishedHeaders steps (stateAfter ((ClassStep.method d body).run w))
  | .event e :: steps, w => finishedHeaders steps (stateAfter ((ClassStep.event e).run w))
  | .constant c :: steps, w => finishedHeaders steps (stateAfter ((ClassStep.constant c).run w))

/-- A method of a class has a header. -/
structure HasHeader (pool : Pool) (d : Declaration) (m : Member .ofMethod) : Prop where
  flags : m.flags = d.flags
  name : pool.entry? m.name = some (.utf8 d.name)
  descriptor : pool.entry? m.descriptor = some (.utf8 d.descriptor)

variable {w : ClassWriter} {d : Declaration}

theorem methods_add (r : Record) (e : ClassEvent) : (r.add e).methods = r.methods := by
  cases e <;> rfl

/-- A method is noted if its end is accepted. -/
theorem headers_note (r : Record) (d : Declaration) (steps : List MethodStep) :
    (w.note r (.method d steps)).methods.map (·.1) =
      r.methods.map (·.1) ++ if (w.opened d).any (.finish ∈ MethodWriter.accepted steps ·) then [d] else [] := by
  rw [note]
  cases w.opened d with
  | none => simp [Record.addMethod]
  | some m =>
    have hfinished := MethodWriter.finishedAs_isSome steps m
    cases hf : MethodWriter.finishedAs steps m with
    | none =>
      have hnot : .finish ∉ MethodWriter.accepted steps m := fun hmem => by simp [hf, hmem] at hfinished
      simp [hf, Record.addMethod, hnot]
    | some f =>
      have hmem : .finish ∈ MethodWriter.accepted steps m := by simpa [hf] using hfinished
      simp [hf, Record.addMethod, hmem]

theorem headers_proceed (steps : List ClassStep) (w : ClassWriter) (r : Record) :
    (proceed steps (w, r)).2.methods.map (·.1) = r.methods.map (·.1) ++ finishedHeaders steps w := by
  induction steps generalizing w r with
  | nil => simp [proceed, finishedHeaders]
  | cons step steps ih =>
    rw [proceed, ih]
    cases step with
    | event e =>
      rw [note, finishedHeaders]
      split
      · rw [methods_add]
      · rfl
    | constant c => rfl
    | method d body => rw [headers_note, finishedHeaders, List.append_assoc]

/-- **The methods of a class** are those whose end was accepted, in this order. -/
theorem methods_afterAll (compute : Compute) (hierarchy : Hierarchy) (steps : List ClassStep) :
    List.Forall₂ (HasHeader (afterAll compute hierarchy steps).1.pool) (finishedHeaders steps (start compute hierarchy))
      (afterAll compute hierarchy steps).1.methods.toList := by
  have hnoted := headers_proceed steps (start compute hierarchy) {}
  rw [List.map_nil, List.nil_append] at hnoted
  rw [← hnoted, List.forall₂_map_left_iff]
  refine (holds_afterAll compute hierarchy steps).methods.imp ?_
  rintro finished _ ⟨m, rfl, _, _, _, body, -, -, -, -, -, -, -, hstd, -⟩
  exact ⟨hstd.flags, hstd.name, hstd.descriptor⟩

/-- How a method keeps to the protocol, whatever its caller does. -/
structure FollowsProtocol (w : ClassWriter) (d : Declaration) (m : MethodWriter) (steps : List MethodStep) : Prop where
  /-- The accepted events are the start of a course. -/
  course : ∃ course, MethodWriter.Course course ∧ MethodWriter.accepted steps m <+: course
  /-- A label can be made at any moment. -/
  label : ∀ first rest, steps = first ++ .newLabel :: rest →
    ∃ v, MethodStep.newLabel.run (MethodWriter.afterSteps first m) = .ok () v
  /-- What comes at a wrong moment changes nothing. -/
  untimely : ∀ first e rest name moment v, steps = first ++ .event e :: rest →
    MethodWriter.send e (MethodWriter.afterSteps first m) = .error (.invalidState name moment) v →
    v = MethodWriter.afterSteps first m
  /-- Once the end was let through, all events are rejected. -/
  ended : ∀ first later e rest, steps = first ++ .event .finish :: later ++ .event e :: rest →
    (∀ name moment v, MethodWriter.send .finish (MethodWriter.afterSteps first m) ≠ .error (.invalidState name moment) v) →
    ∃ name moment, MethodWriter.send e (MethodWriter.afterSteps (first ++ .event .finish :: later) m) =
      .error (.invalidState name moment) (MethodWriter.afterSteps (first ++ .event .finish :: later) m)
  /-- The class has one method more if the end is accepted. -/
  finished : .finish ∈ MethodWriter.accepted steps m →
    ∃ member, HasHeader (stateAfter ((ClassStep.method d steps).run w)).pool d member ∧
      (stateAfter ((ClassStep.method d steps).run w)).methods = w.methods.push member
  /-- And it has no more if not. -/
  unfinished : .finish ∉ MethodWriter.accepted steps m →
    (stateAfter ((ClassStep.method d steps).run w)).methods = w.methods

/-- The state of a class and the writer of a method that is opened in it. -/
theorem opened_some {m : MethodWriter} (h : w.opened d = some m) (hord : w.pool.Orderly) :
    m.stage = .declared ∧ m.declaration = d ∧ m.methods = w.methods ∧ m.pool.Orderly ∧ ∀ steps,
      (stateAfter ((ClassStep.method d steps).run w)).pool = (MethodWriter.afterSteps steps m).pool ∧
      (stateAfter ((ClassStep.method d steps).run w)).methods = (MethodWriter.afterSteps steps m).methods := by
  have hdec := (MethodWriter.cares_declare d).develops w.pool hord
  unfold opened at h
  split at h
  · cases h
  · rename_i hstg
    rw [not_not] at hstg
    cases hrun : MethodWriter.declare d w.pool with
    | error e pool =>
      rw [hrun] at h
      cases h
    | ok descriptor pool =>
      rw [hrun] at h hdec
      cases h
      refine ⟨rfl, rfl, rfl, hdec.1, fun steps => ?_⟩
      rw [run_method hstg, hrun]
      exact ⟨rfl, rfl⟩

/-- **The construction protocol.** In every class, whatever was done before, the methods are those whose end was accepted, in
this order, and every method that is opened keeps to the protocol. -/
theorem construction_protocol {compute : Compute} {hierarchy : Hierarchy} {before : List ClassStep} {m : MethodWriter}
    (hopened : (afterAll compute hierarchy before).1.opened d = some m) (steps : List MethodStep) :
    FollowsProtocol (afterAll compute hierarchy before).1 d m steps ∧
    List.Forall₂ (HasHeader (afterAll compute hierarchy before).1.pool)
      (finishedHeaders before (start compute hierarchy)) (afterAll compute hierarchy before).1.methods.toList := by
  refine ⟨?_, methods_afterAll compute hierarchy before⟩
  generalize hclass : (afterAll compute hierarchy before).1 = w at hopened
  have horderly : w.pool.Orderly := hclass ▸ (holds_afterAll compute hierarchy before).orderly
  obtain ⟨hstage, hdeclaration, hmethods, hpool, hrun⟩ := opened_some hopened horderly
  have hresults := MethodWriter.results_afterSteps hpool (.refl m) steps
  have hfinished := MethodWriter.finishedAs_isSome steps m
  constructor
  case course =>
    have hspells : MethodWriter.Spells m.stage [] := by
      rw [hstage]
      rfl
    exact (MethodWriter.spells_accepted hspells steps).course
  case label =>
    intro first rest _
    exact ⟨_, rfl⟩
  case untimely =>
    intro first e rest name moment v _ h
    exact MethodWriter.eq_of_invalidState h
  case ended =>
    intro first later e rest _ hthrough
    refine MethodWriter.send_ended ?_ e
    rw [MethodWriter.afterSteps_append]
    exact MethodWriter.over_afterSteps (MethodWriter.over_of_finish hthrough) later
  case finished =>
    intro hmem
    obtain ⟨f, hf⟩ := Option.isSome_iff_exists.1 (hfinished.2 hmem)
    obtain ⟨-, hasCode, _, member, body, -, -, -, hpush, hstands, -⟩ := hresults.finished f hf
    rw [hdeclaration] at hstands
    rw [(hrun steps).1, (hrun steps).2]
    exact ⟨member.encoded, ⟨hstands.flags, hstands.name, hstands.descriptor⟩, hmethods ▸ hpush⟩
  case unfinished =>
    intro hnot
    have hnone : MethodWriter.finishedAs steps m = none := by
      cases hf : MethodWriter.finishedAs steps m with
      | none => rfl
      | some f => exact absurd (hfinished.1 (by simp [hf])) hnot
    rw [(hrun steps).2, hresults.unfinished hnone, hmethods]

def oneMethod : List ClassStep :=
  [.event (.visit .default ⟨1⟩ "A" (some "java/lang/Object") []),
   .method ⟨⟨1025⟩, "f", "()V", none, []⟩ [.event .finish, .event .finish]]

/-- The events of a method, some of which come at wrong moments. -/
def outOfOrder : List MethodStep :=
  [.event (.maxs 0 0), .event .code, .newLabel, .event .finish, .event (.label 1), .event (.label 1),
   .event (.instruction (.plain Opcode.voidReturn)), .event .code, .event (.maxs 0 0), .event (.label 1), .event .finish,
   .newLabel, .event .code, .event .finish]

theorem construction_protocol_outOfOrder : ∃ m,
    (afterAll .maxs .empty oneMethod).1.opened ⟨⟨9⟩, "m", "()V", none, []⟩ = some m ∧
    MethodWriter.accepted outOfOrder m =
      [.code, .label 1, .instruction (.plain Opcode.voidReturn), .maxs 0 0, .finish] ∧
    FollowsProtocol (afterAll .maxs .empty oneMethod).1 ⟨⟨9⟩, "m", "()V", none, []⟩ m outOfOrder := by
  have hcomputed : ((afterAll .maxs .empty oneMethod).1.opened ⟨⟨9⟩, "m", "()V", none, []⟩).map
      (MethodWriter.accepted outOfOrder) =
        some [.code, .label 1, .instruction (.plain Opcode.voidReturn), .maxs 0 0, .finish] := by
    decide +kernel
  obtain ⟨m, hopened, haccepted⟩ := Option.map_eq_some_iff.1 hcomputed
  exact ⟨m, hopened, haccepted, (construction_protocol hopened outOfOrder).1⟩

end ClassWriter

end JvmAssembler
