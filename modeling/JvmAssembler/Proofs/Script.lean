import JvmAssembler.Proofs.Writer

/-!
# JvmAssembler.Proofs.Script

How a method is written, apart from who writes it.

A `Script` lists what the caller of a writer does: make a label, or send an event. Labels are numbered in the order in
which they are made, so that one script can be performed by writers that number their own labels differently. Control
flow and stack heights are properties of the script:

* A point is a number of acts, those that come before it. Control is at a point when the next act is about to take place;
  only instructions do anything then.
* `Flow` has the edges of the control flow graph with the stack heights at both ends.
-/

namespace JvmAssembler

/-! ### Renaming labels -/

/-- Rename the place of an item. -/
def FrameItem.map {L M : Type} (f : L → M) : FrameItem L → FrameItem M
  | top => top
  | int => int
  | float => float
  | long => long
  | double => double
  | null => null
  | uninitializedThis => uninitializedThis
  | object name => object name
  | uninitialized place => uninitialized (f place)

def FrameShape.map {σ τ : Type} (f : σ → τ) : FrameShape σ → FrameShape τ
  | same => same
  | sameOne item => sameOne (f item)
  | chop count => chop count
  | append locals => append (locals.map f)
  | full locals stack => full (locals.map f) (stack.map f)

def FrameShape.items {σ : Type} : FrameShape σ → List σ
  | same | chop _ => []
  | sameOne item => [item]
  | append locals => locals
  | full locals stack => locals ++ stack

def FrameItem.places {L : Type} : FrameItem L → List L
  | uninitialized place => [place]
  | _ => []

/-- Rename the places of a handler. -/
def Handler.map {L M : Type} (f : L → M) (h : Handler L) : Handler M :=
  ⟨f h.start, f h.stop, f h.handler, h.catchType⟩

namespace MethodEvent

/-- Rename the labels of an event. -/
def map {L M : Type} (f : L → M) : MethodEvent L → MethodEvent M
  | code => code
  | frame shape => frame (shape.map (FrameItem.map f))
  | instruction i => instruction (i.map f)
  | label l => label (f l)
  | tryCatch h => tryCatch (h.map f)
  | localVariable s => localVariable { s with start := f s.start, stop := f s.stop }
  | lineNumber line start => lineNumber line (f start)
  | maxs stack locals => maxs stack locals
  | finish => finish

def places {L : Type} : MethodEvent L → List L
  | frame shape => shape.items.flatMap FrameItem.places
  | instruction i => i.places
  | label l => [l]
  | tryCatch h => [h.start, h.stop, h.handler]
  | localVariable s => [s.start, s.stop]
  | lineNumber _ start => [start]
  | code | maxs .. | finish => []

end MethodEvent

theorem FrameItem.map_congr {L M : Type} {f g : L → M} {item : FrameItem L} (h : ∀ n ∈ item.places, f n = g n) :
    item.map f = item.map g := by
  cases item with
  | uninitialized place => simp [FrameItem.map, h place (by simp [FrameItem.places])]
  | _ => rfl

theorem FrameShape.map_congr {σ τ : Type} {f g : σ → τ} {shape : FrameShape σ} (h : ∀ item ∈ shape.items, f item = g item) :
    shape.map f = shape.map g := by
  cases shape with
  | same => rfl
  | sameOne item => simp [FrameShape.map, h item (by simp [FrameShape.items])]
  | chop count => rfl
  | append locals => exact congrArg FrameShape.append (List.map_congr_left fun item hitem => h item hitem)
  | full locals stack =>
    simp only [FrameShape.map, FrameShape.full.injEq]
    exact ⟨List.map_congr_left fun item hitem => h item (by simp [FrameShape.items, hitem]),
      List.map_congr_left fun item hitem => h item (by simp [FrameShape.items, hitem])⟩

theorem Instruction.map_congr {L M : Type} {f g : L → M} {i : Instruction L} (h : ∀ n ∈ i.places, f n = g n) :
    i.map f = i.map g := by
  cases i with
  | jump op target => simp [Instruction.map, h target (by simp [Instruction.places])]
  | tableSwitch low high fallback targets =>
    simp only [Instruction.map, h fallback (by simp [Instruction.places])]
    rw [List.map_congr_left fun n hn => h n (by simp [Instruction.places, hn])]
  | lookupSwitch fallback keys targets =>
    simp only [Instruction.map, h fallback (by simp [Instruction.places])]
    rw [List.map_congr_left fun n hn => h n (by simp [Instruction.places, hn])]
  | _ => rfl

theorem Instruction.places_map {L M : Type} (f : L → M) (i : Instruction L) : (i.map f).places = i.places.map f := by
  cases i <;> simp [Instruction.map, Instruction.places]

/-- Only the labels of an event matter. -/
theorem MethodEvent.map_congr {L M : Type} {f g : L → M} {e : MethodEvent L} (h : ∀ n ∈ e.places, f n = g n) :
    e.map f = e.map g := by
  cases e with
  | frame shape =>
    refine congrArg MethodEvent.frame (FrameShape.map_congr fun item hitem => FrameItem.map_congr fun n hn => h n ?_)
    exact List.mem_flatMap.2 ⟨item, hitem, hn⟩
  | instruction i => exact congrArg MethodEvent.instruction (Instruction.map_congr h)
  | label l => simp [MethodEvent.map, h l (by simp [MethodEvent.places])]
  | tryCatch hd =>
    simp [MethodEvent.map, Handler.map, h hd.start (by simp [MethodEvent.places]), h hd.stop (by simp [MethodEvent.places]),
      h hd.handler (by simp [MethodEvent.places])]
  | localVariable s =>
    simp [MethodEvent.map, h s.start (by simp [MethodEvent.places]), h s.stop (by simp [MethodEvent.places])]
  | lineNumber line start => simp [MethodEvent.map, h start (by simp [MethodEvent.places])]
  | _ => rfl

def MethodEvent.instructions {L : Type} : MethodEvent L → List (Instruction L)
  | instruction i => [i]
  | _ => []

/-! ### Performing a script -/

/-- What the caller of a writer does. Labels are given by their number among those made so far. -/
inductive Act
  | newLabel
  | event (event : MethodEvent Nat)
  deriving DecidableEq

/-- What the caller of a writer does, in order, up to where the body of the method ends. -/
abbrev Script := List Act

/-- A writer with the labels that were made for its caller. -/
structure Session where
  made : Array Label := #[]
  writer : MethodWriter

namespace Session

open MethodWriter

def label (s : Session) (n : Nat) : Label := s.made.getD n 0

/-- Perform an act. Events that are rejected, that end the body or that refer to labels which have not been made are no
part of a script. -/
def perform (s : Session) : Act → Option Session
  | .newLabel =>
    match newLabel s.writer with
    | .ok l w => some ⟨s.made.push l, w⟩
    | .error .. => none
  | .event e =>
    if endsBody e || e.places.any (s.made.size ≤ ·) then none
    else
      match send (e.map s.label) s.writer with
      | .ok _ w => some ⟨s.made, w⟩
      | .error .. => none

def run (s : Session) (script : Script) : Option Session := script.foldlM perform s

theorem run_concat (s : Session) (script : Script) (act : Act) :
    s.run (script ++ [act]) = (s.run script).bind (·.perform act) := by
  simp [run, List.foldlM_append]

theorem perform_event {s s' : Session} {e : MethodEvent Nat} (h : s.perform (.event e) = some s') :
    endsBody e = false ∧ (∀ n ∈ e.places, n < s.made.size) ∧ s'.made = s.made ∧
      send (e.map s.label) s.writer = .ok () s'.writer := by
  unfold Session.perform at h
  dsimp only at h
  split at h
  · cases h
  next hallowed =>
    obtain ⟨hev, hpls⟩ : endsBody e = false ∧ ∀ n ∈ e.places, n < s.made.size := by simpa using hallowed
    split at h
    next hsend =>
      cases h
      exact ⟨hev, hpls, rfl, hsend⟩
    next => cases h

theorem perform_newLabel {s s' : Session} (h : s.perform .newLabel = some s') :
    s' = ⟨s.made.push s.writer.labels.size, { s.writer with labels := s.writer.labels.push {} }⟩ := by
  cases h
  rfl


theorem run_cons {s s' : Session} {act : Act} {script : Script} (h : s.run (act :: script) = some s') :
    ∃ t, s.perform act = some t ∧ t.run script = some s' := by
  rw [Session.run, List.foldlM_cons] at h
  exact Option.bind_eq_some_iff.1 h

/-- Labels that have been made keep their numbers. -/
theorem label_run {s s' : Session} {script : Script} (h : s.run script = some s') :
    s.made.size ≤ s'.made.size ∧ ∀ n < s.made.size, s'.label n = s.label n := by
  induction script generalizing s with
  | nil =>
    cases h
    exact ⟨Nat.le_refl _, fun _ _ => rfl⟩
  | cons act script ih =>
    obtain ⟨t, hact, hrest⟩ := run_cons h
    obtain ⟨hsize, hlab⟩ := ih hrest
    cases act with
    | newLabel =>
      obtain rfl := perform_newLabel hact
      have hpush : ∀ n < s.made.size, (⟨s.made.push s.writer.labels.size,
          { s.writer with labels := s.writer.labels.push {} }⟩ : Session).label n = s.label n := by
        intro n hn
        simp [Session.label, Array.getElem?_push_lt hn, hn]
      simp only [Array.size_push] at hsize hlab
      exact ⟨by omega, fun n hn => (hlab n (by omega)).trans (hpush n hn)⟩
    | event e =>
      obtain ⟨-, -, hmade, -⟩ := perform_event hact
      have hsame : ∀ n, t.label n = s.label n := fun n => by rw [Session.label, hmade, Session.label]
      rw [hmade] at hsize hlab
      exact ⟨hsize, fun n hn => (hlab n hn).trans (hsame n)⟩

end Session

theorem MethodEvent.endsBody_map (e : MethodEvent Nat) (f : Nat → Label) :
    MethodWriter.endsBody (e.map f) = MethodWriter.endsBody e := by
  cases e <;> rfl

def MethodWriter.Performs (initial : MethodWriter) (script : Script) (s : Session) : Prop :=
  Session.run ⟨#[], initial⟩ script = some s

namespace MethodWriter.Performs

variable {initial : MethodWriter} {script : Script} {s : Session}

/-- The last act of a script. -/
theorem concat {act : Act} (h : initial.Performs (script ++ [act]) s) :
    ∃ before, initial.Performs script before ∧ before.perform act = some s := by
  rw [Performs, Session.run_concat] at h
  exact Option.bind_eq_some_iff.1 h

/-- The first acts of a script, and the others. -/
theorem split (h : initial.Performs script s) (k : Nat) :
    ∃ before, initial.Performs (script.take k) before ∧ before.run (script.drop k) = some s := by
  rw [Performs, Session.run, ← List.take_append_drop k script, List.foldlM_append] at h
  exact Option.bind_eq_some_iff.1 h

/-- The states that the writer goes through. -/
theorem history (h : initial.Performs script s) :
    ∃ σ : Nat → Session, (∀ k, initial.Performs (script.take k) (σ k) ∧ (σ k).run (script.drop k) = some s) ∧
      ∀ k act, script[k]? = some act → (σ k).perform act = some (σ (k + 1)) := by
  obtain ⟨σ, hσ⟩ := Classical.skolem.1 h.split
  refine ⟨σ, hσ, fun k act hk => ?_⟩
  have hnext := (hσ (k + 1)).1
  rw [List.take_add_one, hk, Option.toList_some] at hnext
  obtain ⟨before, hbef, hact⟩ := hnext.concat
  obtain rfl : σ k = before := Option.some.inj ((hσ k).1.symm.trans hbef)
  exact hact

end MethodWriter.Performs

/-- The number of labels that have been made before a point. -/
def Script.made (script : Script) (k : Nat) : Nat := (script.take k).count .newLabel

theorem Script.made_newLabel {script : Script} {k : Nat} (h : script[k]? = some .newLabel) :
    script.made (k + 1) = script.made k + 1 := by
  simp [Script.made, List.take_add_one, h]

theorem Script.made_event {script : Script} {k : Nat} {e : MethodEvent Nat} (h : script[k]? = some (.event e)) :
    script.made (k + 1) = script.made k := by
  simp [Script.made, List.take_add_one, h]

/-! ### Stack use -/

/-- The slots that an effect pops and those that it pushes, where the opcode alone decides it. -/
def Effect.use : Effect → Nat × Nat
  | stack pops pushes => (pops, (pushes.map Value.width).foldr (· + ·) 0)
  | shuffle pops pushes => (pops, pushes.length)
  | constant width => (0, width)
  | loadReference | newObject => (0, 1)
  | element => (2, 1)
  | store wide => (if wide then 2 else 1, 0)
  | newArray | newReferenceArray | cast => (1, 1)
  | increment | subroutine _ | field .. | invoke .. | invokeDynamic | newMultiArray | unknown => (0, 0)

/-- Whether an effect pushes a return address. -/
def Effect.enters : Effect → Bool
  | subroutine delta => delta != 0
  | _ => false

theorem Effect.delta_eq_use {e : Effect} (h : e.enters = false) : e.delta?.getD 0 = (e.use.2 : Int) - e.use.1 := by
  cases e with
  | store wide => cases wide <;> rfl
  | subroutine delta => simpa [enters, delta?, use] using h
  | _ => simp [delta?, use]

/-- The slots that a field access pops and those that it pushes, by the slots of the field. -/
def Effect.fieldUse (width : Nat) : Effect → Nat × Nat
  | field onObject writes =>
    ((if onObject then 1 else 0) + (if writes then width else 0), if writes then 0 else width)
  | _ => (0, 0)

namespace Instruction

variable {L : Type}

/-- The slots that an instruction pops and those that it pushes. The return address of a call is not counted: it is there
only where the subroutine starts. -/
def use : Instruction L → Nat × Nat
  | plain op | int op _ | var op _ | type op _ | jump op _ => op.effect.use
  | iinc .. => (0, 0)
  | field op m =>
    match FieldType.ofDescriptor m.descriptor with
    | .ok t => op.effect.fieldUse t.width
    | .error _ => (0, 0)
  | method op m _ =>
    match MethodDescriptor.ofDescriptor m.descriptor with
    | .ok d => (d.parameterLength (op != Opcode.invokestatic), d.returnLength)
    | .error _ => (0, 0)
  | invokeDynamic _ text _ _ =>
    match MethodDescriptor.ofDescriptor text with
    | .ok d => (d.parameterLength false, d.returnLength)
    | .error _ => (0, 0)
  | ldc constant => (0, constant.width)
  | tableSwitch .. | lookupSwitch .. => (1, 0)
  | multiNewArray _ dimensions => (dimensions.toNat, 1)

@[simp] theorem use_iinc (index : UInt16) (increment : Int16) : (iinc index increment : Instruction L).use = (0, 0) := rfl

@[simp] theorem use_ldc (constant : Loadable) : (ldc constant : Instruction L).use = (0, constant.width) := rfl

variable {m : MemberRef} {d : MethodDescriptor} {M : Type} {i : Instruction L}

theorem use_field {t : FieldType} (ht : FieldType.ofDescriptor m.descriptor = .ok t) (op : Opcode) :
    (field op m : Instruction L).use = op.effect.fieldUse t.width := by
  show (match FieldType.ofDescriptor m.descriptor with
    | .ok t => op.effect.fieldUse t.width
    | .error _ => (0, 0)) = _
  rw [ht]

theorem use_method (hd : MethodDescriptor.ofDescriptor m.descriptor = .ok d) (op : Opcode) (isInterface : Bool) :
    (method op m isInterface : Instruction L).use =
      (d.parameterLength (op != Opcode.invokestatic), d.returnLength) := by
  show (match MethodDescriptor.ofDescriptor m.descriptor with
    | .ok d => (d.parameterLength (op != Opcode.invokestatic), d.returnLength)
    | .error _ => (0, 0)) = _
  rw [hd]

theorem use_invokeDynamic {text : String} (hd : MethodDescriptor.ofDescriptor text = .ok d)
    (name : String) (bootstrap : Handle) (arguments : List Loadable) :
    (invokeDynamic name text bootstrap arguments : Instruction L).use = (d.parameterLength false, d.returnLength) := by
  show (match MethodDescriptor.ofDescriptor text with
    | .ok d => (d.parameterLength false, d.returnLength)
    | .error _ => (0, 0)) = _
  rw [hd]

/-- By how much an instruction changes the stack height. -/
def delta (i : Instruction L) : Int := i.use.2 - i.use.1

def isCall : Instruction L → Bool
  | jump op _ => op == Opcode.jsr || op == Opcode.jsrW
  | _ => false

def isReturn : Instruction L → Bool
  | var op _ => op == Opcode.ret
  | _ => false

/-- Whether control can go on behind an instruction, other than by a return from a subroutine. -/
def fallsThrough : Instruction L → Bool
  | plain op => !op.isExit
  | var op _ => op != Opcode.ret
  | jump op _ => op != Opcode.goto && op != Opcode.gotoW && op != Opcode.jsr && op != Opcode.jsrW
  | tableSwitch .. | lookupSwitch .. => false
  | _ => true

theorem delta_map (f : L → M) (i : Instruction L) : (i.map f).delta = i.delta := by cases i <;> rfl

theorem isCall_map (f : L → M) (i : Instruction L) : (i.map f).isCall = i.isCall := by cases i <;> rfl

theorem isReturn_map (f : L → M) (i : Instruction L) : (i.map f).isReturn = i.isReturn := by cases i <;> rfl

theorem fallsThrough_map (f : L → M) (i : Instruction L) : (i.map f).fallsThrough = i.fallsThrough := by
  cases i <;> rfl

/-- A call has one target. -/
theorem places_of_isCall (h : i.isCall = true) : ∃ target, i.places = [target] := by
  cases i with
  | jump op target => exact ⟨target, rfl⟩
  | _ => cases h

/-- A return goes to no label. -/
theorem places_of_isReturn (h : i.isReturn = true) : i.places = [] := by
  cases i with
  | var op index => rfl
  | _ => cases h

end Instruction

/-! ### Control flow -/

namespace Script

variable (script : Script)

def instruction? (k : Nat) : Option (Instruction Nat) :=
  match script[k]? with
  | some (.event (.instruction i)) => some i
  | _ => none

def instructions : List (Instruction Nat) :=
  script.flatMap fun act =>
    match act with
    | .newLabel => []
    | .event e => e.instructions

variable {k : Nat} {height : Int}

theorem mem_instructions {script : Script} {i : Instruction Nat} (h : script.instruction? k = some i) :
    i ∈ script.instructions := by
  unfold instruction? at h
  split at h
  next j hj =>
    cases h
    exact List.mem_flatMap.2 ⟨_, List.mem_of_getElem? hj, by simp [MethodEvent.instructions]⟩
  next => cases h

/-- The label with a number is placed at a point. -/
def Places (k n : Nat) : Prop := script[k]? = some (.event (.label n))

/-- A handler protects the points between two points, and starts behind a third. -/
structure Handles (h : Handler Nat) (start stop handler : Nat) : Prop where
  mem : .event (.tryCatch h) ∈ script
  start : script.Places start h.start
  stop : script.Places stop h.stop
  handler : script.Places handler h.handler

/-- The edges of the control flow graph, with the stack heights at both ends. Control that goes to a label gets behind it. -/
inductive Flow : Nat → Int → Nat → Int → Prop
  /-- Nothing happens at this point. -/
  | pass {k : Nat} {height : Int} {act : Act} :
      script[k]? = some act → script.instruction? k = none → Flow k height (k + 1) height
  | fall {k : Nat} {height : Int} {i : Instruction Nat} :
      script.instruction? k = some i → i.fallsThrough = true → Flow k height (k + 1) (height + i.delta)
  | jump {k n target : Nat} {height : Int} {i : Instruction Nat} :
      script.instruction? k = some i → i.isCall = false → n ∈ i.places → script.Places target n →
      Flow k height (target + 1) (height + i.delta)
  /-- An instruction of a protected range throws. -/
  | caught {k start stop handler : Nat} {height : Int} {i : Instruction Nat} {h : Handler Nat} :
      script.instruction? k = some i → script.Handles h start stop handler → start < k → k < stop →
      Flow k height (handler + 1) 1

/-- The points that control can get to from the start of the body, with the stack height there. -/
inductive Reaches : Nat → Int → Prop
  | entry {k : Nat} : script[k]? = some (.event .code) → Reaches (k + 1) 0
  | flow {k k' : Nat} {height height' : Int} :
      Reaches k height → script.Flow k height k' height' → Reaches k' height'

/-- The points that an execution gets to, with the stack height there and the points behind the calls that have not
returned yet, the last one first. A call pushes a return address, and a return goes on behind the last call. -/
inductive Executes : Nat → Int → List Nat → Prop
  | entry {k : Nat} : script[k]? = some (.event .code) → Executes (k + 1) 0 []
  | flow {k k' : Nat} {height height' : Int} {calls : List Nat} :
      Executes k height calls → script.Flow k height k' height' → Executes k' height' calls
  | call {k n target : Nat} {height : Int} {calls : List Nat} {i : Instruction Nat} :
      Executes k height calls → script.instruction? k = some i → i.isCall = true → n ∈ i.places →
      script.Places target n → Executes (target + 1) (height + 1) ((k + 1) :: calls)
  | back {k site : Nat} {height : Int} {calls : List Nat} {i : Instruction Nat} :
      Executes k height (site :: calls) → script.instruction? k = some i → i.isReturn = true →
      Executes site height calls

theorem Executes.code {script : Script} {calls : List Nat}
    (h : script.Executes k height calls) : ∃ j : Nat, script[j]? = some (.event .code) := by
  induction h with
  | entry hcode => exact ⟨_, hcode⟩
  | flow _ _ ih => exact ih
  | call _ _ _ _ _ ih => exact ih
  | back _ _ _ ih => exact ih

/-- What control gets to without calls is part of an execution. -/
theorem Reaches.executes {script : Script} (h : script.Reaches k height) :
    script.Executes k height [] := by
  induction h with
  | entry hcode => exact .entry hcode
  | flow _ hflow ih => exact ih.flow hflow

/-- All paths to a point arrive with the same stack height. -/
def HeightsAgree : Prop := ∀ k height height', script.Reaches k height → script.Reaches k height' → height = height'

/-- No instruction pops more than there is. -/
def NeverUnderflows : Prop :=
  ∀ k height i, script.Reaches k height → script.instruction? k = some i → (i.use.1 : Int) ≤ height

end Script

end JvmAssembler
