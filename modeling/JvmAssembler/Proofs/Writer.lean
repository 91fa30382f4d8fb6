import JvmAssembler.Method
import JvmAssembler.Proofs.Bytes
import JvmAssembler.Proofs.Keeps
import JvmAssembler.Proofs.Labels
import JvmAssembler.Proofs.Opcode
import JvmAssembler.Proofs.Success

/-!
# JvmAssembler.Proofs.Writer

The small steps of writing a method, and the events that it is written by.
-/

namespace JvmAssembler

open Success

namespace MethodWriter

variable {α : Type} {w w' : MethodWriter} {u : Unit}

theorem fromPool_ok {action : PoolM α} {a : α} (h : fromPool action w = .ok a w') :
    ∃ pool, action w.pool = .ok a pool ∧ w' = { w with pool := pool } := by
  unfold fromPool at h
  dsimp only at h
  split at h
  · cases h
    exact ⟨_, ‹_›, rfl⟩
  · cases h

theorem run_position (w : MethodWriter) : position w = .ok w.code.size w := rfl

theorem checkLabel_ok {label : Label} (h : checkLabel label w = .ok u w') :
    label < w.labels.size ∧ w = w' := by
  obtain ⟨w₁, w₂, hget, h⟩ := run_bind_ok.1 h
  obtain ⟨rfl, rfl⟩ := run_get_ok.1 hget
  split at h
  · cases h
  · obtain ⟨-, rfl⟩ := run_pure_ok.1 h
    exact ⟨Nat.lt_of_not_le ‹_›, rfl⟩

theorem checkLabels_ok {labels : List Label}
    (h : checkLabels labels w = .ok u w') : (∀ l ∈ labels, l < w.labels.size) ∧ w = w' := by
  induction labels with
  | nil =>
    obtain ⟨-, rfl⟩ := run_pure_ok.1 h
    exact ⟨by simp, rfl⟩
  | cons l labels ih =>
    obtain ⟨_, w₁, hfst, h⟩ := run_bind_ok.1 h
    obtain ⟨hl, rfl⟩ := checkLabel_ok hfst
    obtain ⟨hlabs, rfl⟩ := ih h
    exact ⟨List.forall_mem_cons.2 ⟨hl, hlabs⟩, rfl⟩

/-- The opcodes by which the writer jumps and calls. -/
theorem jumpForm_kind (op : Opcode) : ∀ form ∈ jumpForm? op,
    (op == Opcode.jsr || op == Opcode.jsrW) = (form.1 == Opcode.jsr) ∧
      (op == Opcode.goto || op == Opcode.gotoW) = (form.1 == Opcode.goto) ∧
      (form.1 ≠ Opcode.jsr → form.1.delta = op.delta ∧ op.delta ≤ 0) := by
  -- one form for each opcode, so there is no need to go through all forms
  have hall : ∀ op : Opcode, (jumpForm? op).all (fun form => decide
      ((op == Opcode.jsr || op == Opcode.jsrW) = (form.1 == Opcode.jsr) ∧
        (op == Opcode.goto || op == Opcode.gotoW) = (form.1 == Opcode.goto) ∧
        (form.1 ≠ Opcode.jsr → form.1.delta = op.delta ∧ op.delta ≤ 0))) = true := by
    apply Opcode.forall_opcode
    decide +kernel
  intro form hform
  have hkind := hall op
  rw [Option.mem_def.1 hform] at hkind
  exact of_decide_eq_true hkind

theorem jumpForm_cases {op base : Opcode} {wide : Bool} (h : jumpForm? op = some (base, wide)) :
    wide = true ∧ (op = Opcode.gotoW ∨ op = Opcode.jsrW) ∨
      wide = false ∧ base = op ∧ op.isShortJump = true := by
  unfold jumpForm? at h
  split at h
  · cases h
    exact .inl ⟨rfl, .inl ‹_›⟩
  · split at h
    · cases h
      exact .inl ⟨rfl, .inr ‹_›⟩
    · split at h
      · cases h
        exact .inr ⟨rfl, rfl, ‹_›⟩
      · cases h

/-- Whether they fit or not, filling in offsets changes nothing but the code, and not its size. -/
theorem foldl_patchReference (position : Nat) (refs : List ForwardRef) (w : MethodWriter) :
    ∃ code marks, refs.foldl (patchReference position) w = { w with code := code, hasOversized := marks } ∧
      code.size = w.code.size := by
  induction refs generalizing w with
  | nil => exact ⟨w.code, w.hasOversized, rfl, rfl⟩
  | cons r refs ih =>
    have hfst : ∃ code marks, patchReference position w r = { w with code := code, hasOversized := marks } ∧
        code.size = w.code.size := by
      unfold patchReference
      dsimp only
      split
      · exact ⟨_, _, rfl, Bytes.size_patch _ _ _⟩
      · split
        · exact ⟨_, _, rfl, Bytes.size_patch _ _ _⟩
        · exact ⟨_, _, rfl, Bytes.size_patch _ _ _⟩
    obtain ⟨code, marks, hpatch, hsize⟩ := hfst
    obtain ⟨code', marks', hrest, hsize'⟩ := ih { w with code := code, hasOversized := marks }
    refine ⟨code', marks', ?_, hsize'.trans hsize⟩
    rw [List.foldl_cons, hpatch, hrest]

/-- A label that is placed cannot be placed again. Any other gets its position, and offsets are filled in. -/
theorem resolve_cases (label : Label) (w : MethodWriter) :
    (w.labels.isPlaced label = true ∧ resolve label w = .error (.labelPlacedTwice label) w) ∨
    (w.labels.position? label = none ∧ ∃ code marks, code.size = w.code.size ∧ resolve label w =
      .ok () { w with labels := w.labels.placed label w.code.size, code := code, hasOversized := marks }) := by
  unfold resolve
  rw [run_get_bind]
  cases hpl : w.labels.isPlaced label with
  | true => exact .inl ⟨rfl, rfl⟩
  | false =>
    obtain ⟨code, marks, hrest, hsize⟩ := foldl_patchReference w.code.size (w.labels.info label).waiting.toList
      { w with labels := w.labels.placed label w.code.size }
    exact .inr ⟨by simpa [LabelTable.isPlaced] using hpl, code, marks, hsize, congrArg (EStateM.Result.ok ()) hrest⟩

/-! ### Events -/

def endsBody : MethodEvent Label → Bool
  | .maxs .. | .finish => true
  | _ => false

theorem keeps_requirePlaced (w : MethodWriter) (labels : List Label) : Keeps (· = w) (requirePlaced labels) := by
  induction labels with
  | nil => exact .pure _
  | cons label labels ih => exact .bind .get fun _ => .ite (.throw_bind _ _) ih

theorem send_maxs_run (stack locals : UInt16) (w : MethodWriter) :
    send (.maxs stack locals) w =
      if w.stage = .open then closeCode stack.toNat locals.toNat w
      else .error (.invalidState "visit_maxs" w.stage.moment) w := by
  show (if !(MethodEvent.maxs stack locals).isAllowed w.stage then _ else closeCode stack.toNat locals.toNat :
    MethodM Unit) w = _
  by_cases hstg : w.stage = .open
  · rw [if_neg (by simp [MethodEvent.isAllowed, hstg]), if_pos hstg]
  · rw [if_pos (by simp [MethodEvent.isAllowed, hstg]), if_neg hstg]
    rfl

/-- The state after several events, whether they were accepted or not. -/
def afterEvents (w : MethodWriter) (events : List (MethodEvent Label)) : MethodWriter :=
  events.foldl (fun w event => stateAfter (send event w)) w

/-- The instructions of an event that is accepted, with the position at which they are emitted. -/
def emitted (position : Nat) : MethodEvent Label → List (Nat × Instruction Label)
  | .instruction i => [(position, i)]
  | _ => []

/-- A method is written from an initial state: labels are made, and events other than those that end the body are
accepted. The log has the instructions among them, each with the position at which it was emitted. -/
inductive Accepts (initial : MethodWriter) : List (Nat × Instruction Label) → MethodWriter → Prop
  | start : Accepts initial [] initial
  | newLabel {log : List (Nat × Instruction Label)} {w : MethodWriter} :
      Accepts initial log w → Accepts initial log (stateAfter (newLabel w))
  | send {log : List (Nat × Instruction Label)} {w w' : MethodWriter} {event : MethodEvent Label} :
      Accepts initial log w → endsBody event = false → send event w = .ok () w' →
      Accepts initial (log ++ emitted w.code.size event) w'

/-- Whether several events of the body are all accepted. -/
def isAccepted (w : MethodWriter) : List (MethodEvent Label) → Bool
  | [] => true
  | event :: events =>
    !endsBody event && succeedsIn (fun _ => true) (send event w) && isAccepted (stateAfter (send event w)) events

/-- The instructions among several events, with the positions at which they are emitted. -/
def logOf (w : MethodWriter) : List (MethodEvent Label) → List (Nat × Instruction Label)
  | [] => []
  | event :: events => emitted w.code.size event ++ logOf (stateAfter (send event w)) events

theorem Accepts.events {initial : MethodWriter} {log : List (Nat × Instruction Label)} (h : Accepts initial log w)
    {events : List (MethodEvent Label)} (hevents : w.isAccepted events = true) :
    Accepts initial (log ++ w.logOf events) (w.afterEvents events) := by
  induction events generalizing log w with
  | nil => simpa [logOf, afterEvents] using h
  | cons event events ih =>
    simp only [isAccepted, Bool.and_eq_true, Bool.not_eq_true'] at hevents
    obtain ⟨⟨hev, hsend⟩, hrest⟩ := hevents
    obtain ⟨u, w', hsend, -⟩ := exists_of_succeedsIn hsend
    have hnext := ih (.send h hev hsend) (by rwa [hsend] at hrest)
    rw [List.append_assoc] at hnext
    rw [logOf, afterEvents, List.foldl_cons, hsend]
    exact hnext

end MethodWriter

end JvmAssembler
