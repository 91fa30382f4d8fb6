import JvmAssembler.Proofs.Pool.Custody

/-!
# JvmAssembler.Proofs.Faults

What reading code can complain about.

Decoding and widening fail only because of the code that they read. They never complain about the order of events, nor
about the heights at which paths meet.
-/

namespace JvmAssembler

/-- If a result is an error, it is a complaint about the code. -/
def Reports {α : Type} (result : Except Error α) : Prop :=
  ∀ e, result = .error e → ∃ pos fault, e = .malformedCode pos fault

namespace Reports

variable {α β : Type}

theorem ok (a : α) : Reports (.ok a) := by simp [Reports]

theorem fault (pos : Nat) (fault : CodeFault) : Reports (.error (.malformedCode pos fault) : Except Error α) := by
  intro e he
  cases he
  exact ⟨pos, fault, rfl⟩

theorem isPlain {result : Except Error α} (h : Reports result) : ∀ e, result = .error e → e.IsPlain := by
  intro e he
  obtain ⟨pos, fault, rfl⟩ := h e he
  rfl

theorem bind {x : Except Error α} {f : α → Except Error β} (hx : Reports x) (hf : ∀ a, Reports (f a)) : Reports (x >>= f) := by
  intro e he
  cases x with
  | error e' =>
    cases he
    exact hx e rfl
  | ok a => exact hf a e he

theorem ite {c : Prop} [Decidable c] {x y : Except Error α} (hx : Reports x) (hy : Reports y) :
    Reports (if c then x else y) := by
  split
  · exact hx
  · exact hy

theorem mapM {f : α → Except Error β} (h : ∀ a, Reports (f a)) (as : List α) : Reports (as.mapM f) := by
  induction as with
  | nil => exact ok _
  | cons a as ih =>
    rw [List.mapM_cons]
    exact bind (h a) fun _ => bind ih fun _ => ok _

end Reports

namespace Decoding

variable (pool : Pool) (code : Bytes) (pos : Nat)

theorem reports_require (length : Nat) : Reports (require code pos length) := .ite (.ok _) (.fault _ _)

theorem reports_u16 : Reports (u16 code pos) := .bind (reports_require _ _ _) fun _ => .ok _

theorem reports_i32 : Reports (i32 code pos) := .bind (reports_require _ _ _) fun _ => .ok _

theorem reports_target (offset : Int) : Reports (target code pos offset) := .ite (.fault _ _) (.ok _)

theorem reports_entry (index : Nat) : Reports (entry pool pos index) := by
  unfold entry
  split
  · exact .ok _
  · exact .fault _ _

theorem reports_cls (index : Nat) : Reports (cls pool pos index) := by
  refine .bind (reports_entry _ _ _) fun found => ?_
  split
  · exact .ok _
  · exact .fault _ _

theorem reports_loadable (index : Nat) : Reports (loadable pool pos index) := by
  refine .bind (reports_entry _ _ _) fun found => ?_
  split
  case h_9 => exact .fault _ _
  all_goals exact .ok _

theorem reports_member (op : Opcode) (index : Nat) : Reports (member pool pos op index) := by
  refine .bind (reports_entry _ _ _) fun found => ?_
  dsimp only
  split
  · exact .ite (.ok _) (.fault _ _)
  · exact .ite (.ok _) (.fault _ _)
  · exact .ite (.ok _) (.fault _ _)
  · exact .fault _ _

theorem reports_callSite (index : Nat) : Reports (callSite pool pos index) := by
  refine .bind (reports_entry _ _ _) fun found => ?_
  split
  · split
    · exact .ok _
    · exact .fault _ _
  · exact .fault _ _

theorem reports_tableSwitch : Reports (tableSwitch code pos) := by
  refine .bind (reports_i32 _ _) fun _ => .bind (reports_target _ _ _) fun _ => .bind (reports_i32 _ _) fun _ =>
    .bind (reports_i32 _ _) fun _ => .ite (.bind (.fault _ _) fun _ => ?_) ?_
  all_goals exact .bind (reports_require _ _ _) fun _ => .bind (.mapM (fun _ => reports_target _ _ _) _) fun _ => .ok _

theorem reports_lookupSwitch : Reports (lookupSwitch code pos) := by
  have hpairs : ∀ start count, Reports (pairs code pos start count) := fun _ _ =>
    .mapM (fun _ => .bind (reports_target _ _ _) fun _ => .ok _) _
  refine .bind (reports_i32 _ _) fun _ => .bind (reports_target _ _ _) fun _ => .bind (reports_i32 _ _) fun _ =>
    .ite (.bind (.fault _ _) fun _ => ?_) ?_
  all_goals exact .bind (reports_require _ _ _) fun _ => .bind (hpairs _ _) fun _ => .ok _

theorem reports_wideForm : Reports (wideForm code pos) :=
  .bind (reports_require _ _ _) fun _ => .ite (.bind (reports_require _ _ _) fun _ => .ok _) (.ite (.ok _) (.fault _ _))

theorem reports_instruction : Reports (instruction pool code pos) := by
  have hneed : ∀ {α : Type} (length : Nat) {x : Except Error α}, Reports x → Reports (do
      require code pos length
      x) := fun length _ h => .bind (reports_require code pos length) fun _ => h
  unfold instruction
  dsimp only
  split
  · exact .ok _
  · exact .ok _
  · exact hneed _ (.ok _)
  · exact hneed _ (.ok _)
  · exact hneed _ (.ok _)
  · exact hneed _ (.bind (reports_loadable _ _ _) fun _ => .ok _)
  · exact .bind (reports_u16 _ _) fun _ => .bind (reports_loadable _ _ _) fun _ => .ok _
  · exact .bind (reports_u16 _ _) fun _ => .bind (reports_member _ _ _ _) fun _ => .ok _
  · exact hneed _ (.bind (reports_member _ _ _ _) fun _ => .ok _)
  · exact hneed _ (.bind (reports_callSite _ _ _) fun _ => .ok _)
  · exact .bind (reports_u16 _ _) fun _ => .bind (reports_cls _ _ _) fun _ => .ok _
  · exact hneed _ (.ok _)
  · exact hneed _ (.bind (reports_target _ _ _) fun _ => .ok _)
  · exact .bind (reports_i32 _ _) fun _ => .bind (reports_target _ _ _) fun _ => .ok _
  · exact reports_tableSwitch _ _
  · exact reports_lookupSwitch _ _
  · exact reports_wideForm _ _
  · exact hneed _ (.bind (reports_cls _ _ _) fun _ => .ok _)
  · exact .fault _ _
  · exact .fault _ _

theorem reports_decodeFrom (fuel : Nat) (done : Array (Nat × Instruction Nat)) :
    Reports (decodeFrom pool code fuel pos done) := by
  induction fuel generalizing pos done with
  | zero => exact .ok _
  | succ fuel ih => exact .ite (.bind (reports_instruction _ _ _) fun _ => ih _ _) (.ok _)

/-- Decoding only complains about the code. -/
theorem reports_decode : Reports (decode pool code) := .bind (reports_decodeFrom _ _ _ _ _) fun _ => .ok _

end Decoding

namespace Widening

variable (code : Bytes) (pos : Nat)

theorem reports_need (length : Nat) : Reports (need code pos length) := .ite (.ok _) (.fault _ _)

theorem reports_fixedLength (shape : Shape) : Reports (fixedLength code pos shape) := by
  cases shape with
  | wide => exact .bind (reports_need _ _ _) fun _ => .ok _
  | jump | wideJump | tableSwitch | lookupSwitch | oversizedJump | invalid => exact .fault _ _
  | _ => exact .ok _

theorem reports_switchWords (op : Opcode) : Reports (switchWords code pos op) := by
  have hend : ∀ (length : Nat) (words : List SwitchWord), Reports (do
      need code (switchOperands pos) length
      return words) := fun _ _ => .bind (reports_need _ _ _) fun _ => .ok _
  refine .bind (reports_need _ _ _) fun _ => .ite ?_ ?_
  · exact .ite (.bind (.fault _ _) fun _ => hend _ _) (hend _ _)
  · exact .ite (.bind (.fault _ _) fun _ => hend _ _) (hend _ _)

theorem reports_pieceAt : Reports (pieceAt code pos) := by
  unfold pieceAt
  dsimp only
  split
  · exact .bind (reports_need _ _ _) fun _ => .ite (.bind (.fault _ _) fun _ => .ok _) (.ok _)
  · exact .bind (reports_need _ _ _) fun _ => .ok _
  · exact .bind (reports_need _ _ _) fun _ => .ok _
  · exact .bind (reports_switchWords _ _ _) fun _ => .ok _
  · exact .bind (reports_switchWords _ _ _) fun _ => .ok _
  · exact .bind (reports_fixedLength _ _ _) fun _ => .bind (reports_need _ _ _) fun _ => .ok _

theorem reports_scanFrom (fuel : Nat) (pieces : Array Piece) : Reports (scanFrom code fuel pos pieces) := by
  induction fuel generalizing pos pieces with
  | zero => exact .ok _
  | succ fuel ih => exact .ite (.bind (reports_pieceAt _ _) fun _ => ih _ _) (.ok _)

theorem reports_mappedWords (layout : Layout) (words : List SwitchWord) : Reports (mappedWords layout pos words code) := by
  induction words generalizing code with
  | nil => exact .ok _
  | cons word words ih =>
    cases word with
    | number value => exact ih _
    | offset value => exact .bind (.ite (.fault _ _) (.ok _)) fun _ => ih _

theorem reports_writePieces (old : Bytes) (layout : Layout) (pieces : List Piece) :
    Reports (writePieces old layout pieces code) := by
  induction pieces generalizing code with
  | nil => exact .ok _
  | cons piece pieces ih =>
    refine .bind ?_ fun _ => ih _
    unfold writePiece
    split
    · exact .ok _
    · exact .ok _
    · exact .bind (.ite (.fault _ _) (.ok _)) fun _ => .ok _
    · exact reports_mappedWords _ _ _ _

theorem reports_scan : Reports (scan code) := .bind (reports_scanFrom _ _ _ _) fun _ => .ok _

/-- Widening only complains about the code. -/
theorem reports_widen : Reports (widen code) :=
  .bind (reports_scan _) fun _ => .bind (reports_writePieces _ _ _ _) fun _ => .ok _

end Widening

end JvmAssembler
