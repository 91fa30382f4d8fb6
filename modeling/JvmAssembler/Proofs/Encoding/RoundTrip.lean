import JvmAssembler.Proofs.Bookkeeping
import JvmAssembler.Proofs.Encoding.Reading

/-!
# JvmAssembler.Proofs.Encoding.RoundTrip

Decoding gives back the instructions that were written.

The code of a method is at all times the lines that it has accepted, with the offsets of labels as far as these are placed.
Once the body is closed, no label is wanted any more, and the code can be read back unless some jump was marked.
-/

namespace JvmAssembler

namespace Encoding

open MethodWriter Bytes Typesetting

def placedLines : Nat → List Line → List (Nat × Instruction Label)
  | _, [] => []
  | pos, line :: lines => (pos, line.instruction) :: placedLines (pos + size line.chunks) lines

theorem placedLines_append (pos : Nat) (lines lines' : List Line) :
    placedLines pos (lines ++ lines') =
      placedLines pos lines ++ placedLines (pos + size (chunksOf lines)) lines' := by
  induction lines generalizing pos with
  | nil => rfl
  | cons line lines ih => simp [placedLines, ih, Nat.add_assoc]

variable {lines : List Line} {initial : MethodWriter} {place : Label → Option Nat} {pool : Pool} {pos : Nat}

/-- What an event emits is what it adds as lines. -/
theorem placedLines_of_event {event : MethodEvent Label} (h : lines.map (·.instruction) = event.instructions) (pos : Nat) :
    placedLines pos lines = emitted pos event := by
  cases event with
  | instruction i =>
    obtain ⟨line, rfl, rfl⟩ := List.map_eq_singleton_iff.1 h
    rfl
  | _ =>
    obtain rfl := List.map_eq_nil_iff.1 h
    rfl

variable {log : List (Nat × Instruction Label)} {w w' : MethodWriter}

/-- **All events of the body** add lines for the instructions among them. -/
theorem logged_of_accepts (h : Accepts initial log w) (hinitial : Logged initial []) :
    Pool.Enlarges initial.pool w.pool ∧ ∃ lines, placedLines 0 lines = log ∧ Logged w lines := by
  induction h with
  | start => exact ⟨Std.Refl.refl _, [], rfl, hinitial⟩
  | newLabel _ ih =>
    obtain ⟨hpool, lines, rfl, hlogged⟩ := ih
    exact ⟨hpool, lines, rfl, hlogged.newLabel rfl⟩
  | send _ hev hsend ih =>
    obtain ⟨hpool, lines, rfl, hlogged⟩ := ih
    obtain ⟨hmore, new, hnew, hlogged'⟩ := hlogged.send hev hsend
    refine ⟨Trans.trans hpool hmore, lines ++ new, ?_, hlogged'⟩
    rw [placedLines_append, placedLines_of_event hnew, hlogged.size_eq, Nat.zero_add]

theorem step_of_accepts (h : Accepts initial log w) : Step initial w := by
  induction h with
  | start => exact .refl _
  | newLabel _ ih => exact tame_newLabel.keeps.ok ih rfl
  | send _ hev hsend ih =>
    refine (steps_dispatch finish _ ?_).ok ih hsend
    rintro rfl
    cases hev

/-- Lines are read back one after the other. -/
theorem reads_lines {code : Bytes} (hpool : pool.Sound) (hsize : code.size < 2147483648) (h : Listed place pool pos lines)
    (hfinal : Final place code (chunksOf lines)) (hhold : code.HoldsAt pos (render place (chunksOf lines))) :
    Reads pool code pos
      ((placedLines pos lines).flatMap fun entry => decoded (positionIn place) entry.1 entry.2)
      (pos + size (chunksOf lines)) := by
  induction lines generalizing pos with
  | nil => exact .nil pos
  | cons line lines ih =>
    obtain ⟨hline, hlines⟩ := h
    rw [chunksOf_cons] at hfinal hhold ⊢
    rw [render_append] at hhold
    obtain ⟨hfst, hrest⟩ := holdsAt_append.1 hhold
    rw [length_render] at hrest
    have hread := reads_line hpool hsize hline ⟨fun c hc => hfinal.placed c (List.mem_append_left _ hc),
      fun op l src p hc => hfinal.fits op l src p (List.mem_append_left _ hc)⟩ hfst
    have hreads := ih hlines ⟨fun c hc => hfinal.placed c (List.mem_append_right _ hc),
      fun op l src p hc => hfinal.fits op l src p (List.mem_append_right _ hc)⟩ hrest
    rw [size_append, ← Nat.add_assoc, placedLines, List.flatMap_cons]
    exact hread.append hreads

/-- A short chunk belongs to a short jump of some line. -/
theorem jump_of_short (h : Listed place pool pos lines) {op : Opcode} {l : Label} {src : Nat}
    (hmem : .short op l src ∈ chunksOf lines) :
    op.isShortJump = true ∧ (src, .jump op l) ∈ placedLines pos lines := by
  induction lines generalizing pos with
  | nil => cases hmem
  | cons line lines ih =>
    obtain ⟨hline, hlines⟩ := h
    rw [chunksOf_cons] at hmem
    rcases List.mem_append.1 hmem with hfst | hrest
    · obtain ⟨i, bs, chunks⟩ := line
      obtain ⟨hop, rfl, rfl⟩ := hline.form.of_short hfst
      exact ⟨hop, List.mem_cons_self⟩
    · obtain ⟨hop, hjump⟩ := ih hlines hrest
      exact ⟨hop, List.mem_cons_of_mem _ hjump⟩

/-- **Decoding undoes writing.** If nothing is computed and no label was placed too far behind a short jump to it, the
code of a body that was closed decodes to the instructions that were accepted, each at the position at which it was
emitted, with every label at its final position. -/
theorem decode_accepted {context : ClassContext} {d : Declaration} {descriptor : MethodDescriptor} {pool : Pool}
    {methods : Array (Member .ofMethod)} {stack locals : UInt16} (hpool : pool.Sound)
    (haccepts : Accepts (start context .asGiven d descriptor pool methods) log w)
    (hmaxs : send (.maxs stack locals) w = .ok () w') (hsize : w'.code.size < 2147483648)
    (hfits : ∀ position op label, (position, .jump op label) ∈ log → op.isShortJump = true →
      (w'.labels.position label : Int) - position ≤ 32767) :
    Decoding.decode w'.pool w'.code =
      .ok (log.flatMap fun entry => decoded w'.labels.position entry.1 entry.2) := by
  obtain ⟨hmore, lines, rfl, hlogged⟩ :=
    logged_of_accepts haccepts (logged_start context .asGiven d descriptor pool methods)
  obtain ⟨-, hwaiting, -, v, hsettle, rfl⟩ := maxs_ok hmaxs
  rw [show w.compute = .asGiven from (step_of_accepts haccepts).compute] at hsettle
  obtain rfl := Success.run_modify_ok.1 hsettle
  have hfinal : Final w.labels.position? w.code (chunksOf lines) := by
    refine ⟨fun c hc l hl => ?_, fun op l source p hc hp => ?_⟩
    · cases hp : w.labels.position? l with
      | some p => exact ⟨p, rfl, hlogged.typeset.behind l p hp⟩
      | none =>
        have hsites := hlogged.typeset.waiting l hp
        rw [hwaiting l] at hsites
        exact absurd hsites.symm (sites_ne_nil hc hl 0)
    · obtain ⟨hop, hjump⟩ := jump_of_short hlogged.listed hc
      have hfit := hfits source op l hjump hop
      rwa [LabelTable.position, hp, Option.getD_some] at hfit
  have hholds : w.code.HoldsAt 0 (render w.labels.position? (chunksOf lines)) := by
    rw [← hlogged.typeset.code]
    exact List.prefix_refl _
  have hreads := reads_lines (hmore.evolves hpool).1 hsize hlogged.listed hfinal hholds
  rw [Nat.zero_add, ← hlogged.size_eq] at hreads
  exact hreads.decode

/-- A method that nothing is computed of. -/
def declared : MethodWriter :=
  start ⟨.javaLang, "A", ⟨52, 0⟩⟩ .asGiven ⟨⟨9⟩, "m", "()V", none, []⟩ ⟨[], none⟩ .empty #[]

/-- The same with two labels. -/
def labelled : MethodWriter := stateAfter (newLabel (stateAfter (newLabel declared)))

/-- A loop with a jump forward, a jump back and a switch in it. -/
def loop : List (MethodEvent Label) :=
  [.code, .label 0, .instruction (.iinc 300 (-1)), .instruction (.jump Opcode.ifeq 1), .instruction (.ldc (.int 5)),
    .instruction (.method Opcode.invokeinterface ⟨"I", "m", "(I)V"⟩ false), .instruction (.tableSwitch 0 1 1 [0, 1]),
    .label 1, .instruction (.jump Opcode.goto 0), .instruction (.plain Opcode.voidReturn)]

/-- It is read back from its code. -/
theorem decode_accepted_loop : ∃ w', labelled.isAccepted loop = true ∧
    send (.maxs 1 1) (labelled.afterEvents loop) = .ok () w' ∧
    Decoding.decode w'.pool w'.code =
      .ok [(0, .iinc 300 (-1)), (6, .jump Opcode.ifeq 40), (9, .ldc (.int 5)),
        (11, .method Opcode.invokeinterface ⟨"I", "m", "(I)V"⟩ true), (16, .tableSwitch 0 1 40 [0, 40]),
        (40, .jump Opcode.goto 0), (43, .plain Opcode.voidReturn)] := by
  have haccepted : labelled.isAccepted loop = true := by decide +kernel
  have hclosed : succeedsIn (fun w => w.code.size == 44 && w.labels.position 0 == 0 && w.labels.position 1 == 40)
      (send (.maxs 1 1) (labelled.afterEvents loop)) = true := by decide +kernel
  obtain ⟨u, w', hsend, hfound⟩ := exists_of_succeedsIn hclosed
  simp only [Bool.and_eq_true, beq_iff_eq] at hfound
  obtain ⟨⟨hsize, hfirst⟩, hsecond⟩ := hfound
  have hlog : labelled.logOf loop = [(0, .iinc 300 (-1)), (6, .jump Opcode.ifeq 1), (9, .ldc (.int 5)),
      (11, .method Opcode.invokeinterface ⟨"I", "m", "(I)V"⟩ false), (16, .tableSwitch 0 1 1 [0, 1]),
      (40, .jump Opcode.goto 0), (43, .plain Opcode.voidReturn)] := by decide +kernel
  have haccepts : Accepts declared (labelled.logOf loop) (labelled.afterEvents loop) :=
    Accepts.events (.newLabel (.newLabel .start)) haccepted
  rw [hlog] at haccepts
  have hdecode := decode_accepted Pool.sound_empty haccepts hsend (by omega) fun position op label hmem _ => ?_
  · refine ⟨w', haccepted, hsend, hdecode.trans ?_⟩
    simp [decoded, Instruction.map, hfirst, hsecond]
  · have hjump : position = 6 ∧ op = Opcode.ifeq ∧ label = 1 ∨ position = 40 ∧ op = Opcode.goto ∧ label = 0 := by
      simpa using hmem
    rcases hjump with ⟨rfl, -, rfl⟩ | ⟨rfl, -, rfl⟩
    · rw [hsecond]
      decide
    · rw [hfirst]
      decide

end Encoding

end JvmAssembler
