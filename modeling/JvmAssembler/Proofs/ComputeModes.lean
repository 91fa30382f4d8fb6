import JvmAssembler.Proofs.Framing.Sizes
import JvmAssembler.Proofs.Locals

/-!
# JvmAssembler.Proofs.ComputeModes

The sizes of a method, whichever way they are computed.

Where only sizes are computed, a label that is placed in a protected range leads to the handler even if no instruction of
the range follows it. Apart from that, the stack size is the largest height of the control flow graph. Where frames are
computed it always is, but for dead code, which is replaced by code that needs one slot.
-/

namespace JvmAssembler

namespace Script

variable (script : Script)

/-! ### Tables of heights -/

def handlers : List (Handler Nat) :=
  script.filterMap fun act =>
    match act with
    | .event (.tryCatch h) => some h
    | _ => none

/-- The points at which a label is placed. -/
def placements (n : Nat) : List Nat := (List.range script.length).filter fun k => script[k]? = some (.event (.label n))

/-- Where control can go from a point, with the heights there. -/
def successors (k : Nat) (height : Int) : List (Nat × Int) :=
  match script.instruction? k with
  | none => [(k + 1, height)]
  | some i =>
    (if i.fallsThrough then [(k + 1, height + i.delta)] else []) ++
      (i.places.flatMap script.placements).map (fun target => (target + 1, height + i.delta)) ++
      script.handlers.flatMap fun h => (script.placements h.start).flatMap fun start =>
        (script.placements h.stop).flatMap fun stop =>
          if start < k ∧ k < stop then (script.placements h.handler).map fun handler => (handler + 1, 1) else []

variable {script}

theorem mem_handlers {h : Handler Nat} : h ∈ script.handlers ↔ .event (.tryCatch h) ∈ script := by
  unfold handlers
  rw [List.mem_filterMap]
  constructor
  · rintro ⟨act, hact, hh⟩
    split at hh
    · cases hh
      exact hact
    · cases hh
  · intro hmem
    exact ⟨_, hmem, rfl⟩

theorem mem_placements {n k : Nat} : k ∈ script.placements n ↔ script.Places k n := by
  unfold placements Places
  rw [List.mem_filter, List.mem_range, decide_eq_true_eq]
  exact ⟨And.right, fun hk => ⟨(List.getElem?_eq_some_iff.1 hk).1, hk⟩⟩

theorem mem_successors {k k' : Nat} {height height' : Int} (h : script.Flow k height k' height') :
    (k', height') ∈ script.successors k height := by
  cases h with
  | pass hk hnone => simp [successors, hnone]
  | fall hi hfalls => simp [successors, hi, hfalls]
  | jump hi hcall hn htgt =>
    simp only [successors, hi, List.mem_append]
    refine .inl (.inr (List.mem_map.2 ⟨_, List.mem_flatMap.2 ⟨_, hn, mem_placements.2 htgt⟩, rfl⟩))
  | caught hi hhdl hst hstop =>
    simp only [successors, hi, List.mem_append]
    refine .inr (List.mem_flatMap.2 ⟨_, mem_handlers.2 hhdl.mem, List.mem_flatMap.2
      ⟨_, mem_placements.2 hhdl.start, List.mem_flatMap.2 ⟨_, mem_placements.2 hhdl.stop, ?_⟩⟩⟩)
    rw [if_pos ⟨hst, hstop⟩]
    exact List.mem_map.2 ⟨_, mem_placements.2 hhdl.handler, rfl⟩

/-! ### Regular methods -/

variable (script) in
/-- What is asked of a method: it has no subroutines and no frames from the caller, protected ranges start before they end,
and all paths agree on heights, which never get negative. -/
structure Regular : Prop where
  plain : script.HasNoSubroutines
  unframed : script.HasNoFrames
  ordered : script.HandlersOrdered
  agree : script.HeightsAgree
  never : script.NeverUnderflows

def heightAt (table : List (Option Int)) (k : Nat) : Option Int := (table[k]?).getD none

variable (script) in
/-- Whether a method is regular, given the heights of its points. -/
def isRegular (table : List (Option Int)) : Bool :=
  script.instructions.all (fun i => !i.isCall && !i.isReturn) &&
    script.all (fun act => !(act matches .event (.frame _))) &&
    script.handlers.all (fun h => (script.placements h.start).all fun start =>
      (script.placements h.stop).all fun stop => decide (start < stop)) &&
    (List.range (script.length + 1)).all fun k =>
      (script[k]? != some (.event .code) || heightAt table (k + 1) == some 0) &&
        (heightAt table k).all fun height =>
          ((script.instruction? k).all fun i => decide ((i.use.1 : Int) ≤ height)) &&
            (decide (k = script.length) ||
              (script.successors k height).all fun next => heightAt table next.1 == some next.2)

/-- Control gets to points with the heights of a table that is right. -/
theorem heightAt_of_reaches {table : List (Option Int)} (h : script.isRegular table = true) {k : Nat} {height : Int}
    (hreaches : script.Reaches k height) : heightAt table k = some height := by
  simp only [isRegular, Bool.and_eq_true, List.all_eq_true, List.mem_range] at h
  obtain ⟨-, hpoints⟩ := h
  have hlt : ∀ {k : Nat} {act : Act}, script[k]? = some act → k < script.length := fun hk =>
    (List.getElem?_eq_some_iff.1 hk).1
  induction hreaches with
  | @entry k hcode =>
    have hent := (hpoints k (by have := hlt hcode; omega)).1
    simpa [hcode] using hent
  | @flow k k' height height' _ hflow ih =>
    have hk : k < script.length := by
      cases hflow with
      | pass hk _ => exact hlt hk
      | fall hi _ => exact hlt (getElem?_of_instruction hi)
      | jump hi _ _ _ => exact hlt (getElem?_of_instruction hi)
      | caught hi _ _ _ => exact hlt (getElem?_of_instruction hi)
    have hnext := (hpoints k (by omega)).2
    rw [ih, Option.all_some, Bool.and_eq_true, Bool.or_eq_true, List.all_eq_true] at hnext
    have hfnd := hnext.2.resolve_left (by simp; omega) _ (mem_successors hflow)
    simpa using hfnd

/-- **A method that passes the check is regular.** -/
theorem regular_of_table {table : List (Option Int)} (h : script.isRegular table = true) : script.Regular := by
  have hht : ∀ {k height}, script.Reaches k height → heightAt table k = some height := heightAt_of_reaches h
  simp only [isRegular, Bool.and_eq_true, List.all_eq_true, List.mem_range] at h
  obtain ⟨⟨⟨hpln, hunframed⟩, hordered⟩, hpoints⟩ := h
  refine ⟨fun k i hi => ?_, fun shape hmem => ?_, fun h start stop handler hhdl => ?_, fun k height height' hk hk' => ?_,
    fun k height i hreaches hi => ?_⟩
  · simpa using hpln i (mem_instructions hi)
  · simpa using hunframed _ hmem
  · simpa using hordered h (mem_handlers.2 hhdl.mem) start (mem_placements.2 hhdl.start) stop
      (mem_placements.2 hhdl.stop)
  · exact Option.some.inj ((hht hk).symm.trans (hht hk'))
  · have hpoint := (hpoints k (Nat.lt_succ_of_le hreaches.le_length)).2
    rw [hht hreaches, hi] at hpoint
    simp only [Option.all_some, Bool.and_eq_true, decide_eq_true_eq] at hpoint
    exact hpoint.1

end Script

/-! ### Sizes -/

open MethodWriter

section
variable {context : ClassContext} {d : Declaration} {descriptor : MethodDescriptor} {pool : Pool}
  {methods : Array (Member .ofMethod)} {script : Script} {s : Session} {w : MethodWriter} {stack locals : UInt16}

/-- **Sizes do not depend on what is computed.** Of a regular method, the stack size is the largest height of the control
flow graph. Where only sizes are computed, this takes an instruction behind each label of a protected range. Where frames
are computed, dead code needs one slot. -/
theorem sizes_of_modes (hsized : (start context .maxs d descriptor pool methods).Performs script s)
    (hclosed : send (.maxs stack locals) s.writer = .ok () w) (hregular : script.Regular) :
    (script.HandlersProtect → script.IsLargestHeight w.maxStack) ∧
    ∀ (s' : Session) (w' : MethodWriter) (stack' locals' : UInt16),
      (start context .frames d descriptor pool methods).Performs script s' →
      send (.maxs stack' locals') s'.writer = .ok () w' →
      (∃ n, script.IsLargestHeight n ∧ (script.HasDeadCode → w'.maxStack = max n 1) ∧
        (¬ script.HasDeadCode → w'.maxStack = n)) ∧ w'.maxLocals = w.maxLocals := by
  obtain ⟨hplain, hunframed, hordered, hagree, hnever⟩ := hregular
  refine ⟨fun hprotect => Sizing.isLargestHeight_of_maxs hsized hclosed hplain hordered hprotect hagree, ?_⟩
  intro s' w' stack' locals' hframed hclosed'
  -- what the script says of labels and handlers does not depend on what is computed
  obtain ⟨hcharts, hsound, hblocks, -⟩ := Sizing.charts_of_maxs hsized hclosed
  have hopen : (Sizing.viewAt script script.length).stage = .open := by
    obtain ⟨-, -, hsketch⟩ := Sizing.performs_sketch hsized
    rw [Sizing.viewAt, hsketch]
    exact (Typesetting.maxs_ok hclosed).1
  obtain ⟨code, hcode⟩ := hcharts.drawn.code_of_open hopen
  obtain ⟨entry, hentry, -, -⟩ := hcharts.entry hcode
  obtain ⟨-, hlocals, -⟩ := Sizing.maxStack_of_maxs hsound (by simpa [hblocks] using hentry) hclosed
  obtain ⟨hstack, hlocals'⟩ := Framing.maxStack_of_frames hframed hclosed' hplain hordered hagree hnever hcharts.placed
    hcharts.handled hcode
  have hneeds := (maxLocals_of_performs (by simp) hunframed hsized).2
  have hneeds' := (maxLocals_of_performs (by simp) hunframed hframed).2
  exact ⟨hstack, by rw [hlocals', hneeds', hlocals, hneeds]⟩

end

/-- A method that divides by zero, stores the result and catches the exception. Between the two there is dead code. -/
def Script.divides : Script :=
  [.event .code, .newLabel, .newLabel, .newLabel, .event (.tryCatch ⟨0, 1, 2, none⟩), .event (.label 0),
    -- `iconst_1`, `iconst_0`, `idiv`, `istore 0` and `return` in the range
    .event (.instruction (.plain 4)), .event (.instruction (.plain 3)), .event (.instruction (.plain 108)),
    .event (.instruction (.var 54 0)), .event (.instruction (.plain 177)),
    .event (.label 1), .event (.instruction (.plain 0)), .event (.instruction (.plain 177)),
    .event (.label 2), .event (.instruction (.plain 87)), .event (.instruction (.plain 177))]

def Script.dividesHeights : List (Option Int) :=
  [none, some 0, some 0, some 0, some 0, some 0, some 0, some 1, some 2, some 1, some 0, none, none, none, none, some 1,
    some 0, none]

set_option maxRecDepth 4000 in
theorem Script.isRegular_divides : divides.isRegular dividesHeights = true := by decide

theorem Script.protect_divides : divides.HandlersProtect := by
  have hhans : divides.handlers = [⟨0, 1, 2, none⟩] ∧ divides.placements 0 = [5] ∧ divides.placements 1 = [11] := by
    decide
  obtain ⟨hone, hfst, hsec⟩ := hhans
  intro h start stop handler hhdl k n height hk hst hstop _
  have hmem := mem_handlers.2 hhdl.mem
  rw [hone, List.mem_singleton] at hmem
  subst hmem
  have hst' := mem_placements.2 hhdl.start
  have hstop' := mem_placements.2 hhdl.stop
  rw [hfst, List.mem_singleton] at hst'
  rw [hsec, List.mem_singleton] at hstop'
  subst hst' hstop'
  -- the only label of the range is the first
  have hlabs : ∀ k < 11, 6 ≤ k → ∀ n, ¬ divides.Places k n := by
    intro k hlt hle n hpls
    have hinst : (divides.instruction? k).isSome = true := by
      have hall : ∀ k < 11, 6 ≤ k → (divides.instruction? k).isSome = true := by decide
      exact hall k hlt hle
    simp [instruction?, show divides[k]? = _ from hpls] at hinst
  obtain rfl : k = 5 := by
    refine Nat.le_antisymm (Nat.le_of_not_lt fun hlt => ?_) hst
    exact hlabs k hstop hlt n hk
  exact ⟨6, by omega, by omega, by decide⟩

/-- Both ways of computing give it two slots and one local. -/
theorem sizes_of_modes_divides :
    ∃ s w s' w', (start ⟨.javaLang, "A", ⟨52, 0⟩⟩ .maxs ⟨⟨9⟩, "m", "()V", none, []⟩ ⟨[], none⟩ .empty #[]).Performs
        Script.divides s ∧ send (.maxs 0 0) s.writer = .ok () w ∧
      (start ⟨.javaLang, "A", ⟨52, 0⟩⟩ .frames ⟨⟨9⟩, "m", "()V", none, []⟩ ⟨[], none⟩ .empty #[]).Performs
        Script.divides s' ∧ send (.maxs 0 0) s'.writer = .ok () w' ∧
      Script.divides.Regular ∧ Script.divides.HandlersProtect ∧ Script.divides.HasDeadCode ∧
      Script.divides.IsLargestHeight w.maxStack ∧ w.maxStack = 2 ∧ w'.maxStack = 2 ∧ w'.maxLocals = w.maxLocals ∧
      w.maxLocals = 1 := by
  have hsized : (Session.run ⟨#[], start ⟨.javaLang, "A", ⟨52, 0⟩⟩ .maxs ⟨⟨9⟩, "m", "()V", none, []⟩ ⟨[], none⟩ .empty #[]⟩
      Script.divides).any (fun s => succeedsIn (fun w => w.maxStack == 2 && w.maxLocals == 1) (send (.maxs 0 0) s.writer)) =
        true := by decide +kernel
  have hframed : (Session.run ⟨#[], start ⟨.javaLang, "A", ⟨52, 0⟩⟩ .frames ⟨⟨9⟩, "m", "()V", none, []⟩ ⟨[], none⟩ .empty #[]⟩
      Script.divides).any (fun s => succeedsIn (fun w => w.maxStack == 2) (send (.maxs 0 0) s.writer)) = true := by
    decide +kernel
  obtain ⟨s, hs, hsend⟩ := (Option.any_eq_true _ _).1 hsized
  obtain ⟨s', hs', hsend'⟩ := (Option.any_eq_true _ _).1 hframed
  obtain ⟨_, w, hw, hsizes⟩ := exists_of_succeedsIn hsend
  obtain ⟨_, w', hw', hsize'⟩ := exists_of_succeedsIn hsend'
  simp only [Bool.and_eq_true, beq_iff_eq] at hsizes hsize'
  have hregular := Script.regular_of_table Script.isRegular_divides
  have hdead : Script.divides.HasDeadCode := by
    refine ⟨12, .plain 0, by decide +kernel, fun height hreaches => ?_⟩
    have hheight := Script.heightAt_of_reaches Script.isRegular_divides hreaches
    cases (show (none : Option Int) = some height from hheight)
  obtain ⟨hlargest, hmodes⟩ := sizes_of_modes hs hw hregular
  obtain ⟨-, hlocals⟩ := hmodes s' w' 0 0 hs' hw'
  exact ⟨s, w, s', w', hs, hw, hs', hw', hregular, Script.protect_divides, hdead, hlargest Script.protect_divides, hsizes.1,
    hsize', hlocals, hsizes.2⟩

end JvmAssembler
