import JvmAssembler.Proofs.Sizing.Division

/-!
# JvmAssembler.Proofs.Sizing.Points

The points of a script and the blocks that they are in.

`Script.sketch` is what sizing sees at a point. Two things are true of the points of a block: they follow each other
without a gap, from the event that starts the block on, and control goes from one to the next. Edges, peaks and returns of
a block are then those of its points.
-/

namespace JvmAssembler

namespace Sizing

/-- What sizing sees of a session. -/
structure Sketch where
  made : Array Label := #[]
  view : View := {}

namespace Sketch

def label (s : Sketch) (n : Nat) : Label := s.made.getD n 0

def perform (s : Sketch) : Act → Sketch
  | .newLabel => ⟨s.made.push s.view.fresh, { s.view with fresh := s.view.fresh + 1 }⟩
  | .event e => ⟨s.made, s.view.event (e.map s.label)⟩

/-- What has to hold for an act to be performed. -/
def Allows (s : Sketch) : Act → Prop
  | .newLabel => True
  | .event e => (∀ n ∈ e.places, n < s.made.size) ∧ s.view.Allows (e.map s.label)

end Sketch

/-- What sizing sees at a point. -/
def sketch (sc : Script) (k : Nat) : Sketch := (sc.take k).foldl Sketch.perform {}

/-- Every act of a script is allowed where it comes. -/
def Drawn (sc : Script) : Prop := ∀ k act, sc[k]? = some act → (sketch sc k).Allows act

variable {sc : Script}

variable {k j : Nat} {b : Label} {height height' : Int}

theorem sketch_succ {act : Act} (h : sc[k]? = some act) :
    sketch sc (k + 1) = (sketch sc k).perform act := by
  rw [sketch, sketch, List.take_add_one, h, Option.toList_some, List.foldl_append]
  rfl

theorem sketch_of_length_le (h : sc.length ≤ k) : sketch sc k = sketch sc sc.length := by
  rw [sketch, sketch, List.take_of_length_le h, List.take_length]

/-- What holds between acts. -/
structure Sketch.Tidy (s : Sketch) : Prop where
  view : s.view.Tidy
  made : ∀ n < s.made.size, s.label n < s.view.fresh
  increasing : ∀ n m, n < m → m < s.made.size → s.label n < s.label m

theorem Sketch.label_push (s : Sketch) (l : Label) (v : View) {n : Nat} (hn : n < s.made.size) :
    Sketch.label ⟨s.made.push l, v⟩ n = s.label n := by
  simp [label, Array.getElem?_push_lt hn, hn]

theorem Sketch.Tidy.perform {s : Sketch} (hs : s.Tidy) {act : Act} (hact : s.Allows act) : (s.perform act).Tidy := by
  cases act with
  | newLabel =>
    obtain ⟨hview, hmade, hinc⟩ := hs
    have hlast : Sketch.label ⟨s.made.push s.view.fresh, { s.view with fresh := s.view.fresh + 1 }⟩ s.made.size =
        s.view.fresh := by
      simp [label]
    have hview' : View.Tidy { s.view with fresh := s.view.fresh + 1 } :=
      ⟨hview.peak, hview.declared, hview.placed, fun b hb => Nat.lt_succ_of_lt (hview.blocks b hb), hview.nodup,
        hview.entered, hview.untouched⟩
    refine ⟨hview', fun n hn => ?_, fun n m hnm hm => ?_⟩
    · rcases Nat.lt_succ_iff_lt_or_eq.1 (by simpa [Sketch.perform] using hn : n < s.made.size + 1) with hlt | rfl
      · rw [Sketch.perform, label_push s _ _ hlt]
        exact Nat.lt_succ_of_lt (hmade n hlt)
      · rw [Sketch.perform, hlast]
        exact Nat.lt_succ_self _
    · rcases Nat.lt_succ_iff_lt_or_eq.1 (by simpa [Sketch.perform] using hm : m < s.made.size + 1) with hlt | rfl
      · rw [Sketch.perform, label_push s _ _ hlt, label_push s _ _ (by omega)]
        exact hinc n m hnm hlt
      · rw [Sketch.perform, hlast, label_push s _ _ hnm]
        exact hmade n hnm
  | event e =>
    obtain ⟨-, hallowed⟩ := hact
    exact ⟨hs.view.event hallowed,
      fun n hn => Nat.lt_of_lt_of_le (hs.made n hn) (View.event_turns hs.view hallowed).fresh, hs.increasing⟩

theorem sketch_of_none (h : sc[k]? = none) : sketch sc (k + 1) = sketch sc k := by
  have hlen := List.getElem?_eq_none_iff.1 h
  rw [sketch_of_length_le hlen, sketch_of_length_le (Nat.le_succ_of_le hlen)]

theorem tidy_sketch (h : Drawn sc) (k : Nat) : (sketch sc k).Tidy := by
  induction k with
  | zero =>
    have hview : ({} : View).Tidy := ⟨nofun, fun _ => ⟨rfl, rfl⟩, by simp, by simp, by simp, nofun, fun _ _ => rfl⟩
    exact ⟨hview, nofun, nofun⟩
  | succ k ih =>
    cases hact : sc[k]? with
    | none => rwa [sketch_of_none hact]
    | some act =>
      rw [sketch_succ hact]
      exact ih.perform (h k act hact)

/-- Labels that have been made keep their numbers. -/
theorem label_sketch (hjk : j ≤ k) :
    (sketch sc j).made.size ≤ (sketch sc k).made.size ∧
    ∀ n < (sketch sc j).made.size, (sketch sc k).label n = (sketch sc j).label n := by
  induction hjk with
  | refl => exact ⟨Nat.le_refl _, fun _ _ => rfl⟩
  | step hle ih =>
    rename_i k
    cases hact : sc[k]? with
    | none => rwa [sketch_of_none hact]
    | some act =>
      rw [sketch_succ hact]
      cases act with
      | newLabel =>
        refine ⟨Nat.le_trans ih.1 (by simp [Sketch.perform]), fun n hn => ?_⟩
        rw [Sketch.perform, Sketch.label_push _ _ _ (Nat.lt_of_lt_of_le hn ih.1)]
        exact ih.2 n hn
      | event e => exact ih

/-! ### Events -/

def labelOf (sc : Script) (n : Nat) : Label := (sketch sc sc.length).label n

/-- What sizing sees at a point. -/
def viewAt (sc : Script) (k : Nat) : View := (sketch sc k).view

/-- The event at a point. That a label is made goes unnoticed, as does the end of the method. -/
def eventAt (sc : Script) (k : Nat) : MethodEvent Label :=
  match sc[k]? with
  | some (.event e) => e.map (labelOf sc)
  | _ => .finish

/-- What is noticed at a point is an event that was given. -/
theorem eventAt_given (h : eventAt sc k ≠ .finish) :
    ∃ e, sc[k]? = some (.event e) ∧ eventAt sc k = e.map (labelOf sc) := by
  unfold eventAt at h ⊢
  split at h
  next e he => exact ⟨e, he, rfl⟩
  next => exact absurd rfl h

theorem eventAt_instruction {i : Instruction Nat} (h : sc.instruction? k = some i) :
    eventAt sc k = .instruction (i.map (labelOf sc)) := by
  unfold Script.instruction? at h
  split at h
  next j hj =>
    cases h
    rw [eventAt, hj]
    rfl
  next => cases h

theorem eventAt_label {n : Nat} (h : sc.Places k n) : eventAt sc k = .label (labelOf sc n) := by
  rw [eventAt, h]
  rfl

theorem Drawn.performed (h : Drawn sc) {e : MethodEvent Nat} (hk : sc[k]? = some (.event e)) :
    (viewAt sc k).Allows (eventAt sc k) ∧ viewAt sc (k + 1) = (viewAt sc k).event (eventAt sc k) := by
  obtain ⟨hpls, hallowed⟩ := h k _ hk
  have hlen : k ≤ sc.length := by
    obtain ⟨hlt, -⟩ := List.getElem?_eq_some_iff.1 hk
    omega
  have hlabs : e.map (sketch sc k).label = eventAt sc k := by
    rw [eventAt, hk]
    exact MethodEvent.map_congr fun n hn => ((label_sketch hlen).2 n (hpls n hn)).symm
  refine ⟨hlabs ▸ hallowed, ?_⟩
  rw [viewAt, sketch_succ hk, Sketch.perform, hlabs]
  rfl

/-- **What happens at a point.** -/
theorem Drawn.turns (h : Drawn sc) (k : Nat) :
    (viewAt sc k).Turns (eventAt sc k) (viewAt sc (k + 1)) := by
  have htidy := (tidy_sketch h k).view
  have hunnoticed : ∀ v : View, v.current = (viewAt sc k).current ∧ v.height = (viewAt sc k).height ∧
      v.peak = (viewAt sc k).peak → v.blocks = (viewAt sc k).blocks ∧ v.sized = (viewAt sc k).sized ∧
      (viewAt sc k).fresh ≤ v.fresh → (viewAt sc k).Turns .finish v :=
    fun v hlocation hblks => View.turns_unnoticed htidy rfl ⟨rfl, rfl, rfl, rfl⟩ hlocation hblks
  cases hact : sc[k]? with
  | none =>
    have hsame : viewAt sc (k + 1) = viewAt sc k := by rw [viewAt, sketch_of_none hact, viewAt]
    rw [hsame, eventAt, hact]
    exact hunnoticed _ ⟨rfl, rfl, rfl⟩ ⟨rfl, rfl, Nat.le_refl _⟩
  | some act =>
    cases act with
    | newLabel =>
      have hmade : viewAt sc (k + 1) = { viewAt sc k with fresh := (viewAt sc k).fresh + 1 } := by
        rw [viewAt, sketch_succ hact]
        rfl
      rw [hmade, eventAt, hact]
      exact hunnoticed _ ⟨rfl, rfl, rfl⟩ ⟨rfl, rfl, Nat.le_succ _⟩
    | event e =>
      obtain ⟨hallowed, hnext⟩ := h.performed hact
      rw [hnext]
      exact View.event_turns htidy hallowed

/-! ### Blocks -/

/-- A point is in a block, at some height relative to that on its entry. -/
def At (sc : Script) (k : Nat) (b : Label) (height : Int) : Prop := (viewAt sc k).location = some (b, height)

def Starts (sc : Script) (k : Nat) (b : Label) : Prop :=
  (viewAt sc k).startedBy (eventAt sc k) = some b

theorem At.current (h : At sc k b height) :
    (viewAt sc k).current = some b ∧ (viewAt sc k).height = height := by
  obtain ⟨c, hc, heq⟩ := Option.map_eq_some_iff.1 h
  cases heq
  exact ⟨hc, rfl⟩

theorem at_of_current (h : (viewAt sc k).current = some b) :
    At sc k b (viewAt sc k).height := by
  rw [At, View.location, h]
  rfl

theorem current_iff : (viewAt sc k).current = some b ↔ ∃ height, At sc k b height :=
  ⟨fun h => ⟨_, at_of_current h⟩, fun ⟨_, h⟩ => h.current.1⟩

theorem not_at_zero : ¬ At sc 0 b height := nofun

theorem At.unique {c : Label} (h : At sc k b height) (h' : At sc k c height') :
    b = c ∧ height = height' := by
  rw [At, h] at h'
  cases h'
  exact ⟨rfl, rfl⟩

variable (hdrawn : Drawn sc)
include hdrawn

theorem Drawn.at_of_starts (h : Starts sc k b) : At sc (k + 1) b 0 := by
  rw [At, (hdrawn.turns k).location, View.locationAfter_started h]

/-- The next point of a block, where nothing starts. -/
theorem Drawn.at_succ (h : At sc k b height)
    (hstarted : (viewAt sc k).startedBy (eventAt sc k) = none) (hoth : ∀ i, eventAt sc k ≠ .instruction i) :
    At sc (k + 1) b height := by
  rw [At, (hdrawn.turns k).location, View.locationAfter_other hstarted hoth]
  exact h

/-- Control goes on behind an instruction. -/
theorem Drawn.at_fall (h : At sc k b height) {i : Instruction Label}
    (hi : eventAt sc k = .instruction i) (hfalls : i.fallsThrough = true) : At sc (k + 1) b (height + i.delta) := by
  have hcall : i.isCall = false := by
    cases i with
    | jump op target =>
      cases hop : (op == Opcode.jsr || op == Opcode.jsrW) with
      | false => exact hop
      | true => simp_all [Instruction.fallsThrough]
    | _ => rfl
  have hstarted : (viewAt sc k).startedBy (.instruction i) = none := by simp [View.startedBy, hcall]
  rw [At, (hdrawn.turns k).location, hi, View.locationAfter_instruction hstarted, if_pos hfalls, h]
  rfl

/-- A point is the first of its block, or the one before is in the same block. -/
theorem Drawn.at_cases (h : At sc (k + 1) b height) :
    Starts sc k b ∧ height = 0 ∨
    (∃ before, At sc k b before) ∧ isCall (eventAt sc k) = false ∧
      (viewAt sc k).startedBy (eventAt sc k) = none := by
  rw [At, (hdrawn.turns k).location] at h
  by_cases hstarted : Starts sc k b
  · refine .inl ⟨hstarted, ?_⟩
    rw [View.locationAfter_started hstarted] at h
    cases h
    rfl
  · obtain ⟨hcur, hnone, hcall⟩ := View.current_of_locationAfter h hstarted
    exact .inr ⟨⟨_, at_of_current hcur⟩, hcall, hnone⟩

theorem Drawn.blocks_succ (k : Nat) (b : Label) :
    b ∈ (viewAt sc (k + 1)).blocks ↔ b ∈ (viewAt sc k).blocks ∨ Starts sc k b := by
  rw [(hdrawn.turns k).blocks, List.mem_append, Option.mem_toList]
  rfl

/-- The blocks are those that have started. -/
theorem Drawn.mem_blocks (k : Nat) (b : Label) : b ∈ (viewAt sc k).blocks ↔ ∃ i < k, Starts sc i b := by
  induction k with
  | zero => exact ⟨nofun, nofun⟩
  | succ k ih =>
    rw [hdrawn.blocks_succ, ih, Nat.exists_lt_succ_right]

theorem Drawn.allows_of_starts (h : Starts sc k b) :
    (viewAt sc k).Allows (eventAt sc k) ∧ viewAt sc (k + 1) = (viewAt sc k).event (eventAt sc k) := by
  have hgiven : eventAt sc k ≠ .finish := fun hfin => by simp [Starts, hfin, View.startedBy] at h
  obtain ⟨e, hact, -⟩ := eventAt_given hgiven
  exact hdrawn.performed hact

/-- A block starts once. -/
theorem Drawn.starts_unique {i : Nat} (hi : Starts sc i b) (hj : Starts sc j b) : i = j := by
  have hnew : ∀ k, Starts sc k b → b ∉ (viewAt sc k).blocks := fun k hk =>
    (View.startedBy_new (tidy_sketch hdrawn k).view (hdrawn.allows_of_starts hk).1 hk).1
  rcases Nat.lt_trichotomy i j with hlt | heq | hlt
  · exact absurd ((hdrawn.mem_blocks j b).2 ⟨i, hlt, hi⟩) (hnew j hj)
  · exact heq
  · exact absurd ((hdrawn.mem_blocks i b).2 ⟨j, hlt, hj⟩) (hnew i hi)

/-- The points of a block follow its start. -/
theorem Drawn.at_start (h : At sc k b height) :
    ∃ i < k, Starts sc i b ∧ ∀ j, i < j → j ≤ k → ∃ between, At sc j b between := by
  induction k generalizing height with
  | zero => exact absurd h not_at_zero
  | succ k ih =>
    rcases hdrawn.at_cases h with ⟨hstarts, -⟩ | ⟨⟨before, hbef⟩, -⟩
    · refine ⟨k, by omega, hstarts, fun j hj hle => ?_⟩
      obtain rfl : j = k + 1 := by omega
      exact ⟨height, h⟩
    · obtain ⟨i, hi, hstarts, hpoints⟩ := ih hbef
      refine ⟨i, by omega, hstarts, fun j hj hle => ?_⟩
      rcases Nat.lt_succ_iff_lt_or_eq.1 (Nat.lt_succ_of_le hle) with hlt | rfl
      · exact hpoints j hj (by omega)
      · exact ⟨height, h⟩

/-- The points of a block follow each other. -/
theorem Drawn.at_between {l : Nat} (hk : At sc k b height)
    (hl : At sc l b height') (hkj : k ≤ j) (hjl : j ≤ l) : ∃ between, At sc j b between := by
  obtain ⟨i, hi, hstarts, -⟩ := hdrawn.at_start hk
  obtain ⟨i', hi', hstarts', hpoints⟩ := hdrawn.at_start hl
  obtain rfl := hdrawn.starts_unique hstarts hstarts'
  exact hpoints j (by omega) hjl

/-! ### What is known of a block -/

/-- The edges of a block are those of its points. -/
theorem Drawn.mem_edges (k : Nat) (b : Label) (edge : HeightEdge × Label) :
    edge ∈ ((viewAt sc k).sized b).edges.toList ↔
      ∃ j < k, (∃ height, At sc j b height) ∧ edge ∈ (viewAt sc j).edgesBy (eventAt sc j) := by
  induction k with
  | zero => exact ⟨nofun, nofun⟩
  | succ k ih =>
    rw [(hdrawn.turns k).edges, List.mem_append, ih, Nat.exists_lt_succ_right, ← current_iff]
    split <;> simp [*]

/-- A block calls a subroutine at one of its points. -/
theorem Drawn.calls_iff (k : Nat) (b : Label) :
    ((viewAt sc k).sized b).calls = true ↔
      ∃ j < k, (∃ height, At sc j b height) ∧ isCall (eventAt sc j) = true := by
  induction k with
  | zero => exact ⟨nofun, nofun⟩
  | succ k ih =>
    rw [(hdrawn.turns k).calls, Bool.or_eq_true, ih, Bool.and_eq_true, decide_eq_true_iff, Nat.exists_lt_succ_right,
      current_iff]

/-- A block ends with a call. -/
theorem Drawn.not_at_of_isCall (hat : At sc j b height)
    (hcall : isCall (eventAt sc j) = true) (hjk : j < k) : ¬ At sc k b height' := by
  intro hk
  obtain ⟨between, hnext⟩ := hdrawn.at_between hat hk (Nat.le_succ j) hjk
  rcases hdrawn.at_cases hnext with ⟨hstarts, -⟩ | ⟨-, hnot, -⟩
  · obtain ⟨i, hi, hstarts', -⟩ := hdrawn.at_start hat
    have := hdrawn.starts_unique hstarts hstarts'
    omega
  · rw [hcall] at hnot
    cases hnot

/-- Nothing follows a return. -/
theorem Drawn.not_at_of_isReturn (hret : isReturn (eventAt sc j) = true) :
    ¬ At sc (j + 1) b height := by
  intro hat
  rw [At, (hdrawn.turns j).location] at hat
  cases he : eventAt sc j with
  | instruction i =>
    rw [he] at hret hat
    cases i with
    | var op index =>
      obtain rfl : op = Opcode.ret := by simpa [isReturn, Instruction.isReturn] using hret
      cases hat
    | _ => cases hret
  | _ => simp [he, isReturn] at hret

/-- The height at which a block returns is that at its last point. -/
theorem Drawn.returnHeight_iff (k : Nat) (b : Label) (height : Int) :
    ((viewAt sc k).sized b).returnHeight = some height ↔
      ∃ j < k, At sc j b height ∧ isReturn (eventAt sc j) = true := by
  induction k with
  | zero => exact ⟨nofun, nofun⟩
  | succ k ih =>
    rw [(hdrawn.turns k).returns]
    split
    next hhere =>
      obtain ⟨hcur, hret⟩ := hhere
      have hat := at_of_current hcur
      constructor
      · rintro heq
        cases heq
        exact ⟨k, by omega, hat, hret⟩
      · rintro ⟨j, hj, hatj, hreturnj⟩
        rcases Nat.lt_succ_iff_lt_or_eq.1 hj with hlt | rfl
        · obtain ⟨between, hnext⟩ := hdrawn.at_between hatj hat (Nat.le_succ j) hlt
          exact absurd hnext (hdrawn.not_at_of_isReturn hreturnj)
        · rw [(hat.unique hatj).2]
    next helsewhere =>
      rw [ih, Nat.exists_lt_succ_right, or_iff_left]
      exact fun hhere => helsewhere ⟨hhere.1.current.1, hhere.2⟩

/-- No point of a block is above its peak. -/
theorem Drawn.le_peakOf (hjk : j ≤ k) (hat : At sc j b height) :
    height ≤ (viewAt sc k).peakOf b := by
  induction hjk with
  | refl =>
    obtain ⟨hcur, rfl⟩ := hat.current
    rw [View.peakOf, if_pos hcur]
    exact (tidy_sketch hdrawn _).view.peak b hcur
  | step hle ih =>
    rw [(hdrawn.turns _).peaks]
    unfold View.raised
    split
    · split
      · exact Int.le_trans ih (Int.le_max_left _ _)
      · exact ih
    · exact ih

/-- The peak of a block is the height at some point of it. -/
theorem Drawn.peakOf_attained (hb : b ∈ (viewAt sc k).blocks) :
    ∃ j ≤ k, At sc j b ((viewAt sc k).peakOf b) := by
  induction k with
  | zero => cases hb
  | succ k ih =>
    have hpeak := (hdrawn.turns k).peaks b
    have hold : b ∈ (viewAt sc k).blocks → (viewAt sc (k + 1)).peakOf b = (viewAt sc k).peakOf b →
        ∃ j ≤ k + 1, At sc j b ((viewAt sc (k + 1)).peakOf b) := by
      intro hb heq
      obtain ⟨j, hj, hat⟩ := ih hb
      exact ⟨j, by omega, heq ▸ hat⟩
    cases hlocation : (viewAt sc (k + 1)).location with
    | none =>
      rw [hlocation] at hpeak
      rcases (hdrawn.blocks_succ k b).1 hb with hmem | hstarts
      · exact hold hmem hpeak
      · have := hdrawn.at_of_starts hstarts
        rw [At, hlocation] at this
        cases this
    | some at_ =>
      obtain ⟨c, height⟩ := at_
      rw [hlocation] at hpeak
      simp only [View.raised] at hpeak
      have hat : At sc (k + 1) c height := hlocation
      by_cases hc : c = b
      · subst hc
        rw [if_pos rfl] at hpeak
        rcases (hdrawn.blocks_succ k c).1 hb with hmem | hstarts
        · rcases Int.le_total height ((viewAt sc k).peakOf c) with hle | hle
          · exact hold hmem (by omega)
          · exact ⟨k + 1, Nat.le_refl _, by rw [hpeak, Int.max_eq_right hle]; exact hat⟩
        · -- the block has just started, and all is at zero
          have hnew := (View.startedBy_new (tidy_sketch hdrawn k).view (hdrawn.allows_of_starts hstarts).1 hstarts).1
          obtain ⟨-, hzero⟩ := (tidy_sketch hdrawn k).view.new hnew
          obtain ⟨-, rfl⟩ := (hdrawn.at_of_starts hstarts).unique hat
          refine ⟨k + 1, Nat.le_refl _, ?_⟩
          have hpeak' : (viewAt sc (k + 1)).peakOf c = 0 := by
            rw [hpeak]
            show max ((sketch sc k).view.peakOf c) 0 = 0
            rw [hzero]
            rfl
          rw [hpeak']
          exact hat
      · rw [if_neg hc] at hpeak
        rcases (hdrawn.blocks_succ k b).1 hb with hmem | hstarts
        · exact hold hmem hpeak
        · exact absurd ((hdrawn.at_of_starts hstarts).unique hat).1.symm hc

end Sizing

end JvmAssembler
