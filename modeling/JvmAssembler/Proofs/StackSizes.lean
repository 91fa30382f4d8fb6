import JvmAssembler.Proofs.Subroutines

/-!
# JvmAssembler.Proofs.StackSizes

The stack size that is computed is the largest height of the control flow graph.
-/

namespace JvmAssembler

namespace Script

variable (script : Script)

/-- No instruction calls a subroutine or returns from one. -/
def HasNoSubroutines : Prop :=
  ∀ k i, script.instruction? k = some i → i.isCall = false ∧ i.isReturn = false

/-- Protected ranges start before they end. -/
def HandlersOrdered : Prop := ∀ h start stop handler, script.Handles h start stop handler → start < stop

/-- In a protected range, there is an instruction behind each label that control gets to. -/
def HandlersProtect : Prop :=
  ∀ h start stop handler, script.Handles h start stop handler → ∀ k n height, script.Places k n → start ≤ k → k < stop →
    script.Reaches (k + 1) height → ∃ j, k < j ∧ j < stop ∧ (script.instruction? j).isSome = true

variable {script}

variable (script) in
/-- A number is the largest stack height of all points that control can get to. -/
structure IsLargestHeight (n : Nat) : Prop where
  bound : ∀ k height, script.Reaches k height → height ≤ n
  attained : ∃ k, script.Reaches k n

/-- Control gets to the first instruction that follows. -/
theorem Reaches.first_instruction {k j : Nat} {height : Int} (h : script.Reaches k height) (hkj : k ≤ j)
    (hj : (script.instruction? j).isSome = true) :
    ∃ first i, k ≤ first ∧ first ≤ j ∧ script.instruction? first = some i ∧ script.Reaches first height := by
  cases hi : script.instruction? k with
  | some i => exact ⟨k, i, Nat.le_refl k, hkj, hi, h⟩
  | none =>
    have hne : k ≠ j := by
      rintro rfl
      simp [hi] at hj
    have hlt : k < script.length := by
      refine Nat.lt_of_not_le fun hle => ?_
      simp [instruction?, List.getElem?_eq_none (Nat.le_trans hle hkj)] at hj
    have hnext := h.flow (.pass (List.getElem?_eq_getElem hlt) hi)
    obtain ⟨first, i, hfst, hle, hfnd⟩ := first_instruction hnext (by omega) hj
    exact ⟨first, i, by omega, hle, hfnd⟩
termination_by j - k

end Script

namespace Sizing

open MethodWriter

section
variable {script : Script} {T : LabelTable} (hch : Charts script T)
include hch

variable {i k : Nat} {b : Label} {start r height : Int}

/-- Control gets from the start of a block to all of its points. -/
theorem Charts.reaches_of_starts (hstarts : Starts script i b) (hreaches : script.Reaches (i + 1) start) (hat : At script k b r)
    (hk : k ≤ script.length) : script.Reaches k (start + r) := by
  have hdrawn := hch.drawn
  induction k generalizing r with
  | zero => exact absurd hat not_at_zero
  | succ k ih =>
    have hlt : k < script.length := hk
    rcases hdrawn.at_cases hat with ⟨hfst, rfl⟩ | ⟨⟨before, hbef⟩, -, hnone⟩
    · rw [Int.add_zero, ← hdrawn.starts_unique hstarts hfst]
      exact hreaches
    · have hprevious := ih hbef (by omega)
      cases hi : script.instruction? k with
      | none =>
        obtain ⟨-, rfl⟩ := hat.unique (hdrawn.at_succ hbef hnone (eventAt_ne_instruction hi))
        exact hprevious.flow (.pass (List.getElem?_eq_getElem hlt) hi)
      | some i =>
        have hev := eventAt_instruction hi
        have hfalls : i.fallsThrough = true := by
          rw [At, (hdrawn.turns k).location, hev, View.locationAfter_instruction (by rw [← hev]; exact hnone)] at hat
          rw [← i.fallsThrough_map (labelOf script)]
          exact Decidable.of_not_not fun hnot => by simp [hnot] at hat
        have hnext := hdrawn.at_fall hbef hev (by rw [Instruction.fallsThrough_map, hfalls])
        obtain ⟨-, rfl⟩ := hat.unique hnext
        have hflow := hprevious.flow (.fall hi hfalls)
        rwa [Instruction.delta_map, ← Int.add_assoc]

/-- Where an event has edges, control follows them. -/
theorem Charts.reaches_of_event (hpln : script.HasNoSubroutines) {l : Label} {e : HeightEdge}
    (hat : At script k b r) (hreaches : script.Reaches k (start + r))
    (hedge : (e, l) ∈ (viewAt script k).edgesBy (eventAt script k)) {next : Int} (hnext : arrival start e = some next) :
    ∃ j, Starts script j l ∧ script.Reaches (j + 1) next := by
  obtain ⟨-, hht⟩ := hat.current
  cases hact : script[k]? with
  | none => simp [eventAt, hact, View.edgesBy] at hedge
  | some act =>
    cases act with
    | newLabel => simp [eventAt, hact, View.edgesBy] at hedge
    | event event =>
      cases event with
      | label n =>
        obtain ⟨rfl, rfl⟩ : e = .flow (viewAt script k).height ∧ l = labelOf script n := by
          simpa [eventAt, hact, MethodEvent.map, View.edgesBy] using hedge
        have hnone : script.instruction? k = none := by rw [Script.instruction?, hact]
        cases hnext
        rw [hht]
        exact ⟨k, starts_of_places hact, hreaches.flow (.pass hact hnone)⟩
      | instruction i =>
        have hi : script.instruction? k = some i := by rw [Script.instruction?, hact]
        obtain ⟨hcall, hret⟩ := hpln k i hi
        rw [eventAt_instruction hi, View.edgesBy, Instruction.isCall_map, hcall, Instruction.isReturn_map, hret,
          Instruction.places_map, Instruction.delta_map] at hedge
        simp only [Bool.false_eq_true, if_false, List.map_map] at hedge
        obtain ⟨n, hn, heq⟩ := List.mem_map.1 hedge
        cases heq
        cases hnext
        obtain ⟨target, htgt⟩ := hch.placed hi hn
        refine ⟨target, starts_of_places htgt, ?_⟩
        rw [hht, ← Int.add_assoc]
        exact hreaches.flow (.jump hi hcall hn htgt)
      | _ => simp [eventAt, hact, MethodEvent.map, View.edgesBy] at hedge

/-- The blocks of a protected range have an instruction that may throw. -/
theorem Charts.reaches_of_range (hpln : script.HasNoSubroutines) (hordered : script.HandlersOrdered)
    (hprotect : script.HandlersProtect) {start stop handler : Nat} {h : Handler Nat}
    (hhdl : script.Handles h start stop handler)
    (hrng : b ∈ blockRange (viewAt script script.length).blocks.toArray (labelOf script h.start) (labelOf script h.stop))
    (hstarts : Starts script i b) (hreaches : script.Reaches (i + 1) height) :
    script.Reaches (handler + 1) 1 := by
  have hdrawn := hch.drawn
  obtain ⟨i', hst, hstop, hstarts'⟩ :=
    (hdrawn.mem_blockRange hhdl.start hhdl.stop (hordered h start stop handler hhdl) b).1 hrng
  obtain rfl := hdrawn.starts_unique hstarts hstarts'
  -- the block starts at a label, for the body starts before the range, and nothing is called
  obtain ⟨n, hn⟩ : ∃ n, script.Places i n := by
    cases hact : script[i]? with
    | none => simp [Starts, eventAt, hact, View.startedBy] at hstarts
    | some act =>
      cases act with
      | newLabel => simp [Starts, eventAt, hact, View.startedBy] at hstarts
      | event event =>
        cases event with
        | label n => exact ⟨n, hact⟩
        | code =>
          obtain ⟨-, -, -, -, hearlier⟩ := hch.entry hact
          obtain rfl := Nat.le_antisymm hst (hearlier start _ (starts_of_places hhdl.start))
          cases hact.symm.trans hhdl.start
        | instruction j =>
          have hj : script.instruction? i = some j := by rw [Script.instruction?, hact]
          rw [Starts, eventAt_instruction hj, View.startedBy, Instruction.isCall_map, (hpln i j hj).1] at hstarts
          cases hstarts
        | _ => simp [Starts, eventAt, hact, View.startedBy, MethodEvent.map] at hstarts
  obtain ⟨j, hij, hj, hsome⟩ := hprotect h start stop handler hhdl i n height hn hst hstop hreaches
  obtain ⟨first, thrower, hle, hbef, hfst, hreached⟩ := hreaches.first_instruction (Nat.succ_le_of_lt hij) hsome
  exact hreached.flow (.caught hfst hhdl (by omega) (by omega))

/-- **Paths along edges are paths of control.** A block is entered with the heights of its first point. -/
theorem Charts.reaches_of_arrives (hpln : script.HasNoSubroutines) (hordered : script.HandlersOrdered)
    (hprotect : script.HandlersProtect) {code : Nat} (hcode : script[code]? = some (.event .code)) {entry : Label}
    (hent : (viewAt script script.length).blocks[0]? = some entry) (h : Arrives T entry b height) :
    ∃ i, Starts script i b ∧ script.Reaches (i + 1) height := by
  have hdrawn := hch.drawn
  induction h with
  | entry =>
    obtain ⟨first, hfst, hstarts, -⟩ := hch.entry hcode
    rw [hent] at hfst
    cases hfst
    exact ⟨code, hstarts, .entry hcode⟩
  | @edge b l start height e _ hedge harrival ih =>
    obtain ⟨i, hstarts, hreaches⟩ := ih
    rcases (hch.edge_iff b _).1 hedge with ⟨k, ⟨r, hat⟩, hhere⟩ | ⟨h, first, last, handler, hhdl, hrng, heq⟩
    · have hk : k ≤ script.length := by
        refine Nat.le_of_not_lt fun hlt => ?_
        rw [eventAt, List.getElem?_eq_none (Nat.le_of_lt hlt)] at hhere
        cases hhere
      exact hch.reaches_of_event hpln hat (hch.reaches_of_starts hstarts hreaches hat hk) hhere harrival
    · cases heq
      cases harrival
      exact ⟨handler, starts_of_places hhdl.handler,
        hch.reaches_of_range hpln hordered hprotect hhdl hrng hstarts hreaches⟩

end

theorem isCall_eventAt {script : Script} (hpln : script.HasNoSubroutines) (k : Nat) :
    isCall (eventAt script k) = false := by
  cases hi : script.instruction? k with
  | none =>
    cases he : eventAt script k with
    | instruction i => exact absurd he (eventAt_ne_instruction hi i)
    | _ => rfl
  | some i =>
    rw [eventAt_instruction hi, isCall, Instruction.isCall_map]
    exact (hpln k i hi).1

/-- A body that is open has been started. -/
theorem Drawn.code_of_open {script : Script} (hdrawn : Drawn script) {k : Nat}
    (h : (viewAt script k).stage = .open) : ∃ j : Nat, script[j]? = some (.event .code) := by
  induction k with
  | zero => cases h
  | succ k ih =>
    cases hact : script[k]? with
    | none =>
      rw [viewAt, sketch_of_none hact] at h
      exact ih h
    | some act =>
      cases act with
      | newLabel =>
        rw [viewAt, sketch_succ hact] at h
        exact ih h
      | event e =>
        obtain ⟨hallowed, -⟩ := hdrawn.performed hact
        cases e with
        | code => exact ⟨k, hact⟩
        | label n =>
          rw [eventAt, hact] at hallowed
          exact ih hallowed.1
        | _ =>
          rw [eventAt, hact] at hallowed
          exact ih hallowed

section
variable {context : ClassContext} {d : Declaration} {descriptor : MethodDescriptor} {pool : Pool}
  {methods : Array (Member .ofMethod)} {script : Script} {s : Session} {w' : MethodWriter} {stack locals : UInt16}

/-- **The stack size that is computed is exact**, if all paths agree on heights. -/
theorem isLargestHeight_of_maxs (h : (start context .maxs d descriptor pool methods).Performs script s)
    (hmaxs : send (.maxs stack locals) s.writer = .ok () w') (hpln : script.HasNoSubroutines)
    (hordered : script.HandlersOrdered) (hprotect : script.HandlersProtect) (hagree : script.HeightsAgree) :
    script.IsLargestHeight w'.maxStack := by
  obtain ⟨hch, hsz, hblks, hsubs⟩ := charts_of_maxs h hmaxs
  have hdrawn := hch.drawn
  have hopen : (viewAt script script.length).stage = .open := by
    obtain ⟨-, -, hsketch⟩ := performs_sketch h
    rw [viewAt, hsketch]
    exact (Typesetting.maxs_ok hmaxs).1
  obtain ⟨code, hcode⟩ := hdrawn.code_of_open hopen
  obtain ⟨entry, hent, hstarts, -⟩ := hch.entry hcode
  obtain ⟨hfst, -, hsize⟩ := maxStack_of_maxs hsz (by simpa [hblks] using hent) hmaxs
  -- there are no calls, so that nothing has to be linked
  have hnone : s.writer.hasSubroutines = false := by
    rw [hsubs]
    refine Bool.eq_false_iff.2 fun hsome => ?_
    obtain ⟨k, -, -, hcall⟩ := (hdrawn.hasSubroutines_iff _).1 hsome
    rw [isCall_eventAt hpln] at hcall
    cases hcall
  have hlinked : linked s.writer = charted s.writer := by rw [linked, hnone]; rfl
  rw [hlinked] at hsize
  have hpaths : ∀ {b height}, Arrives (charted s.writer) entry b height →
      ∃ i, Starts script i b ∧ script.Reaches (i + 1) height :=
    fun h => hch.reaches_of_arrives hpln hordered hprotect hcode hent h
  have hagrees : Agrees (charted s.writer) entry := by
    intro b height height' h h'
    obtain ⟨i, hi, hreaches⟩ := hpaths h
    obtain ⟨j, hj, hreaches'⟩ := hpaths h'
    rw [hdrawn.starts_unique hj hi] at hreaches'
    exact hagree _ _ _ hreaches hreaches'
  have hlt := hch.lt_size hstarts
  obtain ⟨-, hatt⟩ := walk_counts hch.bounded hlt
  refine ⟨fun k height hreaches => ?_, ?_⟩
  · have hback : ∀ caller target site b r, Calls (charted s.writer) caller target site → Within (charted s.writer) target b →
        ((charted s.writer).info b).sized.returnHeight = some r → (.flow r, site) ∈ edges (charted s.writer) b := by
      intro caller target site b r hcalls
      obtain ⟨-, hcalling, -⟩ := hch.calls_found hcalls
      obtain ⟨k, -, hcall⟩ := (hch.calls_iff caller).1 hcalling
      rw [isCall_eventAt hpln] at hcall
      cases hcall
    obtain ⟨b, r, start, hat, rfl, harr, -⟩ :=
      hch.executes_arrives hent (fun b edge h => h) hback hreaches.executes
    have hwalk := le_walk hch.bounded hlt hagrees harr
    have hpeak := hch.le_peak hat
    rw [hsize]
    omega
  · have hentered := le_walk hch.bounded hlt hagrees .entry
    have hbase := hch.le_peak (hdrawn.at_of_starts hstarts)
    rw [hsize, Int.toNat_of_nonneg (by omega)]
    rcases hatt with hzero | ⟨b, height, harr, hlargest⟩
    · rw [hzero]
      exact ⟨code + 1, .entry hcode⟩
    · -- the peak of a block is the height of one of its points
      obtain ⟨i, hi, hreaches⟩ := hpaths harr
      obtain ⟨j, hj, hat⟩ := hdrawn.peakOf_attained ((hdrawn.mem_blocks _ b).2 ⟨i, starts_lt_length hi, hi⟩)
      rw [hlargest, hch.peak_eq]
      exact ⟨j, hch.reaches_of_starts hi hreaches hat hj⟩

end

end Sizing

end JvmAssembler
