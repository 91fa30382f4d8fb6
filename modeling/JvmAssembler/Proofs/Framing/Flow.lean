import JvmAssembler.Proofs.Frame.StackUse
import JvmAssembler.Proofs.Framing.Ranges
import JvmAssembler.Proofs.Inference.Heights

/-!
# JvmAssembler.Proofs.Framing.Flow

Paths of control and paths along the edges of blocks, where frames are computed.

Control that gets to a point is in a block, and its height is that with which the block was entered and what the summary
of the block adds to it. So the points that control gets to are those of the blocks that the machine can get to
(`arrives_of_reaches`, `reaches_of_arrives`), and the largest height in a block is the peak of its summary.
-/

namespace JvmAssembler

namespace Instruction

variable {L : Type} {i : Instruction L}

/-- An instruction that jumps ends its block. -/
theorem ends_of_places (h : i.places ≠ []) : i.splits = true ∨ i.fallsThrough = false := by
  cases i with
  | jump op target =>
    simp only [splits, fallsThrough]
    cases op != Opcode.goto && op != Opcode.gotoW <;> simp
  | tableSwitch low high fallback targets => exact .inr rfl
  | lookupSwitch fallback keys targets => exact .inr rfl
  | _ => exact absurd rfl h

/-- Where a block splits, control goes on. -/
theorem fallsThrough_of_splits (h : i.splits = true) (hcall : i.isCall = false) (hreturn : i.isReturn = false) :
    i.fallsThrough = true := by
  cases i with
  | jump op target =>
    simp only [splits, isCall, fallsThrough, Bool.and_eq_true, Bool.or_eq_false_iff, bne_iff_ne, beq_eq_false_iff_ne] at *
    exact ⟨⟨h, hcall.1⟩, hcall.2⟩
  | var op index =>
    simp only [isReturn, fallsThrough, bne_iff_ne, beq_eq_false_iff_ne] at *
    exact hreturn
  | _ => simp [splits, isStore] at h

/-- What pushes something goes on. -/
theorem fallsThrough_of_pushes (h : i.use.2 ≠ 0) (hcall : i.isCall = false) : i.fallsThrough = true := by
  cases i with
  | plain op =>
    simp only [fallsThrough, Bool.not_eq_true']
    exact Bool.eq_false_iff.2 fun hexit => h ((MethodWriter.use_of_kind op).1 (.inl hexit))
  | var op index =>
    simp only [fallsThrough, bne_iff_ne]
    exact fun hret => h ((MethodWriter.use_of_kind op).1 (.inr (.inr (.inr hret))))
  | jump op target =>
    simp only [isCall, Bool.or_eq_false_iff, beq_eq_false_iff_ne] at hcall
    simp only [fallsThrough, Bool.and_eq_true, bne_iff_ne]
    exact ⟨⟨⟨fun heq => h ((MethodWriter.use_of_kind op).1 (.inr (.inl heq))), fun heq => h ((MethodWriter.use_of_kind op).1 (.inr (.inr (.inl heq))))⟩,
      hcall.1⟩, hcall.2⟩
  | tableSwitch low high fallback targets => exact absurd rfl h
  | lookupSwitch fallback keys targets => exact absurd rfl h
  | _ => rfl

end Instruction

namespace Script

variable (script : Script)

/-- Control can go on behind a point. -/
def Falls (k : Nat) : Prop := ∀ i, script.instruction? k = some i → i.fallsThrough = true

/-- What happens to the height of the stack at a point. -/
def deltaAt (k : Nat) : Int := ((script.instruction? k).map Instruction.delta).getD 0

variable {script}

theorem flow_next {k : Nat} {act : Act} (hk : script[k]? = some act) (hfalls : script.Falls k) (height : Int) :
    script.Flow k height (k + 1) (height + script.deltaAt k) := by
  cases hi : script.instruction? k with
  | none =>
    rw [deltaAt, hi, Option.map_none, Option.getD_none, Int.add_zero]
    exact .pass hk hi
  | some i =>
    rw [deltaAt, hi, Option.map_some, Option.getD_some]
    exact .fall hi (hfalls i hi)

theorem getElem?_of_instruction {k : Nat} {i : Instruction Nat} (hi : script.instruction? k = some i) :
    script[k]? = some (.event (.instruction i)) := by
  unfold instruction? at hi
  split at hi
  next hk =>
    cases hi
    exact hk
  next => cases hi

/-- Control goes on from the points of a script. -/
theorem Flow.act {k k' : Nat} {height height' : Int} (h : script.Flow k height k' height') : ∃ act, script[k]? = some act := by
  cases h with
  | pass hk _ => exact ⟨_, hk⟩
  | fall hi _ => exact ⟨_, getElem?_of_instruction hi⟩
  | jump hi _ _ _ => exact ⟨_, getElem?_of_instruction hi⟩
  | caught hi _ _ _ => exact ⟨_, getElem?_of_instruction hi⟩

theorem Reaches.le_length {k : Nat} {height : Int} (h : script.Reaches k height) : k ≤ script.length := by
  have hlt : ∀ {k : Nat} {act : Act}, script[k]? = some act → k < script.length := fun hk =>
    (List.getElem?_eq_some_iff.1 hk).1
  cases h with
  | entry hcode => exact hlt hcode
  | flow _ hflow =>
    cases hflow with
    | pass hk _ => exact hlt hk
    | fall hi _ => exact hlt (getElem?_of_instruction hi)
    | jump _ _ _ htgt => exact hlt htgt
    | caught _ hhdl _ _ => exact hlt hhdl.handler

theorem deltaAt_instruction {k : Nat} {i : Instruction Nat} (hi : script.instruction? k = some i) :
    script.deltaAt k = i.delta := by
  rw [deltaAt, hi, Option.map_some, Option.getD_some]

end Script

namespace Framing

open Inference (Graph Block Arrives)
open History (Starts Leads Complete Done)

/-- What the machine works on is what the script says. -/
structure Maps (script : Script) (label : Nat → Label) (V : Nat → View) (g : Graph) (frames : Block → Option Frame)
    (entry : Label) : Prop where
  history : History script label V
  apt : ∀ {k i}, script.instruction? k = some i → i.IsApt
  placed : ∀ {k i n}, script.instruction? k = some i → n ∈ i.places → ∃ target, script.Places target n
  frames : ∀ b, frames b = (V script.length).frame b
  entry : (V script.length).blocks[0]? = some entry
  normal : ∀ b s, (.normal, s) ∈ g.edges b ↔
    ∃ l, (.normal, l) ∈ (V script.length).edges b ∧ (V script.length).first l = s
  caught : ∀ b s, (∃ row, (.caught row, s) ∈ g.edges b) ↔
    ∃ h start stop handler, script.Handles h start stop handler ∧
      b ∈ blockRange (V script.length).blocks.toArray ((V script.length).first (label h.start))
        ((V script.length).first (label h.stop)) ∧ (V script.length).first (label h.handler) = s

/-- A point is in a block that is entered with `n` slots. -/
structure Passes (V : Nat → View) (k : Nat) (b : Label) (n : Nat) (f : Frame) : Prop where
  current : (V k).current = some b
  frame : (V k).frame b = some f
  popped : f.popped ≤ n
  peak : f.height ≤ f.peak

theorem passes_of_starts {V : Nat → View} {k : Nat} {b : Label} (h : Starts V k b) (n : Nat) :
    Passes V k b n {} := ⟨h.current, h.frame, Nat.zero_le _, by simp [Frame.height]⟩

/-- What a point does to the summary of a block. -/
structure Advances (script : Script) (k n : Nat) (f f' : Frame) : Prop where
  popped : f'.popped ≤ n
  height : f'.height = f.height + script.deltaAt k
  peak : f'.height ≤ f'.peak
  mono : f.peak ≤ f'.peak
  /-- The peak is higher only if control goes on with that height. -/
  attained : f'.peak = f.peak ∨ (f'.peak : Int) = f'.height ∧ script.Falls k

namespace Maps

variable {script : Script} {label : Nat → Label} {V : Nat → View} {g : Graph} {frames : Block → Option Frame}
  {entry : Label} (M : Maps script label V g frames entry) (hpln : script.HasNoSubroutines)
  (hnever : script.NeverUnderflows)

include M hpln hnever

variable {k n j : Nat} {b : Label} {f : Frame} {act : Act} {height : Int}

theorem advances (h : Passes V k b n f) (hreaches : script.Reaches k (n + f.height)) (hk : script[k]? = some act) : ∃ f', (V (k + 1)).frame b = some f' ∧ Advances script k n f f' := by
  obtain ⟨f', hdone, hfr⟩ := M.history.done hk h.current h.frame
  refine ⟨f', hfr, ?_⟩
  unfold Done at hdone
  cases hi : script.instruction? k with
  | none =>
    rw [hi] at hdone
    obtain rfl := hdone
    refine ⟨h.popped, ?_, h.peak, Nat.le_refl _, .inl rfl⟩
    rw [Script.deltaAt, hi, Option.map_none, Option.getD_none, Int.add_zero]
  | some i =>
    rw [hi] at hdone
    obtain ⟨pool, s, -, hrun, rfl, -⟩ := hdone
    obtain ⟨hpopped, hsize, hpeak⟩ := Instruction.uses_of_interpretation (M.apt hi) hrun
    have hpops := hnever k _ i hreaches hi
    have hbound := h.popped
    have hhigh := h.peak
    have hht : s.frame.height = f.height + i.delta := by
      dsimp only at hpopped hsize
      simp only [Frame.height, Instruction.delta]
      omega
    dsimp only at hpopped hsize hpeak
    simp only [Frame.height] at hpops hhigh
    refine ⟨by omega, by rw [hht, Script.deltaAt_instruction hi], ?_, ?_, ?_⟩
    · rw [Frame.height, hpeak]
      split <;> omega
    · rw [hpeak]
      split <;> omega
    · by_cases hpushes : i.use.2 = 0
      · exact .inl (by rw [hpeak, if_pos hpushes])
      · have hfalls : script.Falls k := by
          intro j hj
          cases hi.symm.trans hj
          exact Instruction.fallsThrough_of_pushes hpushes (hpln k i hi).1
        rw [Frame.height, hpeak, if_neg hpushes]
        by_cases hlow : s.frame.stack.size - s.frame.popped ≤ f.peak
        · exact .inl (Nat.max_eq_left hlow)
        · exact .inr ⟨by omega, hfalls⟩

/-! ### From control to edges -/

omit hpln hnever in
/-- The summary of a block that is left by an act is its last one. -/
theorem frames_of_left (hk : script[k]? = some act) (hb : (V k).current = some b)
    (hleft : (V (k + 1)).current ≠ some b) (hf : (V (k + 1)).frame b = some f) : frames b = some f := by
  rw [M.frames]
  exact M.history.complete hk hb hleft hf

omit hpln hnever in
/-- An instruction that jumps leaves its block. -/
theorem left_of_places {i : Instruction Nat} (hi : script.instruction? k = some i) (hpls : i.places ≠ []) (hb : (V k).current = some b) : (V (k + 1)).current ≠ some b := by
  have hk := Script.getElem?_of_instruction hi
  have htidy := M.history.tidy (Nat.le_of_lt (History.lt_length hk))
  rw [(M.history.turns hk).current]
  have hends := Instruction.ends_of_places (i := i.map label) (by simpa [Instruction.places_map] using hpls)
  simp only [actEvent, MethodEvent.map, View.currentAfter, hb, Option.isSome_some, if_true]
  split
  · intro heq
    exact absurd (htidy.blocks b (htidy.mem_of_current hb)) (by simp [Option.some.inj heq])
  next hsplits =>
    rw [hends.resolve_left hsplits]
    simp

omit hpln hnever in
/-- Control that goes on from a point of a block stays in the block, or gets to the start of one that an edge leads to. -/
theorem block_of_flow {k' : Nat} {height' : Int} (hflow : script.Flow k height k' height')
    (hb : (V k).current = some b) (hf : (V (k + 1)).frame b = some f) :
    (k' = k + 1 ∧ (V (k + 1)).current = some b ∧ height' = height + script.deltaAt k) ∨
    (∃ c, Starts V k' c ∧ frames b = some f ∧ (.normal, c) ∈ g.edges b ∧ height' = height + script.deltaAt k) ∨
    ∃ c row, Starts V k' c ∧ (.caught row, c) ∈ g.edges b ∧ height' = 1 := by
  -- where control goes on behind the point
  have hnext : ∀ {act : Act}, script[k]? = some act → script.Falls k →
      (V (k + 1)).current = some b ∨ ∃ c, Starts V (k + 1) c ∧ frames b = some f ∧ (.normal, c) ∈ g.edges b := by
    intro act hk hfalls
    rcases M.history.next hk hb hfalls hf with hcur | ⟨hcomplete, c, ⟨l, hedge, hl⟩, hc⟩
    · exact .inl hcur
    · exact .inr ⟨c, hc, (M.frames b).trans hcomplete, (M.normal b c).2 ⟨l, hedge, hl⟩⟩
  cases hflow with
  | pass hk hnone =>
    have hdel : script.deltaAt k = 0 := by rw [Script.deltaAt, hnone, Option.map_none, Option.getD_none]
    rw [hdel, Int.add_zero]
    rcases hnext hk fun i hi => by simp [hnone] at hi with hcur | ⟨c, hc, hfrs, hedge⟩
    · exact .inl ⟨rfl, hcur, rfl⟩
    · exact .inr (.inl ⟨c, hc, hfrs, hedge, rfl⟩)
  | fall hi hfalls =>
    rw [Script.deltaAt_instruction hi]
    have hgoes := hnext (Script.getElem?_of_instruction hi) fun j hj => by
      cases hi.symm.trans hj
      exact hfalls
    rcases hgoes with hcur | ⟨c, hc, hfrs, hedge⟩
    · exact .inl ⟨rfl, hcur, rfl⟩
    · exact .inr (.inl ⟨c, hc, hfrs, hedge, rfl⟩)
  | @jump l target _ i hi hcall hl htgt =>
    have hk := Script.getElem?_of_instruction hi
    have hleft := M.left_of_places hi (List.ne_nil_of_mem hl) hb
    have hedge := M.history.edge_of_target hk hb (l := label l) (by
      simp only [actEvent, MethodEvent.map, View.targetsBy, Instruction.places_map]
      exact List.mem_append_left _ (List.mem_map_of_mem hl))
    rw [Script.deltaAt_instruction hi]
    exact .inr (.inl ⟨_, M.history.starts_of_places htgt, M.frames_of_left hk hb hleft hf,
      (M.normal b _).2 ⟨label l, hedge, rfl⟩, rfl⟩)
  | @caught start stop handler _ i h hi hhdl hst hstop =>
    have hrng := M.history.mem_range_of_instruction hhdl hi hst hstop hb
    obtain ⟨row, hedge⟩ := (M.caught b _).2 ⟨h, start, stop, handler, hhdl, hrng, rfl⟩
    exact .inr (.inr ⟨_, row, M.history.starts_of_places hhdl.handler, hedge, rfl⟩)

/-- **Control is in a block to which edges lead**, and the height is that with which the block was entered and what the
summary of the block adds to it. -/
theorem arrives_of_reaches (h : script.Reaches k height) :
    ∃ b n f, Passes V k b n f ∧ Arrives g frames entry b n ∧ height = n + f.height := by
  have hstarts : ∀ {k b} {n : Nat} {height : Int}, Starts V k b → Arrives g frames entry b n → height = n →
      ∃ b n f, Passes V k b n f ∧ Arrives g frames entry b n ∧ height = n + f.height := by
    intro k b n height hstarts harr hht
    exact ⟨b, n, {}, passes_of_starts hstarts n, harr, by simpa [Frame.height] using hht⟩
  induction h with
  | entry hcode =>
    obtain ⟨b, hb, hfst⟩ := M.history.starts_of_code hcode
    rw [M.entry] at hfst
    cases hfst
    exact hstarts hb .entry rfl
  | @flow k k' height height' hreaches hflow ih =>
    obtain ⟨b, n, f, hpass, harr, rfl⟩ := ih
    obtain ⟨act, hk⟩ := hflow.act
    obtain ⟨f', hfr, hadv⟩ := M.advances hpln hnever hpass hreaches hk
    have hht := hadv.height
    rcases M.block_of_flow hflow hpass.current hfr with
      ⟨rfl, hcur, rfl⟩ | ⟨c, hc, hfrs, hedge, rfl⟩ | ⟨c, row, hc, hedge, rfl⟩
    · exact ⟨b, n, f', ⟨hcur, hfr, hadv.popped, hadv.peak⟩, harr, by omega⟩
    · refine hstarts hc (harr.normal hfrs hedge) ?_
      have hpopped := hadv.popped
      simp only [Frame.height] at hht ⊢
      omega
    · exact hstarts hc (harr.caught hedge) rfl

/-! ### From edges to control -/

omit hpln hnever in
/-- A block stays the current one until another block starts. -/
theorem current_of_length (hb : (V j).current = some b) (hjk : j ≤ k) (hk : k ≤ script.length)
    (hlen : (V k).blocks.length = (V j).blocks.length) : (V k).current = some b := by
  induction k, hjk using Nat.le_induction with
  | base => exact hb
  | succ k hjk ih =>
    have hact : script[k]? = some script[k] := List.getElem?_eq_getElem hk
    have hturns := M.history.turns hact
    have hbef := M.history.length_mono hjk (Nat.le_of_succ_le hk)
    have haft := M.history.length_mono (Nat.le_add_right k 1) hk
    have hcur := ih (Nat.le_of_succ_le hk) (by omega)
    rw [hturns.current]
    rcases (V k).event_cases (actEvent label script[k]) with ⟨l, hl, -⟩ | ⟨_, -, -, -, -, hlast, -⟩ | ⟨-, -, hsame, -⟩
    · rw [hturns.blocks_of_started hl, List.length_append] at hlen
      simp at hlen
      omega
    · rw [hlast]
      exact (M.history.tidy (Nat.le_of_succ_le hk)).last b hcur
    · rw [hsame]
      exact hcur

omit hpln hnever in
/-- Control goes on where no other block starts. -/
theorem falls_of_length (hb : (V k).current = some b)
    (hlen : (V (k + 1)).blocks.length ≤ (V k).blocks.length) : script.Falls k := by
  intro i hi
  refine Decidable.of_not_not fun hends => ?_
  have hblks := (M.history.turns (Script.getElem?_of_instruction hi)).blocks_of_started (l := (V k).fresh) (by
    simp [actEvent, MethodEvent.map, View.startedBy, hb, Instruction.fallsThrough_map, hends])
  rw [hblks, List.length_append] at hlen
  simp at hlen

/-- **Control gets from a point of a block to all later ones.** -/
theorem reaches_within (hpass : Passes V j b n f)
    (hreaches : script.Reaches j (n + f.height)) (hjk : j ≤ k) (hk : k ≤ script.length)
    (hb : (V k).current = some b) : ∃ f', Passes V k b n f' ∧ script.Reaches k (n + f'.height) := by
  have hlen := M.history.length_eq_of_current hk (Nat.le_trans hjk hk) hb hpass.current
  clear hb
  induction k, hjk using Nat.le_induction with
  | base => exact ⟨f, hpass, hreaches⟩
  | succ k hjk ih =>
    have hact : script[k]? = some script[k] := List.getElem?_eq_getElem hk
    have hbef := M.history.length_mono hjk (Nat.le_of_succ_le hk)
    have haft := M.history.length_mono (Nat.le_add_right k 1) hk
    obtain ⟨f₀, hpass₀, hreached⟩ := ih (Nat.le_of_succ_le hk) (by omega)
    obtain ⟨f', hfr, hadv⟩ := M.advances hpln hnever hpass₀ hreached hact
    have hcur := M.current_of_length hpass.current (Nat.le_succ_of_le hjk) hk hlen
    have hfalls := M.falls_of_length hpass₀.current (by omega)
    refine ⟨f', ⟨hcur, hfr, hadv.popped, hadv.peak⟩, ?_⟩
    rw [hadv.height, ← Int.add_assoc]
    exact hreached.flow (Script.flow_next hact hfalls _)

omit hpln hnever in
/-- An edge of a block comes from one of its points. -/
theorem edge_origin (hstarts : Starts V j b) (hj : j ≤ script.length) {edge : Frame.Edge × Label}
    (hedge : edge ∈ (V script.length).edges b) :
    ∃ k act, j ≤ k ∧ script[k]? = some act ∧ (V k).current = some b ∧
      ∃ l ∈ (V k).targetsBy (actEvent label act), edge = (.normal, l) := by
  have horigin : ∀ k, j ≤ k → k ≤ script.length → edge ∈ (V k).edges b → ∃ k act, j ≤ k ∧ script[k]? = some act ∧
      (V k).current = some b ∧ ∃ l ∈ (V k).targetsBy (actEvent label act), edge = (.normal, l) := by
    intro k hjk
    induction k, hjk using Nat.le_induction with
    | base =>
      intro _ hmem
      rw [hstarts.edges] at hmem
      cases hmem
    | succ k hjk ih =>
      intro hk hmem
      have hact : script[k]? = some script[k] := List.getElem?_eq_getElem hk
      rw [(M.history.turns hact).edges, List.mem_append] at hmem
      rcases hmem with hbef | hnew
      · exact ih (Nat.le_of_succ_le hk) hbef
      · split at hnew
        next hb =>
          obtain ⟨l, hl, rfl⟩ := List.mem_map.1 hnew
          exact ⟨k, _, hjk, hact, hb, l, hl, rfl⟩
        next => cases hnew
  exact horigin _ hj (Nat.le_refl _) hedge

omit hnever in
/-- Where a point of a block leads, another block starts, and control goes on there. -/
theorem flow_of_target (hb : (V k).current = some b) (hk : script[k]? = some act)
    {l : Label} (hl : l ∈ (V k).targetsBy (actEvent label act)) :
    (V (k + 1)).current ≠ some b ∧ ∃ next, next ≤ script.length ∧ Starts V next ((V script.length).first l) ∧
      ∀ height, script.Flow k height next (height + script.deltaAt k) := by
  have hlt := History.lt_length hk
  have hturns := M.history.turns hk
  have htidy := M.history.tidy (Nat.le_of_lt hlt)
  -- where a block starts behind the point, control falls through to it
  have hbeh : (V k).startedBy (actEvent label act) = some l → (V (k + 1)).current = some l → script.Falls k →
      (V (k + 1)).current ≠ some b ∧ ∃ next, next ≤ script.length ∧ Starts V next ((V script.length).first l) ∧
        ∀ height, script.Flow k height next (height + script.deltaAt k) := by
    intro hstarted hcur hfalls
    have hmem : l ∈ (V (k + 1)).blocks := hturns.mem_blocks.2 (.inr hstarted)
    refine ⟨?_, k + 1, hlt, ?_, Script.flow_next hk hfalls⟩
    · rw [hcur]
      intro heq
      obtain rfl := Option.some.inj heq
      exact (hturns.placed l (.inl hstarted)).2 (.inl (htidy.mem_of_current hb))
    · rw [(M.history.first hlt (Nat.le_refl _) (.inl hmem)).2, (M.history.tidy hlt).first_of_mem hmem]
      exact M.history.starts_of_started hk hstarted (by simp [hcur])
  cases act with
  | newLabel => simp [actEvent, View.targetsBy] at hl
  | event e =>
    cases e with
    | label m =>
      have hnone : script.instruction? k = none := by rw [Script.instruction?, hk]
      cases hbare : (V k).bare with
      | true => simp [actEvent, MethodEvent.map, View.targetsBy, hbare] at hl
      | false =>
        obtain rfl : l = label m := by simpa [actEvent, MethodEvent.map, View.targetsBy, hbare] using hl
        refine hbeh ?_ ?_ fun i hi => ?_
        · simp [actEvent, MethodEvent.map, View.startedBy, hbare]
        · rw [hturns.current]
          simp [actEvent, MethodEvent.map, View.currentAfter, hbare]
        · rw [hnone] at hi
          cases hi
    | instruction i =>
      have hi : script.instruction? k = some i := by rw [Script.instruction?, hk]
      simp only [actEvent, MethodEvent.map, View.targetsBy, Instruction.places_map, List.mem_append] at hl
      rcases hl with hl | hl
      · obtain ⟨m, hm, rfl⟩ := List.mem_map.1 hl
        obtain ⟨target, htgt⟩ := M.placed hi hm
        refine ⟨M.left_of_places hi (List.ne_nil_of_mem hm) hb, target + 1, History.lt_length htgt,
          M.history.starts_of_places htgt, ?_⟩
        rw [Script.deltaAt_instruction hi]
        exact fun _ => .jump hi (hpln k i hi).1 hm htgt
      · -- the block splits behind the instruction
        split at hl
        next hsplits =>
          obtain rfl := List.mem_singleton.1 hl
          have hfalls : i.fallsThrough = true := by
            obtain ⟨hcall, hreturn⟩ := hpln k i hi
            rw [← Instruction.fallsThrough_map label]
            exact Instruction.fallsThrough_of_splits hsplits (by rwa [Instruction.isCall_map])
              (by rwa [Instruction.isReturn_map])
          refine hbeh ?_ ?_ fun j hj => ?_
          · simp [actEvent, MethodEvent.map, View.startedBy, hb, hsplits]
          · rw [hturns.current]
            simp [actEvent, MethodEvent.map, View.currentAfter, hb, hsplits]
          · cases hi.symm.trans hj
            exact hfalls
        next => cases hl
    | _ => simp [actEvent, MethodEvent.map, View.targetsBy] at hl

/-- Where a point of a block leads, the block ends with the height that arrives there. -/
theorem reaches_of_target (hpass : Passes V k b n f)
    (hreaches : script.Reaches k (n + f.height)) (hk : script[k]? = some act) {l : Label}
    (hl : l ∈ (V k).targetsBy (actEvent label act)) :
    ∃ f' next, frames b = some f' ∧ f'.popped ≤ n ∧ next ≤ script.length ∧ Starts V next ((V script.length).first l) ∧
      script.Reaches next (n + f'.height) := by
  obtain ⟨f', hfr, hadv⟩ := M.advances hpln hnever hpass hreaches hk
  obtain ⟨hleft, next, hnext, hstarts, hflow⟩ := M.flow_of_target hpln hpass.current hk hl
  refine ⟨f', next, M.frames_of_left hk hpass.current hleft hfr, hadv.popped, hnext, hstarts, ?_⟩
  rw [hadv.height, ← Int.add_assoc]
  exact hreaches.flow (hflow _)

/-- **Paths along edges are paths of control.** -/
theorem reaches_of_arrives (hordered : script.HandlersOrdered) {code : Nat} (hcode : script[code]? = some (.event .code)) (h : Arrives g frames entry b n) :
    ∃ k, k ≤ script.length ∧ Starts V k b ∧ script.Reaches k n := by
  induction h with
  | entry =>
    obtain ⟨first, hstarts, hfst⟩ := M.history.starts_of_code hcode
    rw [M.entry] at hfst
    cases hfst
    exact ⟨code + 1, History.lt_length hcode, hstarts, .entry hcode⟩
  | @normal b s n f _ hf hedge ih =>
    obtain ⟨j, hj, hstarts, hreaches⟩ := ih
    obtain ⟨l, hl, rfl⟩ := (M.normal b s).1 hedge
    obtain ⟨k, act, hjk, hk, hb, l', hl', heq⟩ := M.edge_origin hstarts hj hl
    cases heq
    obtain ⟨_, hpass, hreached⟩ := M.reaches_within hpln hnever (passes_of_starts hstarts n)
      (by simpa [Frame.height] using hreaches) hjk (Nat.le_of_lt (History.lt_length hk)) hb
    obtain ⟨f', next, hf', hpopped, hnext, hstarts', hreaches'⟩ := M.reaches_of_target hpln hnever hpass hreached hk hl'
    cases hf.symm.trans hf'
    refine ⟨next, hnext, hstarts', ?_⟩
    have hht : ((n - f.popped + f.stack.size : Nat) : Int) = n + f.height := by
      simp only [Frame.height]
      omega
    rwa [hht]
  | @caught b s n row _ hedge ih =>
    obtain ⟨j, hj, hstarts, hreaches⟩ := ih
    obtain ⟨h, start, stop, handler, hhdl, hrng, rfl⟩ := (M.caught b s).1 ⟨row, hedge⟩
    have hordered' := hordered h start stop handler hhdl
    exact ⟨handler + 1, History.lt_length hhdl.handler, M.history.starts_of_places hhdl.handler,
      M.history.reaches_of_mem_range hhdl hordered' hj hstarts hrng hreaches⟩

/-! ### Peaks -/

/-- The peak of a block only grows, to heights that control gets to. -/
theorem peak_grows (hpass : Passes V j b n f) (hreaches : script.Reaches j (n + f.height)) (hj : j ≤ script.length) :
    ∃ f', frames b = some f' ∧ f.peak ≤ f'.peak ∧ (f'.peak = f.peak ∨ ∃ top, script.Reaches top (n + f'.peak)) := by
  have hgrows : ∀ k, j ≤ k → k ≤ script.length → ∃ f', (V k).frame b = some f' ∧ f.peak ≤ f'.peak ∧
      (f'.peak = f.peak ∨ ∃ top, script.Reaches top (n + f'.peak)) := by
    intro k hjk
    induction k, hjk using Nat.le_induction with
    | base => exact fun _ => ⟨f, hpass.frame, Nat.le_refl _, .inl rfl⟩
    | succ k hjk ih =>
      intro hk
      have hact : script[k]? = some script[k] := List.getElem?_eq_getElem hk
      have hbef := Nat.le_of_succ_le hk
      obtain ⟨f₀, hf₀, hle, htop⟩ := ih hbef
      by_cases hb : (V k).current = some b
      · obtain ⟨f₁, hpass₁, hreached⟩ := M.reaches_within hpln hnever hpass hreaches hjk hbef hb
        cases hf₀.symm.trans hpass₁.frame
        obtain ⟨f', hfr, hadv⟩ := M.advances hpln hnever hpass₁ hreached hact
        refine ⟨f', hfr, Nat.le_trans hle hadv.mono, ?_⟩
        rcases hadv.attained with hsame | ⟨hpeak, hfalls⟩
        · rwa [hsame]
        · refine .inr ⟨k + 1, ?_⟩
          rw [hpeak, hadv.height, ← Int.add_assoc]
          exact hreached.flow (Script.flow_next hact hfalls _)
      · have hmem := (M.history.blocks_prefix hjk hbef).subset ((M.history.tidy hj).mem_of_current hpass.current)
        exact ⟨f₀, ((M.history.turns hact).kept b hmem fun h => absurd h hb).trans hf₀, hle, htop⟩
  rw [M.frames]
  exact hgrows _ hj (Nat.le_refl _)

/-- The peak of a block that edges lead to is a height that control gets to. -/
theorem reaches_peak (hordered : script.HandlersOrdered) {code : Nat} (hcode : script[code]? = some (.event .code)) (h : Arrives g frames entry b n) :
    ∃ f top, frames b = some f ∧ script.Reaches top (n + f.peak) := by
  obtain ⟨k, hk, hstarts, hreaches⟩ := M.reaches_of_arrives hpln hnever hordered hcode h
  obtain ⟨f, hf, -, hsame | ⟨top, htop⟩⟩ := M.peak_grows hpln hnever (passes_of_starts hstarts n)
    (by simpa [Frame.height] using hreaches) hk
  · exact ⟨f, k, hf, by simpa [hsame] using hreaches⟩
  · exact ⟨f, top, hf, htop⟩

/-- No height is above the peak of its block. -/
theorem le_peak (h : script.Reaches k height) :
    ∃ b n f, Arrives g frames entry b n ∧ frames b = some f ∧ height ≤ n + f.peak := by
  obtain ⟨b, n, f, hpass, harr, rfl⟩ := M.arrives_of_reaches hpln hnever h
  obtain ⟨f', hf', hle, -⟩ := M.peak_grows hpln hnever hpass h h.le_length
  have hpeak := hpass.peak
  exact ⟨b, n, f', harr, hf', by omega⟩

end Maps

end Framing

end JvmAssembler
