import JvmAssembler.Proofs.Framing.Division

/-!
# JvmAssembler.Proofs.Framing.Points

The blocks of a method at each point of its script.

A `History` has the view of the writer before each act. Blocks are numbered in the order in which they start. The number of
blocks at a point tells which block the point is in, so that ranges of points become ranges of numbers.
-/

namespace JvmAssembler

namespace Framing

/-- The views of a writer that performs a script. -/
structure History (script : Script) (label : Nat → Label) (V : Nat → View) : Prop where
  start : ∃ pool, V 0 = { pool := pool }
  newLabel : ∀ k, script[k]? = some .newLabel → V (k + 1) = { V k with fresh := (V k).fresh + 1 } ∧
    label (script.made k) = (V k).fresh
  event : ∀ k e, script[k]? = some (.event e) → (∀ n ∈ e.places, n < script.made k) ∧ (V k).Sends (V (k + 1)) (e.map label)

open MethodWriter

/-- Every script that is performed has a history. -/
theorem history_of_performs {context : ClassContext} {d : Declaration} {desc : MethodDescriptor} {pool : Pool}
    {methods : Array (Member .ofMethod)} {sc : Script} {s : Session}
    (h : (start context .frames d desc pool methods).Performs sc s) :
    ∃ σ : Nat → Session, History sc s.label (fun k => view (σ k).writer) ∧ σ sc.length = s ∧
      (∀ k ≤ sc.length, Framed (σ k).writer) ∧
      ∀ k act, sc[k]? = some act → (σ k).perform act = some (σ (k + 1)) := by
  obtain ⟨σ, hsplit, hstep⟩ := h.history
  have hzero : σ 0 = ⟨#[], start context .frames d desc pool methods⟩ := (Option.some.inj (hsplit 0).1).symm
  have hlast : σ sc.length = s := by simpa [Session.run] using (hsplit sc.length).2
  have hfrd : ∀ k ≤ sc.length, Framed (σ k).writer ∧ (σ k).made.size = sc.made k := by
    intro k hk
    induction k with
    | zero =>
      rw [hzero]
      exact ⟨framed_start .., rfl⟩
    | succ k ih =>
      obtain ⟨hbef, hmade⟩ := ih (Nat.le_of_succ_le hk)
      have hact : sc[k]? = some sc[k] := List.getElem?_eq_getElem hk
      have hperf := hstep k _ hact
      cases hcase : sc[k] with
      | newLabel =>
        rw [hcase] at hact hperf
        rw [Session.perform_newLabel hperf]
        exact ⟨(newLabel_framed hbef).1, by rw [Script.made_newLabel hact, ← hmade]; simp⟩
      | event e =>
        rw [hcase] at hact hperf
        obtain ⟨hbody, -, hsame, hsend⟩ := Session.perform_event hperf
        have hsent := frames_send (by rwa [MethodEvent.endsBody_map]) _ _ _ hbef hsend
        exact ⟨hsent.1, by rw [hsame, hmade, Script.made_event hact]⟩
  -- labels keep their numbers until the end
  have hlab : ∀ k ≤ sc.length, ∀ n < sc.made k, s.label n = (σ k).label n := by
    intro k hk n hn
    exact (Session.label_run (hsplit k).2).2 n (by rwa [(hfrd k hk).2])
  refine ⟨σ, ⟨⟨pool, ?_⟩, fun k hk => ?_, fun k e hk => ?_⟩, hlast, fun k hk => (hfrd k hk).1, hstep⟩
  · rw [hzero]
    exact view_start ..
  · have hlt : k < sc.length := (List.getElem?_eq_some_iff.1 hk).1
    obtain ⟨hbef, hmade⟩ := hfrd k (Nat.le_of_lt hlt)
    have hnext := Session.perform_newLabel (hstep k _ hk)
    refine ⟨by rw [hnext]; exact (newLabel_framed hbef).2, ?_⟩
    rw [hlab (k + 1) hlt _ (by rw [Script.made_newLabel hk]; omega), hnext]
    simp [Session.label, ← hmade, view]
  · have hlt : k < sc.length := (List.getElem?_eq_some_iff.1 hk).1
    obtain ⟨hbef, hmade⟩ := hfrd k (Nat.le_of_lt hlt)
    obtain ⟨hbody, hpls, -, hsend⟩ := Session.perform_event (hstep k _ hk)
    rw [hmade] at hpls
    refine ⟨hpls, ?_⟩
    rw [MethodEvent.map_congr fun n hn => hlab k (Nat.le_of_lt hlt) n (hpls n hn)]
    exact (frames_send (by rwa [MethodEvent.endsBody_map]) _ _ _ hbef hsend).2

/-- What happens to blocks by an act. Making a label is like a frame from the caller, which is ignored. -/
def actEvent (lbl : Nat → Label) : Act → MethodEvent Label
  | .newLabel => .frame .same
  | .event e => e.map lbl

theorem tidy_start (pool : Pool) : View.Tidy { pool := pool } where
  declared _ := ⟨rfl, rfl, rfl⟩
  last := nofun
  nodup := .nil
  blocks := nofun
  joined := nofun
  unused _ _ := rfl
  bare := nofun
  untouched _ := nofun

namespace History

variable {sc : Script} {lbl : Nat → Label} {V : Nat → View}

variable {k j : Nat} {act : Act} {b l : Label} {f : Frame}

theorem lt_length (hk : sc[k]? = some act) : k < sc.length :=
  (List.getElem?_eq_some_iff.1 hk).1

theorem instructions_actEvent (hk : sc[k]? = some act) :
    (actEvent lbl act).instructions = (sc.instruction? k).toList.map (Instruction.map lbl) := by
  unfold Script.instruction?
  rw [hk]
  cases act with
  | newLabel => rfl
  | event e => cases e <;> rfl

variable (H : History sc lbl V)
include H

theorem turns_of_tidy (hk : sc[k]? = some act)
    (htidy : (V k).Tidy) : (V k).Turns (actEvent lbl act) (V (k + 1)) := by
  cases act with
  | newLabel =>
    rw [(H.newLabel k hk).1]
    exact View.turns_newLabel _
  | event e => exact (H.event k e hk).2.turns htidy

theorem tidy (hk : k ≤ sc.length) : (V k).Tidy := by
  induction k with
  | zero =>
    obtain ⟨pool, hst⟩ := H.start
    rw [hst]
    exact tidy_start pool
  | succ k ih =>
    have htidy := ih (Nat.le_of_succ_le hk)
    exact (H.turns_of_tidy (List.getElem?_eq_getElem hk) htidy).tidy htidy

theorem turns (hk : sc[k]? = some act) :
    (V k).Turns (actEvent lbl act) (V (k + 1)) :=
  H.turns_of_tidy hk (H.tidy (Nat.le_of_lt (lt_length hk)))

/-- What holds at a point and is kept by every act holds at all later points. -/
theorem from_point {P : View → Prop} (hjk : j ≤ k) (hk : k ≤ sc.length)
    (hj : P (V j)) (hstep : ∀ {v v' : View} {e : MethodEvent Label}, v.Tidy → v.Turns e v' → P v → P v') : P (V k) := by
  induction k with
  | zero => exact Nat.le_zero.1 hjk ▸ hj
  | succ k ih =>
    rcases Nat.lt_or_ge k j with hlt | hge
    · obtain rfl : j = k + 1 := by omega
      exact hj
    · have hbef := Nat.le_of_succ_le hk
      exact hstep (H.tidy hbef) (H.turns (List.getElem?_eq_getElem hk)) (ih hge hbef)

/-! ### What stays -/

theorem blocks_prefix (hjk : j ≤ k) (hk : k ≤ sc.length) :
    (V j).blocks <+: (V k).blocks := by
  refine H.from_point (P := fun v => (V j).blocks <+: v.blocks) hjk hk (List.prefix_refl _) ?_
  intro v v' e _ hturns hprefix
  rw [hturns.blocks]
  exact hprefix.trans (List.prefix_append _ _)

theorem settled (hjk : j ≤ k) (hk : k ≤ sc.length)
    (hb : b ∈ (V j).blocks) (hlast : (V j).blocks.getLast? ≠ some b) :
    (V k).frame b = (V j).frame b ∧ (V k).edges b = (V j).edges b := by
  refine (H.from_point (P := fun v => (v.frame b = (V j).frame b ∧ v.edges b = (V j).edges b) ∧ b ∈ v.blocks ∧
    v.blocks.getLast? ≠ some b) hjk hk ⟨⟨rfl, rfl⟩, hb, hlast⟩ ?_).1
  rintro v v' e hv hturns ⟨⟨hfr, hedges⟩, hmem, hnot⟩
  obtain ⟨⟨hfr', hedges'⟩, hrest⟩ := hturns.settled hv hmem hnot
  exact ⟨⟨hfr'.trans hfr, hedges'.trans hedges⟩, hrest⟩

theorem first (hjk : j ≤ k) (hk : k ≤ sc.length)
    (hl : (V j).Placed l) : (V k).Placed l ∧ (V k).first l = (V j).first l := by
  refine H.from_point (P := fun v => v.Placed l ∧ v.first l = (V j).first l) hjk hk ⟨hl, rfl⟩ ?_
  rintro v v' e hv hturns ⟨hpl, hfst⟩
  obtain ⟨hpl', hfst'⟩ := hturns.first hpl
  exact ⟨hpl', hfst'.trans hfst⟩

/-- Edges of a block are kept. -/
theorem edges_mono (hjk : j ≤ k) (hk : k ≤ sc.length)
    {edge : Frame.Edge × Label} (hedge : edge ∈ (V j).edges b) : edge ∈ (V k).edges b := by
  refine H.from_point (P := fun v => edge ∈ v.edges b) hjk hk hedge ?_
  intro v v' e _ hturns hmem
  rw [hturns.edges]
  exact List.mem_append_left _ hmem

/-! ### Where blocks start -/

/-- Control that gets to a point finds a block there that has done nothing yet. -/
structure Starts (V : Nat → View) (k : Nat) (b : Label) : Prop where
  current : (V k).current = some b
  frame : (V k).frame b = some {}
  edges : (V k).edges b = []
  bare : (V k).bare = true

theorem starts_of_bare (hk : k ≤ sc.length)
    (hcur : (V k).current = some b) (hbare : (V k).bare = true) : Starts V k b := by
  have htidy := H.tidy hk
  obtain ⟨hfr, hedges⟩ := htidy.untouched (.inl hbare) b (htidy.last b hcur)
  exact ⟨hcur, hfr, hedges, hbare⟩

/-- The block of a label starts where the label is placed. -/
theorem starts_of_places {q n : Nat} (hq : sc.Places q n) :
    Starts V (q + 1) ((V sc.length).first (lbl n)) := by
  have hlt := lt_length hq
  have hturns : (V q).Turns (.label (lbl n)) (V (q + 1)) := H.turns hq
  obtain ⟨hpl, hcur, hbare⟩ := hturns.label (H.tidy (Nat.le_of_lt hlt))
  rw [(H.first hlt (Nat.le_refl _) hpl).2]
  exact H.starts_of_bare hlt hcur hbare

/-- A block that starts by an act and is the current one. -/
theorem starts_of_started (hk : sc[k]? = some act)
    (hl : (V k).startedBy (actEvent lbl act) = some l) (hcur : (V (k + 1)).current ≠ none) : Starts V (k + 1) l := by
  have hturns := H.turns hk
  have hbare : (V (k + 1)).bare = true := by
    rw [hturns.bare]
    rcases (V k).event_cases (actEvent lbl act) with ⟨_, -, -, hbare, -⟩ | ⟨_, hnone, -⟩ | ⟨hnone, -⟩
    · exact hbare
    · rw [hnone] at hl
      cases hl
    · rw [hnone] at hl
      cases hl
  obtain ⟨b, hb⟩ := Option.ne_none_iff_exists'.1 hcur
  obtain rfl : l = b := by
    have hlast := hturns.last (H.tidy (Nat.le_of_lt (lt_length hk))) hb
    exact Option.some.inj ((hturns.last_of_started hl).symm.trans hlast)
  exact H.starts_of_bare (lt_length hk) hb hbare

/-- The body starts once. -/
theorem declared_of_code (hk : sc[k]? = some act)
    (hact : actEvent lbl act = .code) : (V k).stage = .declared := by
  cases act with
  | newLabel => cases hact
  | event e =>
    cases e with
    | code => exact (H.event k _ hk).2.1
    | _ => cases hact

/-- The body starts with a block. -/
theorem starts_of_code (hk : sc[k]? = some (.event .code)) :
    ∃ entry, Starts V (k + 1) entry ∧ (V sc.length).blocks[0]? = some entry := by
  have hturns : (V k).Turns .code (V (k + 1)) := H.turns hk
  have hlt := lt_length hk
  obtain ⟨hblks, -⟩ := (H.tidy (Nat.le_of_lt hlt)).declared (H.declared_of_code hk rfl)
  have hcur : (V (k + 1)).current = some (V k).fresh := hturns.current
  refine ⟨(V k).fresh, H.starts_of_started hk rfl (by simp [hcur]), ?_⟩
  have hone : (V (k + 1)).blocks = [(V k).fresh] := by
    rw [hturns.blocks, hblks]
    rfl
  obtain ⟨rest, hrest⟩ := H.blocks_prefix hlt (Nat.le_refl sc.length)
  rw [← hrest, hone]
  rfl

/-! ### Where control goes -/

/-- What happens to the summary of the current block at a point. -/
def Done (sc : Script) (V : Nat → View) (k : Nat) (f f' : Frame) : Prop :=
  match sc.instruction? k with
  | none => f' = f
  | some i => ∃ pool s, Pool.Enlarges (V k).pool pool ∧ i.interpretation (V k).size ⟨f, pool⟩ = .ok () s ∧
      s.frame = f' ∧ (V (k + 1)).pool = s.pool

/-- A block leads to another one, which starts at a point. -/
structure Leads (script : Script) (V : Nat → View) (b : Label) (k : Nat) (c : Label) : Prop where
  edge : ∃ l, (.normal, l) ∈ (V script.length).edges b ∧ (V script.length).first l = c
  starts : Starts V k c

def Complete (sc : Script) (V : Nat → View) (b : Label) (f : Frame) : Prop := (V sc.length).frame b = some f

/-- What the current block has done by the end of an act. -/
theorem done (hk : sc[k]? = some act)
    (hb : (V k).current = some b) (hf : (V k).frame b = some f) :
    ∃ f', Done sc V k f f' ∧ (V (k + 1)).frame b = some f' := by
  have hturns := H.turns hk
  have hins : (actEvent lbl act).instructions = _ := instructions_actEvent hk
  unfold Done
  cases hi : sc.instruction? k with
  | none =>
    rw [hi] at hins
    refine ⟨f, rfl, ?_⟩
    rw [hturns.kept b ((H.tidy (Nat.le_of_lt (lt_length hk))).mem_of_current hb) fun _ => hins, hf]
  | some i =>
    rw [hi] at hins
    obtain ⟨f₀, pool, s, hf₀, hpool, hrun, hnew, hlast⟩ := hturns.interpreted b hb (i.map lbl) (by simp [hins])
    obtain rfl : f = f₀ := Option.some.inj (hf.symm.trans hf₀)
    rw [Instruction.interpretation_map] at hrun
    exact ⟨s.frame, ⟨pool, s, hpool, hrun, rfl, hlast⟩, hnew⟩

/-- A block is complete when it is not the current one any more. -/
theorem complete (hk : sc[k]? = some act)
    (hb : (V k).current = some b) (hleft : (V (k + 1)).current ≠ some b) (hf : (V (k + 1)).frame b = some f) :
    Complete sc V b f := by
  have hlt := lt_length hk
  have hturns := H.turns hk
  have htidy := H.tidy (Nat.le_of_lt hlt)
  have hmem := htidy.mem_of_current hb
  have hlast : (V (k + 1)).blocks.getLast? ≠ some b := by
    rw [hturns.current] at hleft
    rcases (V k).event_cases (actEvent lbl act) with ⟨l, hl, -⟩ | ⟨_, -, -, -, -, hcur, -⟩ | ⟨-, -, hcur, -⟩
    · rw [hturns.last_of_started hl]
      intro heq
      obtain rfl := Option.some.inj heq
      exact (hturns.placed l (.inl hl)).2 (.inl hmem)
    · exact absurd (hcur.trans (htidy.last b hb)) hleft
    · exact absurd (hcur.trans hb) hleft
  exact (H.settled hlt (Nat.le_refl _) (hturns.mem_blocks.2 (.inl hmem)) hlast).1.trans hf

theorem edge_of_target (hk : sc[k]? = some act)
    (hb : (V k).current = some b) (hl : l ∈ (V k).targetsBy (actEvent lbl act)) :
    (.normal, l) ∈ (V sc.length).edges b := by
  refine H.edges_mono (lt_length hk) (Nat.le_refl _) ?_
  rw [(H.turns hk).edges, if_pos hb]
  exact List.mem_append_right _ (List.mem_map.2 ⟨l, hl, rfl⟩)

/-- A block starts by an act, and the current one leads to it. -/
theorem leads_of_started (hk : sc[k]? = some act)
    (hb : (V k).current = some b) (hl : (V k).startedBy (actEvent lbl act) = some l)
    (htgt : l ∈ (V k).targetsBy (actEvent lbl act)) (hcur : (V (k + 1)).current ≠ none) :
    Leads sc V b (k + 1) l := by
  have hlt := lt_length hk
  have hmem : l ∈ (V (k + 1)).blocks := (H.turns hk).mem_blocks.2 (.inr hl)
  refine ⟨⟨l, H.edge_of_target hk hb htgt, ?_⟩, H.starts_of_started hk hl hcur⟩
  rw [(H.first hlt (Nat.le_refl _) (.inl hmem)).2, (H.tidy hlt).first_of_mem hmem]

/-- Where the next act finds itself. -/
theorem next (hk : sc[k]? = some act)
    (hb : (V k).current = some b) (hfalls : ∀ i, sc.instruction? k = some i → i.fallsThrough = true)
    (hf : (V (k + 1)).frame b = some f) :
    (V (k + 1)).current = some b ∨ Complete sc V b f ∧ ∃ c, Leads sc V b (k + 1) c := by
  have hturns := H.turns hk
  have htidy := H.tidy (Nat.le_of_lt (lt_length hk))
  have hcur := hturns.current
  rcases (V k).event_cases (actEvent lbl act) with ⟨l, hl, -⟩ | ⟨_, -, -, -, -, haft, -⟩ | ⟨-, -, haft, -⟩
  · right
    have hcode : actEvent lbl act ≠ .code := by
      intro hcode
      obtain ⟨-, hnone, -⟩ := htidy.declared (H.declared_of_code hk hcode)
      rw [hb] at hnone
      cases hnone
    have hpass := View.passes_of_started hl hb hcode fun j hj => by
      rw [instructions_actEvent hk] at hj
      obtain ⟨i, hi, rfl⟩ := List.mem_map.1 hj
      rw [Instruction.fallsThrough_map]
      exact hfalls i (Option.mem_toList.1 hi)
    have hnext : (V (k + 1)).current = some l := hcur.trans hpass.2
    have hleft : (V (k + 1)).current ≠ some b := by
      rw [hnext]
      intro heq
      obtain rfl := Option.some.inj heq
      exact (hturns.placed l (.inl hl)).2 (.inl (htidy.mem_of_current hb))
    exact ⟨H.complete hk hb hleft hf, l, H.leads_of_started hk hb hl hpass.1 (by simp [hnext])⟩
  · exact .inl ((hcur.trans haft).trans (htidy.last b hb))
  · exact .inl ((hcur.trans haft).trans hb)

end History

end Framing

end JvmAssembler
