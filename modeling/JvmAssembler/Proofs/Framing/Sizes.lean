import JvmAssembler.Proofs.Bookkeeping
import JvmAssembler.Proofs.Framing.Flow
import JvmAssembler.Proofs.Inference.Largest

/-!
# JvmAssembler.Proofs.Framing.Sizes

The stack size of a method whose frames are computed.

What inference works on is what the script says (`maps_of_performs`), so the stack size that it finds is the largest
height of the control flow graph. A block is voided exactly if it has instructions that control does not get to
(`hasVoid_iff`).
-/

namespace JvmAssembler

open MethodWriter

namespace Script

/-- Control does not get to some instruction. -/
def HasDeadCode (script : Script) : Prop :=
  ∃ k i, script.instruction? k = some i ∧ ∀ height, ¬ script.Reaches k height

end Script

/-! ### Exception edges -/

theorem LabelTable.mem_edges_addTypeEdge (labels : LabelTable) {b : Label} (hb : b < labels.size) (edge : Frame.Edge)
    (target l : Label) (e : Frame.Edge × Label) :
    e ∈ ((labels.addTypeEdge b edge target).info l).typed.edges ↔
      e ∈ (labels.info l).typed.edges ∨ l = b ∧ e = (edge, target) := by
  unfold addTypeEdge
  rw [updateTyped_eq]
  by_cases hl : l = b
  · subst hl
    simp [info_update_self _ _ _ hb]
  · simp [info_update_of_ne _ _ _ _ hl, hl]

namespace MethodWriter

variable {w : MethodWriter} {u : Unit} {i : Instruction Label}

/-- A handler adds one edge to each block of its range. -/
theorem addCatchEdges_edges {h : Handler Label} {w' : MethodWriter}
    (hblks : ∀ b ∈ w.blocks, b < w.labels.size) (hrun : addCatchEdges h w = .ok u w') :
    ∃ row, ∀ b e, e ∈ (w'.labels.info b).typed.edges ↔ e ∈ (w.labels.info b).typed.edges ∨
      b ∈ blockRange w.blocks (w.labels.first h.start) (w.labels.first h.stop) ∧ e = (.caught row, w.labels.first h.handler) := by
  obtain ⟨row, pool, heq⟩ := addCatchEdges_run h w
  rw [heq] at hrun
  cases hrun
  refine ⟨row, ?_⟩
  have hfold : ∀ (range : List Label) (labels : LabelTable), (∀ b ∈ range, b < labels.size) → ∀ b e,
      e ∈ ((range.foldl (fun labels b => labels.addTypeEdge b (.caught row) (w.labels.first h.handler)) labels).info b).typed.edges ↔
        e ∈ (labels.info b).typed.edges ∨ b ∈ range ∧ e = (.caught row, w.labels.first h.handler) := by
    intro range
    induction range with
    | nil => simp
    | cons c range ih =>
      intro labels hrng b e
      have hsize : (labels.addTypeEdge c (.caught row) (w.labels.first h.handler)).size = labels.size := by
        simp [LabelTable.addTypeEdge]
      rw [List.foldl_cons, ih _ (fun b hb => by rw [hsize]; exact hrng b (List.mem_cons_of_mem c hb)),
        labels.mem_edges_addTypeEdge (hrng c List.mem_cons_self)]
      rw [List.mem_cons, or_and_right, or_assoc]
  have hmark : ∀ b, ((w.labels.markTarget (w.labels.first h.handler)).info b).typed.edges = (w.labels.info b).typed.edges :=
    fun b => w.labels.info_update_cases (P := fun i i' => i'.typed.edges = i.typed.edges) _ b _ (fun _ => rfl) fun _ => rfl
  intro b e
  dsimp only
  rw [hfold, hmark]
  intro c hc
  have hsize : (w.labels.markTarget (w.labels.first h.handler)).size = w.labels.size := by simp [LabelTable.markTarget]
  rw [hsize]
  unfold blockRange at hc
  exact hblks c (by simpa using (List.dropWhile_sublist _).subset ((List.takeWhile_sublist _).subset hc))

/-- Handlers add exception edges, and no others. -/
theorem catchEdges {handlers : List (Handler Label)} {w' : MethodWriter} {u : PUnit}
    (hblks : ∀ b ∈ w.blocks, b < w.labels.size) (hrun : handlers.forM addCatchEdges w = .ok u w') (b l : Label) :
    ((.normal, l) ∈ (w'.labels.info b).typed.edges ↔ (.normal, l) ∈ (w.labels.info b).typed.edges) ∧
    ((∃ row, (.caught row, l) ∈ (w'.labels.info b).typed.edges) ↔ (∃ row, (.caught row, l) ∈ (w.labels.info b).typed.edges) ∨
      ∃ h ∈ handlers, b ∈ blockRange w.blocks (w.labels.first h.start) (w.labels.first h.stop) ∧
        l = w.labels.first h.handler) := by
  induction handlers generalizing w with
  | nil =>
    obtain ⟨-, rfl⟩ := Success.run_pure_ok.1 hrun
    simp
  | cons h handlers ih =>
    obtain ⟨_, w₁, hfst, hrest⟩ := Success.run_bind_ok.1 hrun
    have hsame := sameFrames_addCatchEdges hfst
    have hblks₁ : w₁.blocks = w.blocks := by rw [hsame.rest]
    have hlab : ∀ l, w₁.labels.first l = w.labels.first l := fun l => by
      rw [LabelTable.first, LabelTable.first, hsame.labels.canonical]
    obtain ⟨row, hedges⟩ := addCatchEdges_edges hblks hfst
    obtain ⟨hnorm, hcaught⟩ := ih (by rw [hblks₁, hsame.labels.size]; exact hblks) hrest
    simp only [hblks₁, hlab] at hcaught
    refine ⟨hnorm.trans (by simp [hedges]), hcaught.trans ?_⟩
    have hhere : (∃ row, (.caught row, l) ∈ (w₁.labels.info b).typed.edges) ↔
        (∃ row, (.caught row, l) ∈ (w.labels.info b).typed.edges) ∨
          b ∈ blockRange w.blocks (w.labels.first h.start) (w.labels.first h.stop) ∧ l = w.labels.first h.handler := by
      simp only [hedges, Prod.mk.injEq, Frame.Edge.caught.injEq]
      grind
    rw [hhere, List.exists_mem_cons_iff, or_assoc]

/-- An instruction that is accepted has an opcode of its kind. -/
theorem isApt_of_write {w' : MethodWriter} (h : write i w = .ok u w') : i.IsApt := by
  cases i with
  | type op name => exact (write_plain_ok rfl h).1
  | field op m | method op m isInterface => exact (write_plain_ok rfl h).1.1
  | _ => trivial

theorem write_of_send {w' : MethodWriter} (h : send (.instruction i) w = .ok u w') :
    write i w = .ok u w' := by
  unfold send dispatch at h
  rw [Success.run_get_bind] at h
  dsimp only at h
  split at h
  · cases h
  · exact h

end MethodWriter

namespace Framing

/-! ### Positions -/

namespace View

@[simp] theorem size_withNew_begin (v : View) : (v.withNew begin).size = v.size := by simp [withNew, begin, head]

theorem size_follow (i : Instruction Label) (v : View) : (v.follow i).size = v.size := by
  unfold follow
  split
  · split
    · exact v.size_withNew_begin
    · rfl
  · dsimp only
    split
    · rw [size_withNew_begin]
      rfl
    · split <;> rfl

theorem size_place (l : Label) (v : View) : (v.place l).size = v.size := by
  unfold place
  split
  · rfl
  · simp [begin, head]

theorem Tidy.first_first {v : View} (hv : v.Tidy) (l : Label) : v.first (v.first l) = v.first l := by
  cases hl : v.joined l with
  | none =>
    have hsame : v.first l = l := by rw [first, hl, Option.getD_none]
    rw [hsame, hsame]
  | some b =>
    have hblk : v.first l = b := by rw [first, hl, Option.getD_some]
    rw [hblk, hv.first_of_mem (hv.joined l b hl).2.2]

/-- Only instructions are emitted. -/
theorem Sends.size {v v' : View} {e : MethodEvent Label} (h : v.Sends v' e) :
    if e.instructions = [] then v'.size = v.size else v.size < v'.size := by
  cases e with
  | code =>
    obtain ⟨-, rfl⟩ := h
    exact (size_place _ _).trans rfl
  | instruction i =>
    obtain ⟨-, v₁, v₂, v₃, ⟨pool, -, rfl⟩, hintp, ⟨n, hn, rfl⟩, rfl⟩ := h
    obtain ⟨frame, pool', rfl⟩ := hintp.same
    rw [if_neg (by simp [MethodEvent.instructions]), size_follow]
    exact Nat.lt_add_of_pos_right hn
  | label l =>
    obtain ⟨-, -, -, rfl⟩ := h
    exact size_place l v
  | maxs stack locals => cases h
  | finish => cases h
  | _ =>
    obtain ⟨-, pool, -, rfl⟩ := h
    rfl

end View

namespace History

variable {script : Script} {label : Nat → Label} {V : Nat → View}

variable {k m p q : Nat}

theorem size_step (H : History script label V) {act : Act} (hk : script[k]? = some act) :
    if script.instruction? k = none then (V (k + 1)).size = (V k).size else (V k).size < (V (k + 1)).size := by
  cases act with
  | newLabel =>
    rw [if_pos (by rw [Script.instruction?, hk]), (H.newLabel k hk).1]
  | event e =>
    have hsize := (H.event k e hk).2.size
    have hins : (actEvent label (.event e)).instructions = _ := instructions_actEvent hk
    simp only [actEvent] at hins
    rw [hins] at hsize
    cases hi : script.instruction? k with
    | none => simpa [hi] using hsize
    | some i => simpa [hi] using hsize

/-- Positions grow where there is an instruction. -/
theorem size_lt_iff (H : History script label V) {j : Nat} (hjk : j ≤ k) (hk : k ≤ script.length) :
    (V j).size ≤ (V k).size ∧
      ((V j).size < (V k).size ↔ ∃ m, j ≤ m ∧ m < k ∧ (script.instruction? m).isSome = true) := by
  induction k, hjk using Nat.le_induction with
  | base => exact ⟨Nat.le_refl _, by simp; omega⟩
  | succ k hjk ih =>
    obtain ⟨hle, hiff⟩ := ih (Nat.le_of_succ_le hk)
    have hstep := H.size_step (List.getElem?_eq_getElem hk)
    split at hstep
    next hnone =>
      rw [hstep, hiff]
      refine ⟨hle, ?_⟩
      constructor
      · rintro ⟨m, hjm, hmk, hm⟩
        exact ⟨m, hjm, Nat.lt_succ_of_lt hmk, hm⟩
      · rintro ⟨m, hjm, hmk, hm⟩
        rcases Nat.lt_succ_iff_lt_or_eq.1 hmk with hlt | rfl
        · exact ⟨m, hjm, hlt, hm⟩
        · simp [hnone] at hm
    next hsome =>
      refine ⟨by omega, fun _ => ⟨k, hjk, Nat.lt_succ_self k, ?_⟩, fun _ => by omega⟩
      exact Option.isSome_iff_ne_none.2 hsome

/-- The edges of blocks are normal as long as the body is open. -/
theorem edges_normal (H : History script label V) (hk : k ≤ script.length) {b : Label}
    {edge : Frame.Edge × Label} (hedge : edge ∈ (V k).edges b) : ∃ l, edge = (.normal, l) := by
  revert b edge
  refine H.from_point (P := fun v => ∀ {b edge}, edge ∈ v.edges b → ∃ l, edge = (.normal, l)) (Nat.zero_le k) hk ?_ ?_
  · obtain ⟨pool, hst⟩ := H.start
    simp [hst]
  · intro v v' e _ hturns hv b edge hedge
    rw [hturns.edges, List.mem_append] at hedge
    rcases hedge with hbef | hnew
    · exact hv hbef
    · split at hnew
      next =>
        obtain ⟨l, -, rfl⟩ := List.mem_map.1 hnew
        exact ⟨l, rfl⟩
      next => cases hnew

/-- The handlers are those of the script. -/
theorem mem_handlers (H : History script label V) (hk : k ≤ script.length) {h : Handler Label} :
    h ∈ (V k).handlers ↔ ∃ j < k, ∃ h', script[j]? = some (.event (.tryCatch h')) ∧ h = h'.map label := by
  induction k with
  | zero =>
    obtain ⟨pool, hst⟩ := H.start
    simp [hst]
  | succ k ih =>
    have hact : script[k]? = some script[k] := List.getElem?_eq_getElem hk
    have hhere : h ∈ (V (k + 1)).handlers ↔
        h ∈ (V k).handlers ∨ ∃ h', script[k]? = some (.event (.tryCatch h')) ∧ h = h'.map label := by
      have hhans := (H.turns hact).handlers
      rw [hact]
      generalize script[k] = act at hhans
      cases act with
      | newLabel => simp [hhans, actEvent]
      | event e => cases e <;> simp [hhans, actEvent, MethodEvent.map]
    rw [hhere, ih (Nat.le_of_succ_le hk), Nat.exists_lt_succ_right]

/-- A body that is written has a block. -/
theorem blocks_ne_nil (H : History script label V) (hk : k ≤ script.length) :
    (V k).stage = .declared ∨ (V k).blocks ≠ [] := by
  induction k with
  | zero =>
    obtain ⟨pool, hst⟩ := H.start
    exact .inl (by simp [hst])
  | succ k ih =>
    have hact : script[k]? = some script[k] := List.getElem?_eq_getElem hk
    have hblks := (H.turns hact).blocks
    cases hcase : script[k] with
    | newLabel =>
      rw [hcase] at hact
      rw [(H.newLabel k hact).1]
      exact ih (Nat.le_of_succ_le hk)
    | event e =>
      rw [hcase] at hact hblks
      have hsends := (H.event k e hact).2
      right
      rw [hblks]
      cases e with
      | code => simp [actEvent, MethodEvent.map, View.startedBy]
      | maxs stack locals => cases hsends
      | finish => cases hsends
      | _ =>
        have hopen : (V k).stage = .open := hsends.1
        exact List.append_ne_nil_of_left_ne_nil ((ih (Nat.le_of_succ_le hk)).resolve_left (by simp [hopen])) _

/-- The block that an instruction is written to. -/
theorem home (H : History script label V) {i : Instruction Nat} (hi : script.instruction? k = some i) :
    0 < (V k).blocks.length := by
  have hk := Script.getElem?_of_instruction hi
  have hopen : (V k).stage = .open := (H.event k _ hk).2.1
  exact List.length_pos_iff.2 ((H.blocks_ne_nil (Nat.le_of_lt (lt_length hk))).resolve_left (by simp [hopen]))

/-- The point at which a block starts. -/
theorem started_at (H : History script label V) (hm : m < (V script.length).blocks.length) :
    ∃ p, p < script.length ∧ (V p).blocks.length = m ∧ (V (p + 1)).blocks.length = m + 1 ∧ (V (p + 1)).bare = true := by
  have hfnd : ∀ k ≤ script.length, m < (V k).blocks.length → ∃ p, p < k ∧ (V p).blocks.length = m ∧
      (V (p + 1)).blocks.length = m + 1 ∧ (V (p + 1)).bare = true := by
    intro k
    induction k with
    | zero =>
      obtain ⟨pool, hst⟩ := H.start
      simp [hst]
    | succ k ih =>
      intro hk hmk
      by_cases hbef : m < (V k).blocks.length
      · obtain ⟨p, hp, hrest⟩ := ih (Nat.le_of_succ_le hk) hbef
        exact ⟨p, Nat.lt_succ_of_lt hp, hrest⟩
      · have hturns := H.turns (List.getElem?_eq_getElem hk)
        rcases (V k).event_cases (actEvent label script[k]) with ⟨l, hl, -, hbare, -⟩ | ⟨_, hnone, -⟩ | ⟨hnone, -⟩
        · have hlen : (V (k + 1)).blocks.length = (V k).blocks.length + 1 := by
            rw [hturns.blocks_of_started hl]
            simp
          exact ⟨k, Nat.lt_succ_self k, by omega, by omega, hturns.bare.trans hbare⟩
        · rw [hturns.blocks_of_not_started hnone] at hmk
          exact absurd hmk hbef
        · rw [hturns.blocks_of_not_started hnone] at hmk
          exact absurd hmk hbef
  exact hfnd _ (Nat.le_refl _) hm

/-- The block with a number starts by the act at `p`, and the next one has started at `q`, if there is one. -/
structure Spans (script : Script) (V : Nat → View) (m p q : Nat) : Prop where
  start : p < script.length
  le : p + 1 ≤ q
  stop : q ≤ script.length
  before : (V p).blocks.length = m
  started : (V (p + 1)).blocks.length = m + 1
  within : ∀ k, p + 1 ≤ k → k < q → (V k).blocks.length = m + 1
  behind : ∀ k, q ≤ k → k < script.length → m + 1 < (V k).blocks.length

/-- The points of a block are those with as many blocks. -/
theorem Spans.mem_iff (H : History script label V) (h : Spans script V m p q)
    (hk : k < script.length) : (V k).blocks.length = m + 1 ↔ p + 1 ≤ k ∧ k < q := by
  constructor
  · intro hlen
    refine ⟨Nat.lt_of_not_le fun hle => ?_, Nat.lt_of_not_le fun hle => ?_⟩
    · have hmono := H.length_mono hle (Nat.le_of_lt h.start)
      have hbef := h.before
      omega
    · have hmore := h.behind k hle hk
      omega
  · rintro ⟨hpk, hkq⟩
    exact h.within k hpk hkq

/-- An instruction is written to the block with a number exactly if there is code between that block and the next. -/
theorem size_lt_iff_home (H : History script label V) (h : Spans script V m p q) :
    (V (p + 1)).size < (V q).size ↔ ∃ k i, script.instruction? k = some i ∧ (V k).blocks.length = m + 1 := by
  rw [(H.size_lt_iff h.le h.stop).2]
  constructor
  · rintro ⟨k, hpk, hkq, hk⟩
    obtain ⟨i, hi⟩ := Option.isSome_iff_exists.1 hk
    exact ⟨k, i, hi, h.within k hpk hkq⟩
  · rintro ⟨k, i, hi, hlen⟩
    obtain ⟨hpk, hkq⟩ := (h.mem_iff H (lt_length (Script.getElem?_of_instruction hi))).1 hlen
    exact ⟨k, hpk, hkq, by simp [hi]⟩

end History

/-! ### Dead code -/

open Inference (Graph Block Arrives Finds HasVoid frameOf)
open History (Starts)

namespace Maps

variable {script : Script} {label : Nat → Label} {V : Nat → View} {g : Graph} {frames : Block → Option Frame}
  {entry : Label} (M : Maps script label V g frames entry) (hpln : script.HasNoSubroutines)
  (hnever : script.NeverUnderflows) (hordered : script.HandlersOrdered) {code : Nat}
  (hcode : script[code]? = some (.event .code))

include M hpln hnever hordered hcode

variable {b : Label} {k : Nat} {i : Instruction Nat}

/-- A block is entered with one height, if all paths agree on heights. -/
theorem arrives_unique (hagree : script.HeightsAgree) {n m : Nat} (hn : Arrives g frames entry b n)
    (hm : Arrives g frames entry b m) : n = m := by
  have hpair : ∀ {j k n m}, j ≤ k → k ≤ script.length → Starts V j b → Starts V k b → script.Reaches j (n : Nat) →
      script.Reaches k (m : Nat) → n = m := by
    intro j k n m hjk hk hj hk' hn hm
    obtain ⟨f, hpass, hreaches⟩ := M.reaches_within hpln hnever (passes_of_starts hj n)
      (by simpa [Frame.height] using hn) hjk hk hk'.current
    cases hk'.frame.symm.trans hpass.frame
    have heq := hagree k _ _ hreaches hm
    simp only [Frame.height] at heq
    simpa using heq
  obtain ⟨j, hj, hstarts, hreaches⟩ := M.reaches_of_arrives hpln hnever hordered hcode hn
  obtain ⟨k, hk, hstarts', hreaches'⟩ := M.reaches_of_arrives hpln hnever hordered hcode hm
  rcases Nat.le_total j k with hle | hle
  · exact hpair hle hk hstarts hstarts' hreaches hreaches'
  · exact (hpair hle hj hstarts' hstarts hreaches' hreaches).symm

omit hpln hnever hordered hcode in
/-- A block starts before the instructions that are written to it. -/
theorem starts_before {j : Nat} (hi : script.instruction? k = some i)
    (hb : (V script.length).blocks[(V k).blocks.length - 1]? = some b) (hj : j ≤ script.length) (hstarts : Starts V j b) :
    j ≤ k ∧ (V j).blocks.length = (V k).blocks.length := by
  have hnd := (M.history.tidy (Nat.le_refl _)).nodup
  obtain ⟨hnum, hpos⟩ := M.history.getElem?_of_current hj hstarts.current
  have hsame := (List.getElem?_inj (List.getElem?_eq_some_iff.1 hb).1 hnd).1 (hb.trans hnum.symm)
  have hhome := M.history.home hi
  refine ⟨Nat.le_of_not_lt fun hlt => ?_, by omega⟩
  -- otherwise something would have been emitted behind its start
  rcases M.history.passed_instruction hi hlt hj with hmore | ⟨-, hbare⟩
  · omega
  · rw [hstarts.bare] at hbare
    cases hbare

/-- Control gets to an instruction exactly if edges lead to its block. -/
theorem reaches_iff_arrives (hi : script.instruction? k = some i)
    (hb : (V script.length).blocks[(V k).blocks.length - 1]? = some b) :
    (∃ height, script.Reaches k height) ↔ ∃ n, Arrives g frames entry b n := by
  have hk := Nat.le_of_lt (History.lt_length (Script.getElem?_of_instruction hi))
  constructor
  · rintro ⟨height, hreaches⟩
    obtain ⟨c, n, f, hpass, harr, -⟩ := M.arrives_of_reaches hpln hnever hreaches
    have hc := (M.history.getElem?_of_current hk hpass.current).1
    cases hb.symm.trans hc
    exact ⟨n, harr⟩
  · rintro ⟨n, harr⟩
    obtain ⟨j, hj, hstarts, hreaches⟩ := M.reaches_of_arrives hpln hnever hordered hcode harr
    obtain ⟨hjk, hlen⟩ := M.starts_before hi hb hj hstarts
    have hcur := M.current_of_length hstarts.current hjk hk hlen.symm
    obtain ⟨f, -, hreached⟩ := M.reaches_within hpln hnever (passes_of_starts hstarts n)
      (by simpa [Frame.height] using hreaches) hjk hk hcur
    exact ⟨_, hreached⟩

end Maps

/-! ### The writer -/

/-- The states of a writer that performs a script, with their views. -/
structure Traces (script : Script) (σ : Nat → Session) (s : Session) : Prop where
  history : History script s.label fun k => view (σ k).writer
  last : σ script.length = s
  framed : ∀ k ≤ script.length, Framed (σ k).writer
  performed : ∀ k act, script[k]? = some act → (σ k).perform act = some (σ (k + 1))

/-- Where the block with a number ends: where the next one starts, or at the end of the code. -/
def stopOf (w : MethodWriter) (m : Nat) : Nat := (w.blocks.toList[m + 1]?.map w.labels.position).getD w.code.size

namespace Traces

variable {script : Script} {σ : Nat → Session} {s : Session} (T : Traces script σ s)

include T

variable {k m : Nat} {b : Label}

theorem step {j : Nat} (hjk : j ≤ k) (hk : k ≤ script.length) : Step (σ j).writer (σ k).writer := by
  induction k, hjk using Nat.le_induction with
  | base => exact .refl _
  | succ k hjk ih =>
    refine (ih (Nat.le_of_succ_le hk)).trans ?_
    exact step_of_perform (T.performed k _ (List.getElem?_eq_getElem hk))

theorem apt {i : Instruction Nat} (hi : script.instruction? k = some i) : i.IsApt := by
  have hperf := T.performed k _ (Script.getElem?_of_instruction hi)
  obtain ⟨-, -, -, hsend⟩ := Session.perform_event hperf
  exact (Instruction.isApt_map _ i).1 (isApt_of_write (write_of_send hsend))

/-- A block in which nothing has been emitted yet starts here. -/
theorem position_of_bare (hk : k ≤ script.length) (hbare : (view (σ k).writer).bare = true)
    (hb : (view (σ k).writer).blocks.getLast? = some b) :
    s.writer.labels.position b = (view (σ k).writer).size := by
  have hlast : (σ k).writer.blocks.back? = some b := by
    rw [← Array.getLast?_toList]
    exact hb
  have hposition : (σ k).writer.labels.position? b = some (σ k).writer.code.size := by
    have hstarts : startsAt (σ k).writer.labels (σ k).writer.blocks (σ k).writer.code.size = true := hbare
    simpa [startsAt, hlast] using hstarts
  have hkept := (T.step hk (Nat.le_refl _)).kept b _ hposition
  rw [T.last] at hkept
  rw [LabelTable.position, hkept]
  rfl

/-- A block has the position at which it started. -/
theorem position_of_started {p : Nat} (hp : p < script.length) (hlen : (view (σ (p + 1)).writer).blocks.length = m + 1)
    (hbare : (view (σ (p + 1)).writer).bare = true) (hb : s.writer.blocks.toList[m]? = some b) :
    s.writer.labels.position b = (view (σ (p + 1)).writer).size := by
  obtain ⟨rest, hrest⟩ := T.history.blocks_prefix (j := p + 1) hp (Nat.le_refl _)
  refine T.position_of_bare hp hbare ?_
  have hnum : (view (σ (p + 1)).writer).blocks[m]? = some b := by
    rw [← hb, ← T.last]
    show _ = (view (σ script.length).writer).blocks[m]?
    rw [← hrest, List.getElem?_append_left (by omega)]
  rw [List.getLast?_eq_getElem?, hlen, Nat.add_sub_cancel]
  exact hnum

theorem blocks_end : (view (σ script.length).writer).blocks = s.writer.blocks.toList := by
  rw [T.last]
  rfl

/-- The points of a block, and its bytes. -/
theorem spans (hb : s.writer.blocks.toList[m]? = some b) :
    ∃ p q, History.Spans script (fun k => view (σ k).writer) m p q ∧ (view (σ (p + 1)).writer).bare = true ∧
      s.writer.labels.position b = (view (σ (p + 1)).writer).size ∧ stopOf s.writer m = (view (σ q).writer).size := by
  have hm : m < s.writer.blocks.toList.length := (List.getElem?_eq_some_iff.1 hb).1
  obtain ⟨p, hp, hbef, hst, hbare⟩ := T.history.started_at (by rw [T.blocks_end]; exact hm)
  have hposition := T.position_of_started hp hst hbare hb
  have haft : ∀ k, p + 1 ≤ k → k ≤ script.length → m + 1 ≤ (view (σ k).writer).blocks.length := by
    intro k hpk hk
    have hmono := T.history.length_mono hpk hk
    omega
  cases hnext : s.writer.blocks.toList[m + 1]? with
  | none =>
    have hlen : s.writer.blocks.toList.length = m + 1 := Nat.le_antisymm (List.getElem?_eq_none_iff.1 hnext) hm
    refine ⟨p, script.length, ⟨hp, hp, Nat.le_refl _, hbef, hst, fun k hpk hk => ?_, by omega⟩, hbare, hposition, ?_⟩
    · have hmono := T.history.length_mono (Nat.le_of_lt hk) (Nat.le_refl _)
      rw [T.blocks_end, hlen] at hmono
      exact Nat.le_antisymm hmono (haft k hpk (Nat.le_of_lt hk))
    · rw [stopOf, hnext, Option.map_none, Option.getD_none, T.last]
      rfl
  | some c =>
    obtain ⟨q, hq, hbef', hst', hbare'⟩ := T.history.started_at (by
      rw [T.blocks_end]
      exact (List.getElem?_eq_some_iff.1 hnext).1)
    have hpq : p + 1 ≤ q + 1 := by
      refine Nat.le_of_not_lt fun hle => ?_
      have hmono := T.history.length_mono (Nat.le_of_lt_succ hle) (Nat.le_of_lt hp)
      omega
    refine ⟨p, q + 1, ⟨hp, hpq, hq, hbef, hst, fun k hpk hk => ?_, fun k hqk hk => ?_⟩, hbare, hposition, ?_⟩
    · have hmono := T.history.length_mono (Nat.le_of_lt_succ hk) (Nat.le_of_lt hq)
      exact Nat.le_antisymm (by omega) (haft k hpk (by omega))
    · have hmono := T.history.length_mono hqk (Nat.le_of_lt hk)
      omega
    · rw [stopOf, hnext, Option.map_some, Option.getD_some, T.position_of_started hq hst' hbare' hnext]

/-- A block has code exactly if an instruction was written to it. -/
theorem lt_stop_iff (hb : s.writer.blocks.toList[m]? = some b) :
    s.writer.labels.position b < stopOf s.writer m ↔
      ∃ k i, script.instruction? k = some i ∧ (view (σ k).writer).blocks.length = m + 1 := by
  obtain ⟨p, q, hspans, -, hst, hstop⟩ := T.spans hb
  rw [hst, hstop]
  exact T.history.size_lt_iff_home hspans

/-- A block is voided exactly if an instruction was written to it and it is not reached. -/
theorem hasVoid_iff {labels : LabelTable} (hlabs : ∀ l, labels.position l = s.writer.labels.position l) :
    HasVoid labels s.writer.code.size s.writer.blocks.toList ↔
      ∃ k i b, script.instruction? k = some i ∧
        s.writer.blocks.toList[(view (σ k).writer).blocks.length - 1]? = some b ∧
        (labels.info b).typed.isReachable = false := by
  constructor
  · rintro ⟨m, b, hb, hunreached, hlt⟩
    simp only [hlabs, funext hlabs] at hlt
    obtain ⟨k, i, hi, hlen⟩ := (T.lt_stop_iff hb).1 hlt
    exact ⟨k, i, b, hi, by rw [hlen]; exact hb, hunreached⟩
  · rintro ⟨k, i, b, hi, hb, hunreached⟩
    have hhome := T.history.home hi
    refine ⟨_, b, hb, hunreached, ?_⟩
    simp only [hlabs, funext hlabs]
    exact (T.lt_stop_iff hb).2 ⟨k, i, hi, by omega⟩

/-- **What inference works on is what the script says.** -/
theorem maps (hpl : ∀ {k i n}, script.instruction? k = some i → n ∈ i.places → ∃ target, script.Places target n)
    (hhandled : ∀ {h}, .event (.tryCatch h) ∈ script → ∃ start stop handler, script.Handles h start stop handler)
    {entry : Label} (hent : s.writer.blocks[0]? = some entry) {w₁ : MethodWriter} {u : PUnit}
    (hcatch : s.writer.handlers.toList.forM addCatchEdges s.writer = .ok u w₁) :
    Maps script s.label (fun k => view (σ k).writer) (Graph.of w₁) (frameOf s.writer) entry := by
  have hend : (σ script.length).writer = s.writer := by rw [T.last]
  have hfrd := T.framed _ (Nat.le_refl _)
  have htidy := T.history.tidy (Nat.le_refl _)
  rw [hend] at hfrd htidy
  have hfst : ∀ l, w₁.labels.first l = (view s.writer).first l := fun l => by
    rw [LabelTable.first, (sameFrames_forM hcatch).labels.canonical]
    rfl
  have hedges := catchEdges (fun b hb => hfrd.lt_size hb) hcatch
  refine ⟨T.history, T.apt, hpl, fun b => by rw [hend]; rfl, ?_, fun b t => ?_, fun b t => ?_⟩
  · rw [hend, ← hent]
    exact Array.getElem?_toList ..
  · simp only [hend, Graph.of, List.mem_map, Prod.mk.injEq, hfst]
    constructor
    · rintro ⟨⟨edge, l⟩, hmem, rfl, rfl⟩
      exact ⟨l, by simpa [view] using (hedges b l).1.1 (by simpa using hmem), rfl⟩
    · rintro ⟨l, hmem, rfl⟩
      exact ⟨(.normal, l), by simpa using (hedges b l).1.2 (by simpa [view] using hmem), rfl, rfl⟩
  · simp only [hend, Graph.of, List.mem_map, Prod.mk.injEq, hfst]
    have hnone : ∀ l, ¬ ∃ row, (.caught row, l) ∈ (s.writer.labels.info b).typed.edges := by
      rintro l ⟨row, hmem⟩
      have hedge : (.caught row, l) ∈ (view (σ script.length).writer).edges b := by
        rw [hend]
        simpa [view] using hmem
      obtain ⟨l', heq⟩ := T.history.edges_normal (Nat.le_refl _) hedge
      cases heq
    have hagain : ∀ l, (view s.writer).first ((view s.writer).first l) = (view s.writer).first l := htidy.first_first
    have hrng : ∀ {h : Handler Nat}, blockRange (view s.writer).blocks.toArray ((view s.writer).first (s.label h.start))
        ((view s.writer).first (s.label h.stop)) =
        blockRange s.writer.blocks (s.writer.labels.first (h.map s.label).start)
          (s.writer.labels.first (h.map s.label).stop) := by
      simp [view, View.first, LabelTable.first, Handler.map]
    simp only [hrng]
    constructor
    · rintro ⟨row, ⟨edge, l⟩, hmem, rfl, rfl⟩
      obtain ⟨h', hh', hb, rfl⟩ := ((hedges b l).2.1 ⟨row, by simpa using hmem⟩).resolve_left (hnone l)
      obtain ⟨j, hj, h, hscript, rfl⟩ := (T.history.mem_handlers (Nat.le_refl _)).1 (by rw [hend]; exact hh')
      obtain ⟨start, stop, handler, hhdl⟩ := hhandled (List.mem_of_getElem? hscript)
      exact ⟨h, start, stop, handler, hhdl, hb, (hagain _).symm⟩
    · rintro ⟨h, start, stop, handler, hhdl, hb, rfl⟩
      obtain ⟨j, hj⟩ := List.getElem?_of_mem hhdl.mem
      have hmem := (T.history.mem_handlers (Nat.le_refl _)).2 ⟨j, History.lt_length hj, h, hj, rfl⟩
      rw [hend] at hmem
      obtain ⟨row, hrow⟩ := (hedges b _).2.2 (.inr ⟨h.map s.label, hmem, hb, rfl⟩)
      exact ⟨row, (.caught row, s.writer.labels.first (s.label h.handler)), Array.mem_toList_iff.2 hrow, rfl, hagain _⟩

end Traces

section
variable {context : ClassContext} {d : Declaration} {descriptor : MethodDescriptor} {pool : Pool}
  {methods : Array (Member .ofMethod)} {script : Script} {s : Session} {w' : MethodWriter} {stack locals : UInt16}

theorem unclosed_of_performs (h : (start context .frames d descriptor pool methods).Performs script s) :
    s.writer.Unclosed := by
  induction script using List.reverseRecOn generalizing s with
  | nil =>
    cases h
    exact .start ..
  | append_singleton script act ih =>
    obtain ⟨before, hbef, hperf⟩ := h.concat
    have hunclosed := ih hbef
    cases act with
    | newLabel =>
      rw [Session.perform_newLabel hperf]
      exact hunclosed.newLabel
    | event e =>
      obtain ⟨hbody, -, -, hsend⟩ := Session.perform_event hperf
      have hnext := hunclosed.send (e.map before.label) (by rwa [MethodEvent.endsBody_map])
      rwa [hsend] at hnext

/-- **The stack size that inference finds** is the largest height of the control flow graph. Where control does not get to
some instruction, it is one at least. -/
theorem maxStack_of_frames (h : (start context .frames d descriptor pool methods).Performs script s)
    (hmaxs : send (.maxs stack locals) s.writer = .ok () w') (hpln : script.HasNoSubroutines)
    (hordered : script.HandlersOrdered) (hagree : script.HeightsAgree) (hnever : script.NeverUnderflows)
    (hpl : ∀ {k i n}, script.instruction? k = some i → n ∈ i.places → ∃ target, script.Places target n)
    (hhandled : ∀ {h}, .event (.tryCatch h) ∈ script → ∃ start stop handler, script.Handles h start stop handler)
    {code : Nat} (hcode : script[code]? = some (.event .code)) :
    (∃ n, script.IsLargestHeight n ∧ (script.HasDeadCode → w'.maxStack = max n 1) ∧
      (¬ script.HasDeadCode → w'.maxStack = n)) ∧ w'.maxLocals = s.writer.maxLocals := by
  obtain ⟨σ, hhistory, hlast, hfrd, hperformed⟩ := history_of_performs h
  have T : Traces script σ s := ⟨hhistory, hlast, hfrd, hperformed⟩
  have huninferred := (unclosed_of_performs h).uninferred
  obtain ⟨w₁, hinfer, hseal⟩ := send_maxs_ok huninferred hmaxs
  obtain ⟨entry, -, hent⟩ := hhistory.starts_of_code hcode
  replace hent : s.writer.blocks[0]? = some entry := by
    rw [← hent, hlast]
    exact (Array.getElem?_toList ..).symm
  obtain ⟨w₂, labels, largest, u, hcatch, hfinds⟩ := Inference.inferFrames_largest huninferred hent hinfer
  have M := T.maps hpl hhandled hent hcatch
  have hlargest : script.IsLargestHeight largest := by
    refine ⟨fun k height hreaches => ?_, ?_⟩
    · obtain ⟨b, m, f, harr, hf, hle⟩ := M.le_peak hpln hnever hreaches
      obtain ⟨m', f', harr', hf', hbound⟩ := hfinds.bound b ⟨m, harr⟩
      cases hf.symm.trans hf'
      have hsame := M.arrives_unique hpln hnever hordered hcode hagree harr harr'
      omega
    · rcases hfinds.attained with hzero | ⟨b, m, f, harr, hf, hsum⟩
      · rw [hzero]
        exact ⟨code + 1, .entry hcode⟩
      · obtain ⟨f', k, hf', hreaches⟩ := M.reaches_peak hpln hnever hordered hcode harr
        cases hf.symm.trans hf'
        rw [hsum]
        exact ⟨k, by simpa using hreaches⟩
  -- a block is voided exactly if it has dead code
  have hdead : HasVoid labels s.writer.code.size s.writer.blocks.toList ↔ script.HasDeadCode := by
    rw [T.hasVoid_iff hfinds.position]
    have hend : (view (σ script.length).writer).blocks = s.writer.blocks.toList := by rw [hlast]; rfl
    have hreached : ∀ {k i b}, script.instruction? k = some i →
        s.writer.blocks.toList[(view (σ k).writer).blocks.length - 1]? = some b →
        ((labels.info b).typed.isReachable = false ↔ ∀ height, ¬ script.Reaches k height) := by
      intro k i b hi hb
      rw [← Bool.not_eq_true, hfinds.reached_iff, ← M.reaches_iff_arrives hpln hnever hordered hcode hi (by rw [hend]; exact hb)]
      exact not_exists
    constructor
    · rintro ⟨k, i, b, hi, hb, hunreached⟩
      exact ⟨k, i, hi, (hreached hi hb).1 hunreached⟩
    · rintro ⟨k, i, hi, hunreached⟩
      have hhome := hhistory.home hi
      have hmono := hhistory.length_mono (Nat.le_of_lt (History.lt_length (Script.getElem?_of_instruction hi))) (Nat.le_refl _)
      rw [hend] at hmono
      have hb := List.getElem?_eq_getElem (l := s.writer.blocks.toList) (i := (view (σ k).writer).blocks.length - 1) (by omega)
      exact ⟨k, i, _, hi, hb, (hreached hi hb).2 hunreached⟩
  rw [hseal, ← hdead]
  exact ⟨⟨largest, hlargest, hfinds.void, hfinds.noVoid⟩, hfinds.maxLocals⟩

end

end Framing

end JvmAssembler
