import JvmAssembler.Proofs.Framing.Points
import JvmAssembler.Proofs.StackSizes

/-!
# JvmAssembler.Proofs.Framing.Ranges

The blocks of protected ranges.

Blocks that start at the same position are one, so a range of labels has exactly the blocks in which an instruction of the
range stands. The number of blocks up to a point tells them apart: it grows between an instruction and a label behind it
(`length_lt_of_instruction`), and it does not grow as long as there is no instruction (`instruction_between`).
-/

namespace JvmAssembler

/-! ### Ranges of lists -/

theorem span_ne {α : Type} [DecidableEq α] {as : List α} (hnd : as.Nodup) {a : α} {i : Nat} (hi : as[i]? = some a) :
    as.takeWhile (fun b => decide (b ≠ a)) = as.take i ∧ as.dropWhile (fun b => decide (b ≠ a)) = as.drop i := by
  induction as generalizing i with
  | nil => simp at hi
  | cons c cs ih =>
    obtain ⟨hc, hcs⟩ := List.nodup_cons.1 hnd
    cases i with
    | zero =>
      obtain rfl : c = a := by simpa using hi
      simp
    | succ i =>
      have hne : c ≠ a := by
        rintro rfl
        exact hc (List.mem_of_getElem? (by simpa using hi))
      obtain ⟨htake, hdrop⟩ := ih hcs (by simpa using hi)
      rw [List.takeWhile_cons_of_pos (by simpa using hne), List.dropWhile_cons_of_pos (by simpa using hne), htake, hdrop]
      exact ⟨rfl, rfl⟩

/-- The blocks between two blocks, by their numbers. -/
theorem mem_blockRange {blocks : List Label} (hnd : blocks.Nodup) {first last : Label} {i j : Nat}
    (hi : blocks[i]? = some first) (hj : blocks[j]? = some last) (hij : i ≤ j) (b : Label) :
    b ∈ blockRange blocks.toArray first last ↔ ∃ k, i ≤ k ∧ k < j ∧ blocks[k]? = some b := by
  have hlast : (blocks.drop i)[j - i]? = some last := by
    rw [List.getElem?_drop, Nat.add_sub_cancel' hij, hj]
  rw [blockRange, (span_ne hnd hi).2, (span_ne (hnd.sublist (List.drop_sublist i blocks)) hlast).1,
    List.mem_iff_getElem?]
  constructor
  · rintro ⟨k, hk⟩
    rw [List.getElem?_take] at hk
    split at hk
    · rw [List.getElem?_drop] at hk
      exact ⟨i + k, by omega, by omega, hk⟩
    · cases hk
  · rintro ⟨k, hik, hkj, hk⟩
    refine ⟨k - i, ?_⟩
    rw [List.getElem?_take, if_pos (by omega), List.getElem?_drop, Nat.add_sub_cancel' hik, hk]

namespace Framing

namespace History

variable {sc : Script} {label : Nat → Label} {V : Nat → View}

/-! ### The number of blocks -/

variable {k q start stop handler : Nat} {b : Label} {i : Instruction Nat} {h : Handler Nat}

theorem length_mono (H : History sc label V) {j : Nat} (hjk : j ≤ k) (hk : k ≤ sc.length) :
    (V j).blocks.length ≤ (V k).blocks.length := (H.blocks_prefix hjk hk).length_le

/-- The current block is the last one so far. -/
theorem getElem?_of_current (H : History sc label V) (hk : k ≤ sc.length) (hb : (V k).current = some b) :
    (V sc.length).blocks[(V k).blocks.length - 1]? = some b ∧ 0 < (V k).blocks.length := by
  have hlast := (H.tidy hk).last b hb
  obtain ⟨rest, hrest⟩ := H.blocks_prefix hk (Nat.le_refl _)
  have hpos : 0 < (V k).blocks.length := List.length_pos_of_mem (List.mem_of_getLast? hlast)
  refine ⟨?_, hpos⟩
  rw [← hrest, List.getElem?_append_left (by omega), ← List.getLast?_eq_getElem?, hlast]

/-- Two points in one block have the same number of blocks. -/
theorem length_eq_of_current (H : History sc label V) {j : Nat} (hj : j ≤ sc.length) (hk : k ≤ sc.length) (hbj : (V j).current = some b) (hbk : (V k).current = some b) :
    (V j).blocks.length = (V k).blocks.length := by
  obtain ⟨hfst, hpos⟩ := H.getElem?_of_current hj hbj
  obtain ⟨hsec, hpos'⟩ := H.getElem?_of_current hk hbk
  have hsame := (List.getElem?_inj (List.getElem?_eq_some_iff.1 hfst).1 (H.tidy (Nat.le_refl _)).nodup).1
    (hfst.trans hsec.symm)
  omega

/-- Behind an instruction, either a block has started or something has been emitted in the last one. -/
theorem passed_instruction (H : History sc label V)
    (hi : sc.instruction? k = some i) (hkq : k < q) (hq : q ≤ sc.length) :
    (V k).blocks.length < (V q).blocks.length ∨ (V k).blocks.length = (V q).blocks.length ∧ (V q).bare = false := by
  refine H.from_point (P := fun v => (V k).blocks.length < v.blocks.length ∨
    (V k).blocks.length = v.blocks.length ∧ v.bare = false) hkq hq ?_ ?_
  · have hact : sc[k]? = some sc[k] := List.getElem?_eq_getElem (Nat.lt_of_lt_of_le hkq hq)
    have hturns := H.turns hact
    have hins : (actEvent label sc[k]).instructions ≠ [] := by
      rw [instructions_actEvent hact, hi]
      simp
    rcases (V k).event_cases (actEvent label sc[k]) with ⟨l, hl, -⟩ | ⟨_, -, -, -, -, -, -, hnone⟩ | ⟨hnone, -, -, -, hbare⟩
    · rw [hturns.blocks_of_started hl]
      exact .inl (by simp)
    · exact absurd hnone hins
    · rw [hturns.blocks_of_not_started hnone, hturns.bare]
      exact .inr ⟨rfl, hbare hins⟩
  · intro v v' e _ hturns hv
    rcases v.event_cases e with ⟨l, hl, -⟩ | ⟨_, hnone, -, hbare, -⟩ | ⟨hnone, -, -, hquiet, hactive⟩
    · rw [hturns.blocks_of_started hl, List.length_append]
      exact .inl (by simp; omega)
    · rw [hturns.blocks_of_not_started hnone]
      exact .inl (hv.resolve_right fun hv => by simp [hbare] at hv)
    · rw [hturns.blocks_of_not_started hnone, hturns.bare]
      refine hv.imp id fun hv => ⟨hv.1, ?_⟩
      by_cases he : e.instructions = []
      · rw [(hquiet he).1]
        exact hv.2
      · exact hactive he

/-- Where a label is placed behind an instruction, another block has started. -/
theorem length_lt_of_instruction (H : History sc label V) {n : Nat}
    (hi : sc.instruction? k = some i) (hkq : k < q) (hq : sc.Places q n) :
    (V k).blocks.length < (V (q + 1)).blocks.length := by
  have hqlt := lt_length hq
  have hturns : (V q).Turns (.label (label n)) (V (q + 1)) := H.turns hq
  rcases H.passed_instruction hi hkq (Nat.le_of_lt hqlt) with hmore | ⟨hsame, hbare⟩
  · exact Nat.lt_of_lt_of_le hmore (H.length_mono (Nat.le_succ q) hqlt)
  · rw [hturns.blocks_of_started (l := label n) (by simp [View.startedBy, hbare]), hsame]
    simp

/-- Where another block has started by a label, there is an instruction in between. -/
theorem instruction_between (H : History sc label V) {n : Nat} (hstarts : Starts V k b) (hkq : k ≤ q)
    (hq : sc.Places q n) (hmore : (V k).blocks.length < (V (q + 1)).blocks.length) :
    ∃ j, k ≤ j ∧ j < q ∧ (sc.instruction? j).isSome = true := by
  have hqlt := lt_length hq
  by_contra hnone
  have hquiet : ∀ j, k ≤ j → j < q → sc.instruction? j = none := by
    intro j hkj hjq
    exact Option.not_isSome_iff_eq_none.1 fun hj => hnone ⟨j, hkj, hjq, hj⟩
  -- without instructions, labels join the block that has started
  have hsame : ∀ j, k ≤ j → j ≤ q → (V j).blocks.length = (V k).blocks.length ∧ (V j).bare = true := by
    intro j hkj
    induction j, hkj using Nat.le_induction with
    | base => exact fun _ => ⟨rfl, hstarts.bare⟩
    | succ j hkj ih =>
      intro hjq
      obtain ⟨hlen, hbare⟩ := ih (Nat.le_of_succ_le hjq)
      have hact : sc[j]? = some sc[j] := List.getElem?_eq_getElem (Nat.lt_trans hjq hqlt)
      have hturns := H.turns hact
      have hins : (actEvent label sc[j]).instructions = [] := by
        rw [instructions_actEvent hact, hquiet j hkj hjq]
        rfl
      have hcode : actEvent label sc[j] ≠ .code := by
        intro hcode
        obtain ⟨-, -, hnot⟩ := (H.tidy (Nat.le_of_lt (lt_length hact))).declared (H.declared_of_code hact hcode)
        rw [hbare] at hnot
        cases hnot
      rcases (V j).event_cases (actEvent label sc[j]) with ⟨l, hl, -⟩ | ⟨_, hnone, -, -, haft, -⟩ | ⟨hnone, -, -, haft, -⟩
      · cases he : actEvent label sc[j] with
        | code => exact absurd he hcode
        | label m => simp [he, View.startedBy, hbare] at hl
        | instruction i => simp [he, MethodEvent.instructions] at hins
        | _ => simp [he, View.startedBy] at hl
      · rw [hturns.blocks_of_not_started hnone, hturns.bare]
        exact ⟨hlen, haft⟩
      · rw [hturns.blocks_of_not_started hnone, hturns.bare, (haft hins).1]
        exact ⟨hlen, hbare⟩
  obtain ⟨hlen, hbare⟩ := hsame q hkq (Nat.le_refl q)
  have hturns : (V q).Turns (.label (label n)) (V (q + 1)) := H.turns hq
  rw [hturns.blocks_of_not_started (by simp [View.startedBy, hbare]), hlen] at hmore
  exact Nat.lt_irrefl _ hmore

/-! ### Protected ranges -/

/-- The blocks of a protected range, by their numbers. -/
theorem mem_range (H : History sc label V)
    (hhdl : sc.Handles h start stop handler) (hordered : start < stop) (hk : k ≤ sc.length) (hb : (V k).current = some b) :
    b ∈ blockRange (V sc.length).blocks.toArray ((V sc.length).first (label h.start))
        ((V sc.length).first (label h.stop)) ↔
      (V (start + 1)).blocks.length ≤ (V k).blocks.length ∧ (V k).blocks.length < (V (stop + 1)).blocks.length := by
  have hnd := (H.tidy (Nat.le_refl _)).nodup
  have hst : start + 1 ≤ sc.length := lt_length hhdl.start
  have hstop : stop + 1 ≤ sc.length := lt_length hhdl.stop
  obtain ⟨hfst, hpos⟩ := H.getElem?_of_current hst (H.starts_of_places hhdl.start).current
  obtain ⟨hlast, hpos'⟩ := H.getElem?_of_current hstop (H.starts_of_places hhdl.stop).current
  obtain ⟨hnum, hpos''⟩ := H.getElem?_of_current hk hb
  have hmono : (V (start + 1)).blocks.length ≤ (V (stop + 1)).blocks.length := H.length_mono (by omega) hstop
  rw [mem_blockRange hnd hfst hlast (by omega)]
  constructor
  · rintro ⟨m, hle, hlt, hm⟩
    have hsame := (List.getElem?_inj (List.getElem?_eq_some_iff.1 hnum).1 hnd).1 (hnum.trans hm.symm)
    omega
  · rintro ⟨hle, hlt⟩
    exact ⟨_, by omega, by omega, hnum⟩

/-- An instruction of a protected range stands in a block of the range. -/
theorem mem_range_of_instruction (H : History sc label V)
    (hhdl : sc.Handles h start stop handler) (hi : sc.instruction? k = some i)
    (hst : start < k) (hstop : k < stop) (hb : (V k).current = some b) :
    b ∈ blockRange (V sc.length).blocks.toArray ((V sc.length).first (label h.start))
      ((V sc.length).first (label h.stop)) := by
  have hk : k ≤ sc.length := Nat.le_of_lt (Nat.lt_trans hstop (lt_length hhdl.stop))
  rw [H.mem_range hhdl (Nat.lt_trans hst hstop) hk hb]
  exact ⟨H.length_mono hst hk, H.length_lt_of_instruction hi hstop hhdl.stop⟩

/-- A block of a protected range to which control gets has an instruction of the range to which control gets. -/
theorem reaches_of_mem_range (H : History sc label V)
    (hhdl : sc.Handles h start stop handler) (hordered : start < stop) (hk : k ≤ sc.length) (hstarts : Starts V k b) (hb : b ∈ blockRange (V sc.length).blocks.toArray
      ((V sc.length).first (label h.start)) ((V sc.length).first (label h.stop)))
    {height : Int} (hreaches : sc.Reaches k height) : sc.Reaches (handler + 1) 1 := by
  obtain ⟨hle, hlt⟩ := (H.mem_range hhdl hordered hk hstarts.current).1 hb
  have hkstop : k ≤ stop := by
    refine Nat.le_of_not_lt fun hnot => ?_
    exact absurd (H.length_mono (j := stop + 1) hnot hk) (Nat.not_le_of_lt hlt)
  obtain ⟨j, hkj, hjstop, hj⟩ := H.instruction_between hstarts hkstop hhdl.stop hlt
  obtain ⟨first, i, hkfirst, hfirstj, hi, hreached⟩ := hreaches.first_instruction hkj hj
  have hst : start < first := by
    refine Nat.lt_of_not_le fun hnot => ?_
    rcases Nat.lt_or_eq_of_le hnot with hbef | rfl
    · have := H.length_lt_of_instruction hi hbef hhdl.start
      have := H.length_mono hkfirst (Nat.le_trans hnot (Nat.le_of_lt (lt_length hhdl.start)))
      omega
    · simp [Script.instruction?, show sc[first]? = _ from hhdl.start] at hi
  exact hreached.flow (.caught hi hhdl hst (Nat.lt_of_le_of_lt hfirstj hjstop))

end History

end Framing

end JvmAssembler
