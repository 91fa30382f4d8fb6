import JvmAssembler.Proofs.Framing.Writing

/-!
# JvmAssembler.Proofs.Framing.Division

How a method is divided into blocks, where frames are computed.

* `View.Turns` says all that an event does: which edges the current block gets, how it is interpreted, whether a block
  starts, and where the next event finds itself.
* `View.Tidy` is what holds between events. A block in which nothing has been emitted yet, or that control does not reach,
  has done nothing, so that it makes no difference whether a label heads it or joins it.
-/

namespace JvmAssembler

namespace Framing

namespace View

def startedBy (v : View) : MethodEvent Label → Option Label
  | .code => some v.fresh
  | .label l => if v.bare then none else some l
  | .instruction i =>
    if if v.current.isSome then i.splits || !i.fallsThrough else i.isStore then some v.fresh else none
  | _ => none

def currentAfter (v : View) : MethodEvent Label → Option Label
  | .code => some v.fresh
  | .label l => if v.bare then v.blocks.getLast? else some l
  | .instruction i =>
    if if v.current.isSome then i.splits else i.isStore then some v.fresh
    else if i.fallsThrough then v.current else none
  | _ => v.current

/-- The labels that the current block leads to by an event. -/
def targetsBy (v : View) : MethodEvent Label → List Label
  | .label l => if v.bare then [] else [l]
  | .instruction i => i.places ++ if i.splits then [v.fresh] else []
  | _ => []

def joinedBy (v : View) : MethodEvent Label → Option Label
  | .label l => if v.bare then some l else none
  | _ => none

/-- Whether nothing has been emitted since the last block started, after an event. -/
def bareAfter (v : View) : MethodEvent Label → Bool
  | .code | .label _ => true
  | .instruction i => (v.startedBy (.instruction i)).isSome
  | _ => v.bare

/-- What holds between events. -/
structure Tidy (v : View) : Prop where
  declared : v.stage = .declared → v.blocks = [] ∧ v.current = none ∧ v.bare = false
  last : ∀ b, v.current = some b → v.blocks.getLast? = some b
  nodup : v.blocks.Nodup
  blocks : ∀ b ∈ v.blocks, b < v.fresh
  joined : ∀ l b, v.joined l = some b → l < v.fresh ∧ l ∉ v.blocks ∧ b ∈ v.blocks
  unused : ∀ b, b ∉ v.blocks → v.edges b = []
  bare : v.bare = true → v.blocks ≠ []
  /-- A block that has not been entered has done nothing. -/
  untouched : v.bare = true ∨ v.current = none → ∀ b, v.blocks.getLast? = some b → v.frame b = some {} ∧ v.edges b = []

/-- What an event does. -/
structure Turns (v : View) (e : MethodEvent Label) (v' : View) : Prop where
  declared : v'.stage = .declared → v.stage = .declared ∧ v'.blocks = v.blocks ∧ v'.current = v.current ∧ v'.bare = v.bare
  current : v'.current = v.currentAfter e
  blocks : v'.blocks = v.blocks ++ (v.startedBy e).toList
  edges : ∀ b, v'.edges b =
    v.edges b ++ if v.current = some b then (v.targetsBy e).map fun l => (.normal, l) else []
  joined : ∀ l, v'.joined l = if v.joinedBy e = some l then v.blocks.getLast? else v.joined l
  started : ∀ b, v.startedBy e = some b → v'.frame b = some {}
  /-- Labels are placed once. -/
  placed : ∀ l, v.startedBy e = some l ∨ v.joinedBy e = some l → l < v'.fresh ∧ ¬ v.Placed l
  /-- Only instructions change blocks, and only the current one. -/
  kept : ∀ b ∈ v.blocks, (v.current = some b → e.instructions = []) → v'.frame b = v.frame b
  interpreted : ∀ b, v.current = some b → ∀ i ∈ e.instructions, ∃ f pool s, v.frame b = some f ∧
    Pool.Enlarges v.pool pool ∧ i.interpretation v.size ⟨f, pool⟩ = .ok () s ∧ v'.frame b = some s.frame ∧ v'.pool = s.pool
  bare : v'.bare = v.bareAfter e
  fresh : v.fresh ≤ v'.fresh
  handlers : v'.handlers = v.handlers ++ match e with
    | .tryCatch h => [h]
    | _ => []

def first (v : View) (l : Label) : Label := (v.joined l).getD l

theorem Tidy.mem_of_current {v : View} (hv : v.Tidy) {b : Label} (h : v.current = some b) : b ∈ v.blocks :=
  List.mem_of_getLast? (hv.last b h)

theorem Tidy.first_of_mem {v : View} (hv : v.Tidy) {b : Label} (h : b ∈ v.blocks) : v.first b = b := by
  cases hjoined : v.joined b with
  | none => rw [first, hjoined, Option.getD_none]
  | some c => exact absurd h (hv.joined b c hjoined).2.1

theorem Tidy.lt_fresh {v : View} (hv : v.Tidy) {l : Label} (h : v.Placed l) : l < v.fresh := by
  rcases h with hmem | hjoined
  · exact hv.blocks l hmem
  · obtain ⟨b, hb⟩ := Option.ne_none_iff_exists'.1 hjoined
    exact (hv.joined l b hb).1

theorem Tidy.not_placed_fresh {v : View} (hv : v.Tidy) : ¬ v.Placed v.fresh := fun h =>
  Nat.lt_irrefl _ (hv.lt_fresh h)

/-! ### Events that place labels -/

theorem edges_leave (v : View) (b : Label) (targets : List Label) (c : Label) :
    (v.leave b targets).edges c = v.edges c ++ if b = c then targets.map fun l => (.normal, l) else [] := by
  unfold leave
  dsimp only
  by_cases hc : c = b
  · rw [hc, set_self, if_pos rfl]
  · rw [set_of_ne _ _ hc, if_neg (Ne.symm hc), List.append_nil]

theorem edges_fall (v : View) (l b : Label) :
    (v.fall l).edges b = v.edges b ++ if v.current = some b then [(.normal, l)] else [] := by
  unfold fall
  cases v.current with
  | none => simp
  | some c => simp [edges_leave]

theorem begin_eq (v : View) (l : Label) : v.begin l =
    { v with
      current := some l, blocks := v.blocks ++ [l], bare := true
      frame := set v.frame l (some {}), edges := (v.fall l).edges } := by
  unfold begin head fall
  cases v.current <;> rfl

/-- A block starts at a label that has not been placed. -/
theorem turns_begin {v : View} {e : MethodEvent Label} {l fresh : Label} (hl : l < fresh) (hfresh : v.fresh ≤ fresh)
    (hnot : ¬ v.Placed l)
    (he : v.currentAfter e = some l ∧ v.startedBy e = some l ∧ v.joinedBy e = none ∧ v.bareAfter e = true)
    (htgts : ∀ b, v.current = some b → v.targetsBy e = [l]) (hins : e.instructions = [])
    (hhans : ∀ h, e ≠ .tryCatch h) : v.Turns e ({ v with stage := .open, fresh := fresh }.begin l) := by
  obtain ⟨hcurrent, hstarted, hjoined, hbare⟩ := he
  rw [begin_eq]
  refine ⟨nofun, hcurrent.symm, by simp [hstarted], fun b => ?_, fun m => by simp [hjoined],
    fun b hb => ?_, fun m hm => ?_, fun b hb _ => ?_, by simp [hins], hbare.symm, hfresh, ?_⟩
  · rw [edges_fall]
    dsimp only
    congr 1
    split
    next hb => rw [htgts b hb]; rfl
    next => rfl
  · obtain rfl : l = b := Option.some.inj (hstarted.symm.trans hb)
    exact set_self _ _ _
  · rw [hstarted, hjoined] at hm
    obtain rfl : l = m := Option.some.inj (hm.resolve_right nofun)
    exact ⟨hl, hnot⟩
  · refine set_of_ne _ _ ?_
    rintro rfl
    exact hnot (.inl hb)
  · cases e with
    | tryCatch h => exact absurd rfl (hhans h)
    | _ => simp

theorem turns_code {v : View} (hv : v.Tidy) (hstg : v.stage = .declared) :
    v.Turns .code ({ v with stage := .open }.withNew place) := by
  obtain ⟨hblks, hcurrent, hbare⟩ := hv.declared hstg
  have hplc : { v with stage := .open }.withNew place = { v with stage := .open, fresh := v.fresh + 1 }.begin v.fresh := by
    simp [withNew, place, hbare]
  rw [hplc]
  refine turns_begin (Nat.lt_succ_self _) (Nat.le_succ _) hv.not_placed_fresh
    ⟨rfl, rfl, rfl, rfl⟩ (fun b hb => ?_) rfl (by simp)
  rw [hcurrent] at hb
  cases hb

theorem turns_label {v : View} {l : Label} (hstg : v.stage = .open) (hl : l < v.fresh) (hnot : ¬ v.Placed l) :
    v.Turns (.label l) (v.place l) := by
  unfold place
  cases hbare : v.bare with
  | false =>
    have hbegin : v.begin l = { v with stage := .open, fresh := v.fresh }.begin l := by rw [← hstg]
    rw [if_neg (by simp), hbegin]
    exact turns_begin hl (Nat.le_refl _) hnot
      ⟨by simp [currentAfter, hbare], by simp [startedBy, hbare], by simp [joinedBy, hbare], rfl⟩
      (fun _ _ => by simp [targetsBy, hbare]) rfl (by simp)
  | true =>
    rw [if_pos rfl]
    have hstarted : v.startedBy (.label l) = none := by simp [startedBy, hbare]
    have hjoined : v.joinedBy (.label l) = some l := by simp [joinedBy, hbare]
    refine ⟨by simp [join, hstg], by simp [currentAfter, hbare, join], by simp [hstarted, join], fun b => ?_,
      fun m => ?_, fun b hb => ?_, fun m hm => ?_, fun b hb _ => ?_, (by intro b hb i hi; cases hi), hbare,
      Nat.le_refl _, by simp [join]⟩
    · simp [join, targetsBy, hbare]
    · rw [hjoined]
      by_cases hm : m = l
      · rw [join, if_pos (congrArg some hm.symm), hm]
        exact set_self _ _ _
      · rw [join, if_neg (fun h => hm (Option.some.inj h).symm)]
        exact set_of_ne _ _ hm
    · rw [hstarted] at hb
      cases hb
    · rw [hstarted, hjoined] at hm
      obtain rfl : l = m := Option.some.inj (hm.resolve_left (by simp))
      exact ⟨hl, hnot⟩
    · refine set_of_ne _ _ ?_
      rintro rfl
      exact hnot (.inl hb)

/-- An event that blocks do not notice. -/
theorem turns_unnoticed {v v' : View} {e : MethodEvent Label} (hcode : e ≠ .code)
    (hlab : ∀ l, e ≠ .label l) (hinst : ∀ i, e ≠ .instruction i)
    (h : Rests { v with handlers := v.handlers ++ match e with
      | .tryCatch h => [h]
      | _ => [] } v') : v.Turns e v' := by
  obtain ⟨pool, hpool, rfl⟩ := h
  cases e with
  | code => exact absurd rfl hcode
  | label l => exact absurd rfl (hlab l)
  | instruction i => exact absurd rfl (hinst i)
  | _ =>
    refine ⟨fun hstg => ⟨hstg, rfl, rfl, rfl⟩, rfl, (List.append_nil _).symm, fun b => ?_, fun _ => rfl, nofun, ?_,
      fun _ _ _ => rfl, nofun, rfl, Nat.le_refl _, rfl⟩
    · simp [targetsBy]
    · rintro m (hm | hm)
      · cases hm
      · cases hm

/-- Making a label is something that blocks do not notice either. -/
theorem turns_newLabel (v : View) : v.Turns (.frame .same) { v with fresh := v.fresh + 1 } := by
  refine ⟨fun hstg => ⟨hstg, rfl, rfl, rfl⟩, rfl, (List.append_nil _).symm, fun b => ?_, fun _ => rfl, nofun, ?_,
    fun _ _ _ => rfl, nofun, rfl, Nat.le_succ _, (List.append_nil _).symm⟩
  · simp [targetsBy]
  · rintro l (hl | hl)
    · cases hl
    · cases hl

/-! ### Instructions -/

/-- An instruction has been emitted, and its block leads to where it jumps. -/
structure Emitted (v : View) (i : Instruction Label) (y : View) : Prop where
  stage : y.stage = v.stage
  current : y.current = v.current
  blocks : y.blocks = v.blocks
  joined : y.joined = v.joined
  fresh : y.fresh = v.fresh
  handlers : y.handlers = v.handlers
  bare : y.bare = false
  edges : ∀ b, y.edges b = v.edges b ++ if v.current = some b then i.places.map fun l => (.normal, l) else []
  kept : ∀ b, v.current ≠ some b → y.frame b = v.frame b
  interpreted : ∀ b, v.current = some b → ∃ f pool s, v.frame b = some f ∧ Pool.Enlarges v.pool pool ∧
    i.interpretation v.size ⟨f, pool⟩ = .ok () s ∧ y.frame b = some s.frame ∧ y.pool = s.pool

section Emitted

variable {v y : View} {i : Instruction Label}

/-- The block goes on. -/
theorem Emitted.stay (h : v.Emitted i y) (hstg : v.stage = .open) (hstarted : v.startedBy (.instruction i) = none)
    (hcurrent : v.currentAfter (.instruction i) = v.current) (hsplits : ∀ b, v.current = some b → i.splits = false) :
    v.Turns (.instruction i) y := by
  refine ⟨by simp [h.stage, hstg], h.current.trans hcurrent.symm, by simp [h.blocks, hstarted],
    fun b => ?_, fun l => by simp [h.joined, joinedBy], ?_, ?_, ?_, ?_, by simp [h.bare, bareAfter, hstarted],
    Nat.le_of_eq h.fresh.symm, by simp [h.handlers]⟩
  · rw [h.edges]
    congr 1
    split
    next hb => simp [targetsBy, hsplits b hb]
    next => rfl
  · intro b hb
    rw [hstarted] at hb
    cases hb
  · rintro l (hl | hl)
    · rw [hstarted] at hl
      cases hl
    · cases hl
  · intro b _ hb
    exact h.kept b fun hcur => absurd (hb hcur) (by simp [MethodEvent.instructions])
  · intro b hb j hj
    obtain rfl : j = i := by simpa [MethodEvent.instructions] using hj
    exact h.interpreted b hb

/-- A block starts behind an instruction. -/
theorem Emitted.start (h : v.Emitted i y) (hv : v.Tidy) (hstg : v.stage = .open)
    (hstarted : v.startedBy (.instruction i) = some v.fresh) {y' : View}
    (hcurrent : y'.current = v.currentAfter (.instruction i))
    (hedges : ∀ b, y'.edges b = v.edges b ++
      if v.current = some b then (v.targetsBy (.instruction i)).map fun l => (.normal, l) else [])
    (hy' : y' = { y with
      current := y'.current, edges := y'.edges, fresh := y.fresh + 1, blocks := y.blocks ++ [y.fresh], bare := true
      frame := set y.frame y.fresh (some {}) }) :
    v.Turns (.instruction i) y' := by
  have hfr : ∀ b ∈ v.blocks, y'.frame b = y.frame b := by
    intro b hb
    rw [hy']
    refine set_of_ne _ _ ?_
    rintro rfl
    exact hv.not_placed_fresh (.inl (h.fresh ▸ hb))
  refine ⟨?_, hcurrent, ?_, hedges, fun l => ?_, ?_, ?_, ?_, ?_, ?_, ?_, ?_⟩
  · rw [hy']
    simp [h.stage, hstg]
  · rw [hy', hstarted]
    simp [h.blocks, h.fresh]
  · rw [hy']
    simp [h.joined, joinedBy]
  · intro b hb
    obtain rfl : v.fresh = b := Option.some.inj (hstarted.symm.trans hb)
    rw [hy', ← h.fresh]
    exact set_self _ _ _
  · intro l hl
    obtain rfl : v.fresh = l := by
      rcases hl with hl | hl
      · exact Option.some.inj (hstarted.symm.trans hl)
      · cases hl
    refine ⟨?_, hv.not_placed_fresh⟩
    rw [hy']
    simp [h.fresh]
  · intro b hmem hb
    rw [hfr b hmem]
    exact h.kept b fun hcur => absurd (hb hcur) (by simp [MethodEvent.instructions])
  · intro b hb j hj
    obtain rfl : j = i := by simpa [MethodEvent.instructions] using hj
    obtain ⟨f, pool, s, hf, hpool, hrun, hnew, hlast⟩ := h.interpreted b hb
    refine ⟨f, pool, s, hf, hpool, hrun, ?_, ?_⟩
    · rw [hfr b (hv.mem_of_current hb), hnew]
    · rw [hy']
      exact hlast
  · rw [hy']
    simp [bareAfter, hstarted]
  · rw [hy']
    exact Nat.le_trans (Nat.le_of_eq h.fresh.symm) (Nat.le_succ _)
  · rw [hy']
    simp [h.handlers]

/-- What happens behind an instruction that has been emitted. -/
theorem Emitted.turns (h : v.Emitted i y) (hv : v.Tidy) (hstg : v.stage = .open) {y' : View} (hy' : y' = match v.current with
      | none => if i.isStore then y.withNew begin else y
      | some _ => if i.splits then y.withNew begin else if i.fallsThrough then y else y.stop) :
    v.Turns (.instruction i) y' := by
  have hbegin : y.withNew begin = { y with
      current := some y.fresh, edges := (y.fall y.fresh).edges, fresh := y.fresh + 1, blocks := y.blocks ++ [y.fresh]
      bare := true, frame := set y.frame y.fresh (some {}) } := by
    rw [withNew, begin_eq]
    unfold fall
    cases y.current <;> rfl
  have hfall : ∀ b, (y.withNew begin).edges b = v.edges b ++
      if v.current = some b then (i.places ++ [v.fresh]).map fun l => (.normal, l) else [] := by
    intro b
    rw [hbegin]
    dsimp only
    rw [edges_fall, h.edges, h.current, h.fresh]
    split <;> simp
  rw [hy']
  cases hcurrent : v.current with
  | none =>
    dsimp only
    cases hsto : i.isStore with
    | false =>
      refine h.stay hstg (by simp [startedBy, hcurrent, hsto]) ?_ (by simp [hcurrent])
      simp [currentAfter, hcurrent, hsto]
    | true =>
      refine h.start hv hstg (by simp [startedBy, hcurrent, hsto]) ?_ (fun b => ?_) ?_
      · rw [if_pos rfl, hbegin]
        simp [currentAfter, hcurrent, hsto, h.fresh]
      · rw [if_pos rfl, hfall]
        simp [hcurrent]
      · rw [if_pos rfl, hbegin]
  | some b =>
    dsimp only
    cases hsplits : i.splits with
    | true =>
      refine h.start hv hstg (by simp [startedBy, hcurrent, hsplits]) ?_ (fun c => ?_) ?_
      · rw [if_pos rfl, hbegin]
        simp [currentAfter, hcurrent, hsplits, h.fresh]
      · rw [if_pos rfl, hfall]
        simp [hcurrent, targetsBy, hsplits]
      · rw [if_pos rfl, hbegin]
    | false =>
      rw [if_neg (by simp)]
      cases hfalls : i.fallsThrough with
      | true =>
        rw [if_pos rfl]
        refine h.stay hstg (by simp [startedBy, hcurrent, hsplits, hfalls]) ?_ fun _ _ => hsplits
        simp [currentAfter, hcurrent, hsplits, hfalls]
      | false =>
        rw [if_neg (by simp)]
        refine h.start hv hstg (by simp [startedBy, hcurrent, hsplits, hfalls]) ?_ (fun c => ?_) rfl
        · simp [currentAfter, hcurrent, hsplits, hfalls, stop, withNew]
        · show y.edges c = _
          rw [h.edges]
          simp [hcurrent, targetsBy, hsplits]

end Emitted

theorem turns_instruction {v v' : View} (hv : v.Tidy) (hstg : v.stage = .open) {i : Instruction Label}
    (h : v.Writes i v') : v.Turns (.instruction i) v' := by
  obtain ⟨v₁, v₂, v₃, ⟨pool, hpool, rfl⟩, hintp, ⟨n, hn, rfl⟩, rfl⟩ := h
  cases hcurrent : v.current with
  | none =>
    obtain rfl := (interprets_none (v := { v with pool := pool }) hcurrent).1 hintp
    have hemitted : v.Emitted i { v with pool := pool, bare := false, size := v.size + n } :=
      ⟨rfl, rfl, rfl, rfl, rfl, rfl, rfl, by simp [hcurrent], fun _ _ => rfl, by simp [hcurrent]⟩
    refine hemitted.turns hv hstg ?_
    simp only [follow, hcurrent]
  | some b =>
    obtain ⟨f, s, hfr, hrun, rfl⟩ := (interprets_some (v := { v with pool := pool }) hcurrent).1 hintp
    have hemitted : v.Emitted i (leave b i.places
        { v with frame := set v.frame b (some s.frame), pool := s.pool, bare := false, size := v.size + n }) := by
      refine ⟨rfl, rfl, rfl, rfl, rfl, rfl, rfl, ?_, ?_, ?_⟩
      · intro c
        simp [edges_leave, hcurrent]
      · intro c hc
        refine set_of_ne _ _ ?_
        rintro rfl
        exact hc hcurrent
      · intro c hc
        obtain rfl : b = c := Option.some.inj (hcurrent.symm.trans hc)
        exact ⟨f, pool, s, hfr, hpool, hrun, set_self _ _ _, rfl⟩
    refine hemitted.turns hv hstg ?_
    simp only [follow, hcurrent]

/-- **All that an event of the body does.** -/
theorem Sends.turns {v v' : View} {e : MethodEvent Label} (hv : v.Tidy) (h : v.Sends v' e) : v.Turns e v' := by
  cases e with
  | code =>
    obtain ⟨hstg, rfl⟩ := h
    exact turns_code hv hstg
  | instruction i => exact turns_instruction hv h.1 h.2
  | label l =>
    obtain ⟨hstg, hl, hnot, rfl⟩ := h
    exact turns_label hstg hl hnot
  | tryCatch handler => exact turns_unnoticed nofun nofun nofun h.2
  | frame shape => exact turns_unnoticed nofun nofun nofun (by simpa using h.2)
  | localVariable scope => exact turns_unnoticed nofun nofun nofun (by simpa using h.2)
  | lineNumber line start => exact turns_unnoticed nofun nofun nofun (by simpa using h.2)
  | maxs stack locals => exact h.elim
  | finish => exact h.elim

/-! ### Between events -/

section Turns

variable {v v' : View} {e : MethodEvent Label}

variable {b l : Label}

theorem Turns.mem_blocks (h : v.Turns e v') : b ∈ v'.blocks ↔ b ∈ v.blocks ∨ v.startedBy e = some b := by
  rw [h.blocks, List.mem_append, Option.mem_toList]

theorem Turns.blocks_of_started (h : v.Turns e v') (hl : v.startedBy e = some l) :
    v'.blocks = v.blocks ++ [l] := by
  rw [h.blocks, hl]
  rfl

theorem Turns.blocks_of_not_started (h : v.Turns e v') (hl : v.startedBy e = none) : v'.blocks = v.blocks := by
  rw [h.blocks, hl]
  simp

/-- A block that starts is the last one, and the current one if there is a current one. -/
theorem Turns.last_of_started (h : v.Turns e v') (hl : v.startedBy e = some l) :
    v'.blocks.getLast? = some l := by
  rw [h.blocks_of_started hl]
  simp

/-- By an event a block starts, or a label joins the last block, or everything stays where it is. -/
theorem event_cases (v : View) (e : MethodEvent Label) :
    (∃ l, v.startedBy e = some l ∧ v.joinedBy e = none ∧ v.bareAfter e = true ∧
      (v.currentAfter e = some l ∨ v.currentAfter e = none)) ∨
    (∃ l, v.startedBy e = none ∧ v.joinedBy e = some l ∧ v.bare = true ∧ v.bareAfter e = true ∧
      v.currentAfter e = v.blocks.getLast? ∧ v.targetsBy e = [] ∧ e.instructions = []) ∨
    (v.startedBy e = none ∧ v.joinedBy e = none ∧ v.currentAfter e = v.current ∧
      (e.instructions = [] → v.bareAfter e = v.bare ∧ v.targetsBy e = []) ∧
      (e.instructions ≠ [] → v.bareAfter e = false)) := by
  cases e with
  | code => exact .inl ⟨_, rfl, rfl, rfl, .inl rfl⟩
  | label l =>
    cases hbare : v.bare with
    | false => exact .inl ⟨l, by simp [startedBy, hbare], by simp [joinedBy, hbare], rfl, by simp [currentAfter, hbare]⟩
    | true =>
      exact .inr (.inl ⟨l, by simp [startedBy, hbare], by simp [joinedBy, hbare], rfl, rfl, by simp [currentAfter, hbare],
        by simp [targetsBy, hbare], rfl⟩)
  | instruction i =>
    cases hcurrent : v.current with
    | none =>
      cases hsto : i.isStore with
      | true =>
        exact .inl ⟨v.fresh, by simp [startedBy, hcurrent, hsto], rfl, by simp [bareAfter, startedBy, hcurrent, hsto],
          by simp [currentAfter, hcurrent, hsto]⟩
      | false =>
        exact .inr (.inr ⟨by simp [startedBy, hcurrent, hsto], rfl, by simp [currentAfter, hcurrent, hsto],
          by simp [MethodEvent.instructions], fun _ => by simp [bareAfter, startedBy, hcurrent, hsto]⟩)
    | some b =>
      cases hsplits : i.splits with
      | true =>
        exact .inl ⟨v.fresh, by simp [startedBy, hcurrent, hsplits], rfl,
          by simp [bareAfter, startedBy, hcurrent, hsplits], by simp [currentAfter, hcurrent, hsplits]⟩
      | false =>
        cases hfalls : i.fallsThrough with
        | true =>
          exact .inr (.inr ⟨by simp [startedBy, hcurrent, hsplits, hfalls], rfl,
            by simp [currentAfter, hcurrent, hsplits, hfalls], by simp [MethodEvent.instructions],
            fun _ => by simp [bareAfter, startedBy, hcurrent, hsplits, hfalls]⟩)
        | false =>
          exact .inl ⟨v.fresh, by simp [startedBy, hcurrent, hsplits, hfalls], rfl,
            by simp [bareAfter, startedBy, hcurrent, hsplits, hfalls], by simp [currentAfter, hcurrent, hsplits, hfalls]⟩
  | _ => exact .inr (.inr ⟨rfl, rfl, rfl, fun _ => ⟨rfl, rfl⟩, fun h => absurd rfl h⟩)

/-- Control can pass into a block that starts, unless it starts behind an instruction that control does not pass. -/
theorem passes_of_started (hl : v.startedBy e = some l) (hb : v.current = some b) (hcode : e ≠ .code)
    (hfalls : ∀ i ∈ e.instructions, i.fallsThrough = true) : l ∈ v.targetsBy e ∧ v.currentAfter e = some l := by
  cases e with
  | code => exact absurd rfl hcode
  | label m =>
    cases hbare : v.bare with
    | true => simp [startedBy, hbare] at hl
    | false =>
      obtain rfl : m = l := by simpa [startedBy, hbare] using hl
      simp [targetsBy, currentAfter, hbare]
  | instruction i =>
    have hi := hfalls i (by simp [MethodEvent.instructions])
    cases hsplits : i.splits with
    | false => simp [startedBy, hb, hi, hsplits] at hl
    | true =>
      obtain rfl : v.fresh = l := by simpa [startedBy, hb, hi, hsplits] using hl
      simp [targetsBy, currentAfter, hb, hsplits]
  | _ => cases hl

theorem Turns.last (h : v.Turns e v') (hv : v.Tidy) (hb : v'.current = some b) :
    v'.blocks.getLast? = some b := by
  rw [h.current] at hb
  rcases v.event_cases e with ⟨l, hl, -, -, hcurrent | hcurrent⟩ | ⟨l, hl, -, -, -, hcurrent, -⟩ | ⟨hl, -, hcurrent, -⟩
  · rw [h.last_of_started hl, ← hb, hcurrent]
  · rw [hcurrent] at hb
    cases hb
  · rw [h.blocks_of_not_started hl, ← hcurrent, hb]
  · rw [h.blocks_of_not_started hl]
    exact hv.last b (hcurrent.symm.trans hb)

/-- A block that nothing has been emitted in has done nothing. -/
theorem Turns.untouched (h : v.Turns e v') (hv : v.Tidy) (hbare : v'.bare = true ∨ v'.current = none)
    (hb : v'.blocks.getLast? = some b) : v'.frame b = some {} ∧ v'.edges b = [] := by
  rw [h.bare, h.current] at hbare
  -- where the last block stays, it had done nothing before
  have hkept : (v.bare = true ∨ v.current = none) → v.blocks.getLast? = some b → (v.current = some b → e.instructions = []) →
      (v.current = some b → v.targetsBy e = []) → v'.frame b = some {} ∧ v'.edges b = [] := by
    intro hbef hlast hins htgts
    obtain ⟨hfr, hedges⟩ := hv.untouched hbef b hlast
    refine ⟨(h.kept b (List.mem_of_getLast? hlast) hins).trans hfr, ?_⟩
    rw [h.edges, hedges]
    split
    next hcur => simp [htgts hcur]
    next => rfl
  rcases v.event_cases e with ⟨l, hl, -⟩ | ⟨l, hl, -, hwas, -, -, htgts, hins⟩ | ⟨hl, -, hcurrent, hpassive, hactive⟩
  · obtain rfl : l = b := Option.some.inj ((h.last_of_started hl).symm.trans hb)
    have hnot : l ∉ v.blocks := fun hmem => (h.placed l (.inl hl)).2 (.inl hmem)
    refine ⟨h.started l hl, ?_⟩
    rw [h.edges, hv.unused l hnot, if_neg fun hcur => hnot (hv.mem_of_current hcur)]
    rfl
  · rw [h.blocks_of_not_started hl] at hb
    exact hkept (.inl hwas) hb (fun _ => hins) fun _ => htgts
  · rw [h.blocks_of_not_started hl] at hb
    by_cases hins : e.instructions = []
    · obtain ⟨hsame, htgts⟩ := hpassive hins
      rw [hsame, hcurrent] at hbare
      exact hkept hbare hb (fun _ => hins) fun _ => htgts
    · rw [hactive hins, hcurrent] at hbare
      have hnone : v.current = none := hbare.resolve_left (by simp)
      refine hkept (.inr hnone) hb ?_ ?_ <;> simp [hnone]

/-- **What holds between events is kept by events.** -/
theorem Turns.tidy (h : v.Turns e v') (hv : v.Tidy) : v'.Tidy where
  declared hdeclared := by
    obtain ⟨hstg, hblks, hcurrent, hbare⟩ := h.declared hdeclared
    rw [hblks, hcurrent, hbare]
    exact hv.declared hstg
  last _ := h.last hv
  nodup := by
    rw [h.blocks]
    cases hl : v.startedBy e with
    | none => simpa using hv.nodup
    | some l =>
      have hnot : l ∉ v.blocks := fun hmem => (h.placed l (.inl hl)).2 (.inl hmem)
      simpa [List.nodup_append] using ⟨hv.nodup, fun b hb heq => hnot (heq ▸ hb)⟩
  blocks b hb := by
    rcases h.mem_blocks.1 hb with hb | hb
    · exact Nat.lt_of_lt_of_le (hv.blocks b hb) h.fresh
    · exact (h.placed b (.inl hb)).1
  joined l b hb := by
    rw [h.joined] at hb
    split at hb
    next hl =>
      obtain ⟨hfresh, hnot⟩ := h.placed l (.inr hl)
      refine ⟨hfresh, fun hmem => ?_, h.mem_blocks.2 (.inl (List.mem_of_getLast? hb))⟩
      rcases v.event_cases e with ⟨m, -, hj, -⟩ | ⟨m, hs, -⟩ | ⟨-, hj, -⟩
      · rw [hj] at hl
        cases hl
      · exact hnot (.inl ((h.mem_blocks.1 hmem).resolve_right (by simp [hs])))
      · rw [hj] at hl
        cases hl
    next =>
      obtain ⟨hfresh, hnot, hmem⟩ := hv.joined l b hb
      refine ⟨Nat.lt_of_lt_of_le hfresh h.fresh, fun hl => ?_, h.mem_blocks.2 (.inl hmem)⟩
      rcases h.mem_blocks.1 hl with hl | hl
      · exact hnot hl
      · exact (h.placed l (.inl hl)).2 (.inr (by simp [hb]))
  unused b hb := by
    have hnot : b ∉ v.blocks := fun hmem => hb (h.mem_blocks.2 (.inl hmem))
    rw [h.edges, hv.unused b hnot, if_neg fun hcur => hnot (hv.mem_of_current hcur)]
    rfl
  bare hbare hemp := by
    rw [h.bare] at hbare
    rcases v.event_cases e with ⟨l, hl, -⟩ | ⟨l, hl, -, hwas, -⟩ | ⟨hl, -, -, hpassive, hactive⟩
    · rw [h.blocks_of_started hl] at hemp
      simp at hemp
    · exact hv.bare hwas ((h.blocks_of_not_started hl).symm.trans hemp)
    · by_cases hins : e.instructions = []
      · exact hv.bare ((hpassive hins).1.symm.trans hbare) ((h.blocks_of_not_started hl).symm.trans hemp)
      · rw [hactive hins] at hbare
        cases hbare
  untouched hbare _ := h.untouched hv hbare

/-! ### What stays -/

/-- A block behind which another one has started stays as it is. -/
theorem Turns.settled (h : v.Turns e v') (hv : v.Tidy) (hb : b ∈ v.blocks) (hlast : v.blocks.getLast? ≠ some b) :
    (v'.frame b = v.frame b ∧ v'.edges b = v.edges b) ∧ b ∈ v'.blocks ∧ v'.blocks.getLast? ≠ some b := by
  have hcurrent : v.current ≠ some b := fun hcur => hlast (hv.last b hcur)
  refine ⟨⟨h.kept b hb fun hcur => absurd hcur hcurrent, by rw [h.edges, if_neg hcurrent, List.append_nil]⟩,
    h.mem_blocks.2 (.inl hb), ?_⟩
  cases hl : v.startedBy e with
  | none => rwa [h.blocks_of_not_started hl]
  | some l =>
    rw [h.last_of_started hl]
    rintro heq
    obtain rfl := Option.some.inj heq
    exact (h.placed l (.inl hl)).2 (.inl hb)

/-- A label stays in its block. -/
theorem Turns.first (h : v.Turns e v') (hl : v.Placed l) : v'.Placed l ∧ v'.first l = v.first l := by
  have hjoined : v'.joined l = v.joined l := by
    rw [h.joined, if_neg fun hj => (h.placed l (.inr hj)).2 hl]
  refine ⟨hl.imp (fun hmem => h.mem_blocks.2 (.inl hmem)) fun hne => by rwa [hjoined], ?_⟩
  rw [View.first, View.first, hjoined]

/-- A label is placed in the block that becomes the current one. -/
theorem Turns.label (h : v.Turns (.label l) v') (hv : v.Tidy) :
    v'.Placed l ∧ v'.current = some (v'.first l) ∧ v'.bare = true := by
  refine ⟨?_, ?_, h.bare⟩
  · cases hbare : v.bare with
    | false => exact .inl (h.mem_blocks.2 (.inr (by simp [startedBy, hbare])))
    | true =>
      refine .inr ?_
      rw [h.joined, if_pos (by simp [joinedBy, hbare])]
      simpa using hv.bare hbare
  · rw [h.current, View.first, h.joined]
    cases hbare : v.bare with
    | false =>
      have hnot := (h.placed l (.inl (by simp [startedBy, hbare]))).2
      have hjoined : v.joined l = none := Classical.not_not.1 fun hne => hnot (.inr hne)
      simp [currentAfter, joinedBy, hbare, hjoined]
    | true =>
      obtain ⟨b, hb⟩ : ∃ b, v.blocks.getLast? = some b :=
        Option.ne_none_iff_exists'.1 fun hnone => hv.bare hbare (List.getLast?_eq_none_iff.1 hnone)
      simp [currentAfter, joinedBy, hbare, hb]

end Turns

end View

end Framing

end JvmAssembler
