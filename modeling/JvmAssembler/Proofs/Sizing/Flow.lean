import JvmAssembler.Proofs.Sizing.Table

/-!
# JvmAssembler.Proofs.Sizing.Flow

Executions of a script, and paths along the edges between its blocks.

Every execution follows edges: where it gets to is a point of some block, which the block is entered for with the height
that the point has, less the height of the point relative to the block (`executes_arrives`). Calls that have not returned
yet are nested: the block is within the subroutine that was called last, and that call is within the one before.
-/

namespace JvmAssembler

namespace Sizing

/-! ### Subroutines -/

theorem localSuccessors_eq (T : LabelTable) (b : Label) :
    localSuccessors T b = ((edges T b).filterMap fun (edge, succ) =>
      match edge with
      | .call _ => none
      | _ => some succ).reverse := by
  have hfold : ∀ (es : List (HeightEdge × Label)) (found : List Label),
      es.foldl (fun found (edge, succ) =>
        match edge with
        | .call _ => found
        | _ => succ :: found) found =
      (es.filterMap fun (edge, succ) =>
        match edge with
        | .call _ => none
        | _ => some succ).reverse ++ found := by
    intro es
    induction es with
    | nil => simp
    | cons edge es ih =>
      intro found
      obtain ⟨e, succ⟩ := edge
      rw [List.foldl_cons, ih]
      cases e <;> simp
  exact (hfold (edges T b) []).trans (List.append_nil _)

theorem mem_localSuccessors (T : LabelTable) (b l : Label) :
    l ∈ localSuccessors T b ↔ ∃ e, (e, l) ∈ edges T b ∧ ∀ height, e ≠ .call height := by
  rw [localSuccessors_eq, List.mem_reverse, List.mem_filterMap]
  constructor
  · rintro ⟨⟨e, succ⟩, hmem, hlocal⟩
    cases e with
    | call height => cases hlocal
    | _ =>
      cases hlocal
      exact ⟨_, hmem, nofun⟩
  · rintro ⟨e, hmem, hlocal⟩
    refine ⟨(e, l), hmem, ?_⟩
    cases e with
    | call height => exact absurd rfl (hlocal height)
    | _ => rfl

theorem length_localSuccessors (T : LabelTable) (b : Label) : (localSuccessors T b).length ≤ (edges T b).length := by
  rw [localSuccessors_eq, List.length_reverse]
  exact List.length_filterMap_le _ _

/-- A block calls a subroutine, which returns to some other block. -/
structure Calls (T : LabelTable) (caller target site : Label) : Prop where
  call : ∃ height, (.call height, target) ∈ edges T caller
  site : ∃ height, (.returnSite height, site) ∈ edges T caller

/-- Control gets from one block to another without leaving the subroutine; a call goes on where it returns to. -/
def Within (T : LabelTable) : Label → Label → Prop := Relation.ReflTransGen fun b l => l ∈ localSuccessors T b

/-- The calls that have not returned yet, by the points behind them, the last one first. A block is within the subroutine
that was called last, and that call is within the one before. -/
inductive Nested (script : Script) (T : LabelTable) : List Nat → Label → Prop
  | main {b : Label} : Nested script T [] b
  | called {caller target site b : Label} {k : Nat} {calls : List Nat} :
      Calls T caller target site → At script k site 0 → Within T target b → Nested script T calls caller →
      Nested script T (k :: calls) b

theorem Nested.step {sc : Script} {T : LabelTable} {calls : List Nat} {b l : Label} (h : Nested sc T calls b)
    (hl : l = b ∨ l ∈ localSuccessors T b) : Nested sc T calls l := by
  rcases hl with rfl | hl
  · exact h
  · cases h with
    | main => exact .main
    | called hcalls hat hwithin hnested => exact .called hcalls hat (hwithin.tail hl) hnested

/-! ### Steps -/

theorem eventAt_ne_instruction {sc : Script} {k : Nat} (h : sc.instruction? k = none) (i : Instruction Label) :
    eventAt sc k ≠ .instruction i := by
  intro hi
  cases hact : sc[k]? with
  | none => simp [eventAt, hact] at hi
  | some act =>
    cases act with
    | newLabel => simp [eventAt, hact] at hi
    | event e =>
      cases e with
      | instruction j => simp [Script.instruction?, hact] at h
      | _ => simp [eventAt, hact, MethodEvent.map] at hi

section
variable {sc : Script} {T : LabelTable} (hch : Charts sc T)
include hch

variable {k : Nat} {b : Label} {r : Int}

theorem Charts.edge_of_event (hat : At sc k b r) {edge : HeightEdge × Label}
    (hedge : edge ∈ (viewAt sc k).edgesBy (eventAt sc k)) : edge ∈ edges T b :=
  (hch.edge_iff b edge).2 (.inl ⟨k, ⟨r, hat⟩, hedge⟩)

/-- No point is above the peak of its block. -/
theorem Charts.le_peak (hat : At sc k b r) : r ≤ peak T b := by
  rw [hch.peak_eq]
  rcases Nat.le_total k sc.length with hle | hle
  · exact hch.drawn.le_peakOf hle hat
  · rw [At, viewAt, sketch_of_length_le hle] at hat
    exact hch.drawn.le_peakOf (Nat.le_refl _) hat

/-- The body starts once, with the first block. -/
theorem Charts.entry (hk : sc[k]? = some (.event .code)) :
    ∃ entry, (viewAt sc sc.length).blocks[0]? = some entry ∧ Starts sc k entry ∧
      (viewAt sc k).current = none ∧ ∀ j b, Starts sc j b → k ≤ j := by
  have hcode : eventAt sc k = .code := by
    rw [eventAt, hk]
    rfl
  have hstg : (viewAt sc k).stage = .declared := by
    have := (hch.drawn.performed hk).1
    rwa [hcode] at this
  obtain ⟨hblks, hcur⟩ := (tidy_sketch hch.drawn k).view.declared hstg
  have hstarts : Starts sc k (viewAt sc k).fresh := by
    rw [Starts, hcode]
    rfl
  obtain ⟨rest, hrest, -⟩ := hch.drawn.blocks_append (Nat.succ_le_of_lt (List.getElem?_eq_some_iff.1 hk).1)
  refine ⟨(viewAt sc k).fresh, ?_, hstarts, hcur, fun j b hj => Nat.le_of_not_lt fun hlt => ?_⟩
  · rw [hrest, (hch.drawn.turns k).blocks, hstarts, viewAt, hblks]
    rfl
  · have hmem := (hch.drawn.mem_blocks k b).2 ⟨j, hlt, hj⟩
    rw [viewAt, hblks] at hmem
    cases hmem

/-- A point of a protected range is in a block of the range. -/
theorem Charts.edge_of_caught {start stop handler : Nat} {h : Handler Nat}
    (hat : At sc k b r) (hhdl : sc.Handles h start stop handler) (hst : start < k) (hstop : k < stop) :
    (.exception, labelOf sc h.handler) ∈ edges T b := by
  have hdrawn := hch.drawn
  obtain ⟨i, hi, hstarts, hpoints⟩ := hdrawn.at_start hat
  refine (hch.edge_iff b _).2 (.inr ⟨h, start, stop, handler, hhdl, ?_, rfl⟩)
  refine (hdrawn.mem_blockRange hhdl.start hhdl.stop (by omega) b).2 ⟨i, ?_, by omega, hstarts⟩
  -- the block does not start before the range, for another one starts with the range
  refine Nat.le_of_not_lt fun hlt => ?_
  have hfst := starts_of_places hhdl.start
  obtain ⟨between, hbetween⟩ := hpoints (start + 1) (by omega) (by omega)
  obtain ⟨rfl, -⟩ := hbetween.unique (hdrawn.at_of_starts hfst)
  exact absurd (hdrawn.starts_unique hstarts hfst) (by omega)

omit hch in
theorem starts_lt_length {sc : Script} (h : Starts sc k b) : k < sc.length := by
  refine Nat.lt_of_not_le fun hle => ?_
  rw [Starts, eventAt, List.getElem?_eq_none hle] at h
  cases h

/-- The edges of an event go to labels of the script, or to the block behind a call. -/
theorem Charts.event_starts (hat : At sc k b r) {e : HeightEdge} {l : Label}
    (hedge : (e, l) ∈ (viewAt sc k).edgesBy (eventAt sc k)) : ∃ j, Starts sc j l := by
  cases hact : sc[k]? with
  | none => simp [eventAt, hact, View.edgesBy] at hedge
  | some act =>
    cases act with
    | newLabel => simp [eventAt, hact, View.edgesBy] at hedge
    | event event =>
      cases event with
      | label n =>
        obtain ⟨-, rfl⟩ : e = .flow (viewAt sc k).height ∧ l = labelOf sc n := by
          simpa [eventAt, hact, MethodEvent.map, View.edgesBy] using hedge
        exact ⟨k, starts_of_places hact⟩
      | instruction i =>
        have hi : sc.instruction? k = some i := by rw [Script.instruction?, hact]
        -- a label of the instruction is placed somewhere
        have hpl : ∀ l ∈ (i.map (labelOf sc)).places, ∃ j, Starts sc j l := by
          intro l hl
          rw [Instruction.places_map] at hl
          obtain ⟨n, hn, rfl⟩ := List.mem_map.1 hl
          obtain ⟨target, htgt⟩ := hch.placed hi hn
          exact ⟨target, starts_of_places htgt⟩
        rw [eventAt_instruction hi, View.edgesBy] at hedge
        split at hedge
        next hcall =>
          simp only [List.mem_cons, List.not_mem_nil, or_false] at hedge
          rcases hedge with heq | heq
          · cases heq
            obtain ⟨target, htgt⟩ := Instruction.places_of_isCall hcall
            exact hpl _ (by simp [htgt])
          · cases heq
            refine ⟨k, ?_⟩
            rw [Starts, eventAt_instruction hi, View.startedBy, hcall, hat.current.1]
            rfl
        next =>
          split at hedge
          · cases hedge
          · obtain ⟨l', hl', heq⟩ := List.mem_map.1 hedge
            cases heq
            exact hpl l hl'
      | _ => simp [eventAt, hact, MethodEvent.map, View.edgesBy] at hedge

/-- Successors are blocks. -/
theorem Charts.edge_starts {l : Label} {e : HeightEdge} (hedge : (e, l) ∈ edges T b) : ∃ j, Starts sc j l := by
  rcases (hch.edge_iff b _).1 hedge with ⟨k, ⟨r, hat⟩, hedge⟩ | ⟨h, start, stop, handler, hhdl, -, heq⟩
  · exact hch.event_starts hat hedge
  · cases heq
    exact ⟨handler, starts_of_places hhdl.handler⟩

theorem Charts.lt_size (h : Starts sc k b) : b < T.size :=
  hch.blocks b ((hch.drawn.mem_blocks _ b).2 ⟨k, starts_lt_length h, h⟩)

theorem Charts.bounded : Bounded T := by
  intro b e l hedge
  obtain ⟨k, hstarts⟩ := hch.edge_starts hedge
  exact hch.lt_size hstarts

/-- **A step of control** stays in its block, or follows an edge that carries the height along. -/
theorem Charts.follow {k' : Nat} {start height' : Int} (hat : At sc k b r) (hflow : sc.Flow k (start + r) k' height') :
    (∃ r', At sc k' b r' ∧ height' = start + r') ∨
    ∃ e l start', (e, l) ∈ edges T b ∧ arrival start e = some start' ∧ (∀ height, e ≠ .call height) ∧
      At sc k' l 0 ∧ height' = start' := by
  have hdrawn := hch.drawn
  obtain ⟨hcur, hht⟩ := hat.current
  cases hflow with
  | @pass _ act hact hnone =>
    have hoth := eventAt_ne_instruction hnone
    cases hstarted : (viewAt sc k).startedBy (eventAt sc k) with
    | none => exact .inl ⟨r, hdrawn.at_succ hat hstarted hoth, rfl⟩
    | some l =>
      have hnext := hdrawn.at_of_starts hstarted
      cases he : eventAt sc k with
      | label l' =>
        rw [he] at hstarted
        cases hstarted
        refine .inr ⟨.flow r, l, start + r, hch.edge_of_event hat ?_, rfl, by simp, hnext, rfl⟩
        rw [he, View.edgesBy, hht]
        exact List.mem_singleton_self _
      | code =>
        have hcode : sc[k]? = some (.event .code) := by
          rw [hact]
          cases act with
          | newLabel => simp [eventAt, hact] at he
          | event e => cases e <;> simp [eventAt, hact, MethodEvent.map] at he ⊢
        obtain ⟨-, -, -, hout, -⟩ := hch.entry hcode
        rw [hout] at hcur
        cases hcur
      | instruction i => exact absurd he (hoth i)
      | _ =>
        rw [he] at hstarted
        cases hstarted
  | @fall _ i hi hfalls =>
    refine .inl ⟨r + i.delta, ?_, by omega⟩
    rw [← i.delta_map (labelOf sc)]
    exact hdrawn.at_fall hat (eventAt_instruction hi) (by rw [Instruction.fallsThrough_map, hfalls])
  | @jump n target _ i hi hcall hn htgt =>
    refine .inr ⟨.flow (r + i.delta), labelOf sc n, start + (r + i.delta), hch.edge_of_event hat ?_, rfl, by simp,
      hdrawn.at_of_starts (starts_of_places htgt), by omega⟩
    have hret : i.isReturn = false := by
      refine Bool.eq_false_iff.2 fun hret => ?_
      rw [Instruction.places_of_isReturn hret] at hn
      cases hn
    rw [eventAt_instruction hi, View.edgesBy, Instruction.isCall_map, hcall, Instruction.isReturn_map, hret,
      Instruction.places_map, Instruction.delta_map, hht]
    simp only [Bool.false_eq_true, if_false, List.map_map]
    exact List.mem_map_of_mem (f := _ ∘ _) hn
  | @caught first last handler _ i h hi hhdl hst hstop =>
    exact .inr ⟨.exception, labelOf sc h.handler, 1, hch.edge_of_caught hat hhdl hst hstop, rfl, by simp,
      hdrawn.at_of_starts (starts_of_places hhdl.handler), rfl⟩

/-- A call leads into the subroutine, and there is a block behind it. -/
theorem Charts.calls_of_isCall {n target : Nat} {i : Instruction Nat} (hat : At sc k b r)
    (hi : sc.instruction? k = some i) (hcall : i.isCall = true) (hn : n ∈ i.places)
    (htgt : sc.Places target n) :
    ∃ site, Calls T b (labelOf sc n) site ∧ (.call (r + 1), labelOf sc n) ∈ edges T b ∧ At sc (k + 1) site 0 ∧
      At sc (target + 1) (labelOf sc n) 0 := by
  have hdrawn := hch.drawn
  obtain ⟨hcur, hht⟩ := hat.current
  obtain ⟨m, hm⟩ := Instruction.places_of_isCall hcall
  obtain rfl : n = m := by simpa [hm] using hn
  have hpls : (i.map (labelOf sc)).places.headD 0 = labelOf sc n := by rw [Instruction.places_map, hm]; rfl
  have hedges : (viewAt sc k).edgesBy (eventAt sc k) =
      [(.call (r + 1), labelOf sc n), (.returnSite r, (viewAt sc k).fresh)] := by
    rw [eventAt_instruction hi, View.edgesBy, Instruction.isCall_map, hcall, if_pos rfl, hpls, hht]
  have hstarts : Starts sc k (viewAt sc k).fresh := by
    rw [Starts, eventAt_instruction hi, View.startedBy, Instruction.isCall_map, hcall, hcur]
    rfl
  have hinto : (.call (r + 1), labelOf sc n) ∈ edges T b := hch.edge_of_event hat (by simp [hedges])
  have hbeh : (.returnSite r, (viewAt sc k).fresh) ∈ edges T b := hch.edge_of_event hat (by simp [hedges])
  exact ⟨_, ⟨⟨_, hinto⟩, ⟨_, hbeh⟩⟩, hinto, hdrawn.at_of_starts hstarts,
    hdrawn.at_of_starts (starts_of_places htgt)⟩

/-! ### Executions -/

/-- **Executions follow edges.** The table may have more edges than those of the script; it has one from each return to
the blocks behind the calls that may have led to it. -/
theorem Charts.executes_arrives {U : LabelTable} {entry : Label}
    (hent : (viewAt sc sc.length).blocks[0]? = some entry)
    (hmore : ∀ b edge, edge ∈ edges T b → edge ∈ edges U b)
    (hback : ∀ caller target site b r, Calls T caller target site → Within T target b →
      (T.info b).sized.returnHeight = some r → (.flow r, site) ∈ edges U b) {height : Int} {calls : List Nat} (h : sc.Executes k height calls) :
    ∃ b r start, At sc k b r ∧ height = start + r ∧ Arrives U entry b start ∧ Nested sc T calls b := by
  induction h with
  | @entry k hcode =>
    obtain ⟨first, hfst, hstarts, -⟩ := hch.entry hcode
    rw [hent] at hfst
    cases hfst
    exact ⟨entry, 0, 0, hch.drawn.at_of_starts hstarts, rfl, .entry, .main⟩
  | @flow k k' height height' calls _ hflow ih =>
    obtain ⟨b, r, start, hat, rfl, harr, hnested⟩ := ih
    rcases hch.follow hat hflow with ⟨r', hat', hht'⟩ | ⟨e, l, start', hedge, harrival, hlocal, hat', rfl⟩
    · exact ⟨b, r', start, hat', hht', harr, hnested⟩
    · have hsucc := (mem_localSuccessors T b l).2 ⟨e, hedge, hlocal⟩
      exact ⟨l, 0, height', hat', by omega, harr.edge (hmore b _ hedge) harrival, hnested.step (.inr hsucc)⟩
  | @call k n target height calls i _ hi hcall hn htgt ih =>
    obtain ⟨b, r, start, hat, rfl, harr, hnested⟩ := ih
    obtain ⟨site, hcalls, hedge, hsite, hat'⟩ := hch.calls_of_isCall hat hi hcall hn htgt
    refine ⟨labelOf sc n, 0, start + (r + 1), hat', by omega, harr.edge (hmore b _ hedge) rfl, ?_⟩
    exact .called hcalls hsite .refl hnested
  | @back k site height calls i _ hi hret ih =>
    obtain ⟨b, r, start, hat, rfl, harr, hnested⟩ := ih
    cases hnested with
    | @called caller target behind _ _ _ hcalls hsite hwithin hnested =>
      have hreturns : (T.info b).sized.returnHeight = some r := by
        refine (hch.returns_iff b r).2 ⟨k, hat, ?_⟩
        rw [eventAt_instruction hi, isReturn, Instruction.isReturn_map, hret]
      have hedge := hback caller target behind b r hcalls hwithin hreturns
      obtain ⟨height, hreturnSite⟩ := hcalls.site
      have hsucc := (mem_localSuccessors T caller behind).2 ⟨_, hreturnSite, by simp⟩
      exact ⟨behind, 0, start + r, hsite, by omega, harr.edge hedge rfl, hnested.step (.inr hsucc)⟩

end

end Sizing

end JvmAssembler
