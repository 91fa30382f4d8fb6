import JvmAssembler.Proofs.Sizing.Linking

/-!
# JvmAssembler.Proofs.Subroutines

The stack sizes of methods that call subroutines.

Returns are linked to the blocks behind the calls that may have led to them, so that the heights of an execution are those
along edges. This takes two things. A return must not share a set with a caller of its subroutine, for then the two are not
linked (`Separate`). And the edges, of which there may be more than executions follow, must give each block one height.
Then no execution is higher than the size that was found (`executes_le_maxStack`).
-/

namespace JvmAssembler

namespace Sizing

open MethodWriter Typesetting

/-! ### Calls -/

section
variable {sc : Script} {T : LabelTable} (hch : Charts sc T)
include hch

/-- Edges of a call are those of one point. -/
theorem Charts.call_point {b l : Label} {e : HeightEdge} (hedge : (e, l) ∈ edges T b)
    (he : (∃ height, e = .call height) ∨ ∃ height, e = .returnSite height) :
    ∃ k r, At sc k b r ∧ isCall (eventAt sc k) = true ∧
      (e, l) ∈ (viewAt sc k).edgesBy (eventAt sc k) := by
  rcases (hch.edge_iff b _).1 hedge with ⟨k, ⟨r, hat⟩, hhere⟩ | ⟨h, start, stop, handler, -, -, heq⟩
  · refine ⟨k, r, hat, ?_, hhere⟩
    cases hev : eventAt sc k with
    | instruction i =>
      rw [hev, View.edgesBy] at hhere
      split at hhere
      next hcall => exact hcall
      next =>
        split at hhere
        · cases hhere
        · obtain ⟨l', -, heq⟩ := List.mem_map.1 hhere
          cases heq
          rcases he with ⟨_, he⟩ | ⟨_, he⟩ <;> cases he
    | label l' =>
      rw [hev] at hhere
      cases List.mem_singleton.1 hhere
      rcases he with ⟨_, he⟩ | ⟨_, he⟩ <;> cases he
    | _ =>
      rw [hev] at hhere
      cases hhere
  · cases heq
    rcases he with ⟨_, he⟩ | ⟨_, he⟩ <;> cases he

/-- A block has one call. -/
theorem Charts.call_unique {b : Label} {j k : Nat} {r r' : Int} (hj : At sc j b r) (hk : At sc k b r')
    (hcallj : isCall (eventAt sc j) = true) (hcallk : isCall (eventAt sc k) = true) : j = k := by
  rcases Nat.lt_trichotomy j k with hlt | heq | hlt
  · exact absurd hk (hch.drawn.not_at_of_isCall hj hcallj hlt)
  · exact heq
  · exact absurd hj (hch.drawn.not_at_of_isCall hk hcallk hlt)

/-- The first edges that are found are those of the call. -/
theorem Charts.calls_found {caller target site : Label} (h : Calls T caller target site) :
    caller ∈ (viewAt sc sc.length).blocks ∧ (T.info caller).sized.calls = true ∧
      callTarget? T caller = some target ∧ returnSite? T caller = some site := by
  obtain ⟨⟨height, hcall⟩, ⟨height', hsite⟩⟩ := h
  obtain ⟨k, r, hat, hisCall, hhere⟩ := hch.call_point hcall (.inl ⟨_, rfl⟩)
  -- an edge of the call is one of those at this point
  have hsame : ∀ e l, (e, l) ∈ edges T caller → (∃ height, e = .call height) ∨ (∃ height, e = .returnSite height) →
      (e, l) ∈ (viewAt sc k).edgesBy (eventAt sc k) := by
    intro e l hedge he
    obtain ⟨j, r', hat', hisCall', hhere'⟩ := hch.call_point hedge he
    rwa [hch.call_unique hat' hat hisCall' hisCall] at hhere'
  obtain ⟨i, hi, hedges⟩ : ∃ i, eventAt sc k = .instruction i ∧ (viewAt sc k).edgesBy (eventAt sc k) =
      [(.call ((viewAt sc k).height + 1), i.places.headD 0),
        (.returnSite (viewAt sc k).height, (viewAt sc k).fresh)] := by
    cases hev : eventAt sc k with
    | instruction i =>
      rw [hev] at hisCall
      exact ⟨i, rfl, if_pos hisCall⟩
    | _ => simp [hev, isCall] at hisCall
  have hsite' := hsame _ _ hsite (.inr ⟨_, rfl⟩)
  have htgts : ∀ e l, (e, l) ∈ edges T caller → (∃ height, e = .call height) → l = target := by
    rintro e l hedge ⟨height'', rfl⟩
    have hfnd := hsame _ _ hedge (.inl ⟨_, rfl⟩)
    rw [hedges] at hfnd hhere
    simp at hfnd hhere
    rw [hfnd.2, hhere.2]
  have hsites : ∀ e l, (e, l) ∈ edges T caller → (∃ height, e = .returnSite height) → l = site := by
    rintro e l hedge ⟨height'', rfl⟩
    have hfnd := hsame _ _ hedge (.inr ⟨_, rfl⟩)
    rw [hedges] at hfnd hsite'
    simp at hfnd hsite'
    rw [hfnd.2, hsite'.2]
  obtain ⟨j, hj, hstarts, -⟩ := hch.drawn.at_start hat
  refine ⟨(hch.drawn.mem_blocks _ _).2 ⟨j, starts_lt_length hstarts, hstarts⟩,
    (hch.calls_iff caller).2 ⟨k, ⟨r, hat⟩, hisCall⟩, ?_, ?_⟩
  · cases hfnd : callTarget? T caller with
    | none => simpa using List.findSome?_eq_none_iff.1 hfnd _ hcall
    | some l =>
      obtain ⟨height'', hedge⟩ := callTarget?_some hfnd
      rw [htgts _ _ hedge ⟨_, rfl⟩]
  · cases hfnd : returnSite? T caller with
    | none => simpa using List.findSome?_eq_none_iff.1 hfnd _ hsite
    | some l =>
      obtain ⟨height'', hedge⟩ := returnSite?_some hfnd
      rw [hsites _ _ hedge ⟨_, rfl⟩]

end

/-- Whatever calls a subroutine shares no code with its returns, be it the main code or another subroutine. -/
def Separate (T : LabelTable) (entry : Label) : Prop :=
  ∀ caller target site b, Calls T caller target site → Within T target b →
    (T.info b).sized.returnHeight.isSome = true → ∀ root, IsRoot T entry root → Within T root caller → ¬ Within T root b

/-- The label table of a method whose body is closed, with the edges to handlers. -/
def charted (w : MethodWriter) : LabelTable := addExceptionEdges w.blocks w.handlers.toList (closed w)

/-- The first block of a method. -/
def entryOf (w : MethodWriter) : Label := w.blocks.getD 0 0

/-- The label table of a method whose body is closed, with the edges to handlers and those from returns. -/
def linked (w : MethodWriter) : LabelTable :=
  if w.hasSubroutines then linkSubroutines (entryOf w) w.blocks.toList (charted w) else charted w

/-- The size that is found when the body is closed. -/
theorem maxStack_of_maxs {w w' : MethodWriter} {stack locals : UInt16} {u : Unit} {entry : Label} (hw : Sized w)
    (hent : w.blocks[0]? = some entry) (h : send (.maxs stack locals) w = .ok u w') :
    entryOf w = entry ∧ w'.maxLocals = w.maxLocals ∧
    w'.maxStack = (walk (linked w) ((linked w).size + 1) [entry]
      ((Array.replicate (linked w).size none).setIfInBounds entry (some 0)) 0).toNat := by
  have hfst : entryOf w = entry := by
    rw [entryOf, Array.getD_eq_getD_getElem?, hent]
    rfl
  obtain ⟨-, -, -, v, hsettle, rfl⟩ := maxs_ok h
  rw [hw.compute] at hsettle
  obtain rfl := computeSizes_ok hsettle
  refine ⟨hfst, rfl, ?_⟩
  dsimp only [linked]
  rw [maxStack, hent, hfst]
  rfl

section
variable {context : ClassContext} {d : Declaration} {descriptor : MethodDescriptor} {pool : Pool}
  {methods : Array (Member .ofMethod)} {sc : Script} {s : Session} {w' : MethodWriter} {stack locals : UInt16}

/-- The chart of a method whose body can be closed. -/
theorem charts_of_maxs (h : (start context .maxs d descriptor pool methods).Performs sc s)
    (hmaxs : send (.maxs stack locals) s.writer = .ok () w') :
    Charts sc (charted s.writer) ∧ Sized s.writer ∧
      s.writer.blocks = (viewAt sc sc.length).blocks.toArray ∧
      s.writer.hasSubroutines = (viewAt sc sc.length).hasSubroutines := by
  obtain ⟨-, hwait, hhans, -⟩ := maxs_ok hmaxs
  obtain ⟨-, hsz, hsketch⟩ := performs_sketch h
  have hview : viewAt sc sc.length = view s.writer := by
    rw [viewAt, hsketch]
    rfl
  exact ⟨charts_closed h hwait hhans, hsz, by rw [hview]; rfl, by rw [hview]; rfl⟩

/-- Every return that an execution can take is linked. -/
theorem linked_returns (hch : Charts sc (charted s.writer))
    (hblks : s.writer.blocks = (viewAt sc sc.length).blocks.toArray)
    (hsubs : s.writer.hasSubroutines = (viewAt sc sc.length).hasSubroutines)
    (hsep : Separate (charted s.writer) (entryOf s.writer)) :
    Links (charted s.writer) (linked s.writer) ∧
    ∀ caller target site b r, Calls (charted s.writer) caller target site → Within (charted s.writer) target b →
      ((charted s.writer).info b).sized.returnHeight = some r → (.flow r, site) ∈ edges (linked s.writer) b := by
  unfold linked
  split
  next =>
    obtain ⟨hlinks, hlinked⟩ := linkSubroutines_links hch.bounded (entryOf s.writer) s.writer.blocks.toList
    refine ⟨hlinks, fun caller target site b r hcalls hwithin hr => ?_⟩
    obtain ⟨hmem, hcalling, htgt, hsite⟩ := hch.calls_found hcalls
    refine hlinked caller (by simpa [hblks] using hmem) target site b r hcalling htgt hsite hwithin hr ?_
    -- if a set had both the return and the caller, they would share code
    refine Classical.not_not.1 fun hshared => ?_
    obtain ⟨root, hroot, hb, hcaller⟩ := memberships_sound hshared
    exact hsep caller target site b hcalls hwithin (by simp [hr]) root hroot hcaller hb
  next hnone =>
    refine ⟨.refl _, fun caller target site b r hcalls => ?_⟩
    obtain ⟨-, hcalling, -⟩ := hch.calls_found hcalls
    obtain ⟨k, ⟨r', hat⟩, hcall⟩ := (hch.calls_iff caller).1 hcalling
    refine absurd ?_ hnone
    rw [hsubs, hch.drawn.hasSubroutines_iff]
    refine ⟨k, Nat.lt_of_not_le fun hle => ?_, ⟨caller, r', hat⟩, hcall⟩
    rw [eventAt, List.getElem?_eq_none hle] at hcall
    cases hcall

/-- **The stack size covers every execution**, calls of subroutines and returns from them included, if callers share no
code with the returns of what they call and the edges give each block one height. -/
theorem executes_le_maxStack (h : (start context .maxs d descriptor pool methods).Performs script s)
    (hmaxs : send (.maxs stack locals) s.writer = .ok () w')
    (hseparate : Separate (charted s.writer) (entryOf s.writer))
    (hagrees : Agrees (linked s.writer) (entryOf s.writer)) {k : Nat} {height : Int} {calls : List Nat}
    (hexecutes : script.Executes k height calls) : height ≤ w'.maxStack := by
  obtain ⟨hcharts, hsized, hblocks, hsubroutines⟩ := charts_of_maxs h hmaxs
  obtain ⟨j, hcode⟩ := hexecutes.code
  obtain ⟨entry, hentry, hstarts, -⟩ := hcharts.entry hcode
  obtain ⟨hfirst, -, hsize⟩ := maxStack_of_maxs hsized (by simpa [hblocks] using hentry) hmaxs
  obtain ⟨hlinks, hback⟩ := linked_returns hcharts hblocks hsubroutines hseparate
  obtain ⟨b, r, start, hat, rfl, harrives, -⟩ :=
    hcharts.executes_arrives hentry (fun b edge => hlinks.mem_edges) hback hexecutes
  rw [hfirst] at hagrees
  have hwalk := le_walk (hlinks.bounded hcharts.bounded) (hlinks.size ▸ hcharts.lt_size hstarts) hagrees harrives
  have hpeak := hcharts.le_peak hat
  rw [hlinks.peak] at hwalk
  rw [hsize]
  omega

end

/-! ### Checking a method -/

theorem lt_size_of_edge {T : LabelTable} {b : Label} {edge : HeightEdge × Label} (h : edge ∈ edges T b) : b < T.size := by
  refine Nat.lt_of_not_le fun hle => ?_
  rw [edges, LabelTable.info_of_size_le _ _ hle] at h
  cases h

/-- Heights that every edge carries along are the only ones. -/
theorem agrees_of_heights {labels : LabelTable} {entry : Label} (heights : Label → Option Int) (hent : heights entry = some 0)
    (hedges : ∀ b < labels.size, ∀ edge ∈ edges labels b, (heights b).bind (arrival · edge.1) = none ∨
      (heights b).bind (arrival · edge.1) = heights edge.2) : Agrees labels entry := by
  have hfnd : ∀ b height, Arrives labels entry b height → heights b = some height := by
    intro b height h
    induction h with
    | entry => exact hent
    | @edge b l start height e _ hmem harrival ih =>
      have hcar := hedges b (lt_size_of_edge hmem) (e, l) hmem
      rw [ih, Option.bind_some, harrival] at hcar
      rcases hcar with hnone | hsame
      · cases hnone
      · exact hsame.symm
  intro b height height' h h'
  exact Option.some.inj ((hfnd b height h).symm.trans (hfnd b height' h'))

/-- Whether no caller of a subroutine is within the same code as one of its returns, given the blocks that each block is
within. -/
def isSeparate (T : LabelTable) (roots : Label → List Label) : Bool :=
  (List.range T.size).all fun caller => (edges T caller).all fun edge =>
    !(edge.1 matches .call _) || (List.range T.size).all fun b =>
      !(roots b).contains edge.2 || (T.info b).sized.returnHeight.isNone ||
        (roots caller).all fun root => !(roots b).contains root

theorem separate_of_roots {T : LabelTable} {entry : Label} (roots : Label → List Label) (hent : entry ∈ roots entry)
    (hself : ∀ b < T.size, ∀ edge ∈ edges T b, edge.2 ∈ roots edge.2)
    (hlocal : ∀ b < T.size, ∀ l ∈ localSuccessors T b, ∀ root ∈ roots b, root ∈ roots l)
    (hapart : isSeparate T roots = true) : Separate T entry := by
  have hwithin : ∀ root b, root ∈ roots root → Within T root b → root ∈ roots b := by
    intro root b hroot h
    induction h with
    | refl => exact hroot
    | @tail b l _ hl ih =>
      obtain ⟨e, hedge, -⟩ := (mem_localSuccessors T b l).1 hl
      exact hlocal b (lt_size_of_edge hedge) l hl root ih
  intro caller target site b hcalls hb hret root hroot hcaller hboth
  obtain ⟨height, hcall⟩ := hcalls.call
  have hrooted : root ∈ roots root := by
    rcases hroot with rfl | ⟨c, height, hedge⟩
    · exact hent
    · exact hself c (lt_size_of_edge hedge) _ hedge
  have htgt := hself caller (lt_size_of_edge hcall) _ hcall
  have hsize : b < T.size := by
    refine Nat.lt_of_not_le fun hle => ?_
    rw [LabelTable.info_of_size_le _ _ hle] at hret
    cases hret
  have hchecked := List.all_eq_true.1 (List.all_eq_true.1 hapart caller (List.mem_range.2 (lt_size_of_edge hcall))) _ hcall
  simp only [Bool.not_true, Bool.false_or] at hchecked
  have hb' := List.all_eq_true.1 hchecked b (List.mem_range.2 hsize)
  rw [Option.isSome_iff_ne_none] at hret
  have hroots : ∀ root ∈ roots caller, root ∉ roots b := by
    simpa [hret, hwithin target b htgt hb] using hb'
  exact hroots root (hwithin root caller hrooted hcaller) (hwithin root b hrooted hboth)

/-- The main code and a subroutine both hold an item while they call another subroutine. -/
def nestedCalls : Script :=
  [.event .code, .newLabel, .newLabel,
    .event (.instruction (.jump Opcode.jsr 0)), .event (.instruction (.plain 3)),
    .event (.instruction (.jump Opcode.jsr 1)), .event (.instruction (.plain 87)), .event (.instruction (.plain 177)),
    -- `astore` the return address, and `iconst_0`, `pop` around the call
    .event (.label 0), .event (.instruction (.var 58 0)), .event (.instruction (.plain 3)),
    .event (.instruction (.jump Opcode.jsr 1)), .event (.instruction (.plain 87)),
    .event (.instruction (.var Opcode.ret 0)),
    .event (.label 1), .event (.instruction (.var 58 1)), .event (.instruction (.var Opcode.ret 1))]

set_option maxRecDepth 4000 in
theorem executes_nestedCalls : nestedCalls.Executes 15 2 [12, 4] := by
  have hst : nestedCalls.Executes 3 0 [] := ((Script.Executes.entry rfl).flow (.pass rfl rfl)).flow (.pass rfl rfl)
  have houter : nestedCalls.Executes 9 1 [4] := hst.call (n := 0) rfl rfl (List.mem_singleton_self 0) rfl
  have hstored : nestedCalls.Executes 10 (1 + (.var 58 0 : Instruction Nat).delta) [4] :=
    houter.flow (.fall rfl rfl)
  have hpushed : nestedCalls.Executes 11 (1 + (.var 58 0 : Instruction Nat).delta + (.plain 3 : Instruction Nat).delta)
      [4] := hstored.flow (.fall rfl rfl)
  have hht : 1 + (.var 58 0 : Instruction Nat).delta + (.plain 3 : Instruction Nat).delta = 1 := rfl
  rw [hht] at hpushed
  exact hpushed.call (n := 1) rfl rfl (List.mem_singleton_self 1) rfl

/-- The size covers what happens in the nested call, where both an item and a return address are on the stack. -/
theorem executes_le_maxStack_nestedCalls :
    ∃ s w', (start ⟨.javaLang, "A", ⟨50, 0⟩⟩ .maxs ⟨⟨9⟩, "m", "()V", none, []⟩ ⟨[], none⟩ .empty #[]).Performs nestedCalls s ∧
      send (.maxs 0 0) s.writer = .ok () w' ∧ Separate (charted s.writer) (entryOf s.writer) ∧
      Agrees (linked s.writer) (entryOf s.writer) ∧ nestedCalls.Executes 15 2 [12, 4] ∧ (2 : Int) ≤ w'.maxStack := by
  let heights : Label → Option Int := fun b => [some 0, some 1, some 2, some 0, some 1, some 1].getD b none
  let roots : Label → List Label := fun b => [[0], [1], [2], [0, 3], [0, 3, 4], [1, 5]].getD b []
  have hrun : ((Session.run ⟨#[], start ⟨.javaLang, "A", ⟨50, 0⟩⟩ .maxs ⟨⟨9⟩, "m", "()V", none, []⟩ ⟨[], none⟩ .empty #[]⟩
      nestedCalls).any fun (s : Session) =>
        succeedsIn (fun _ => true) (send (.maxs 0 0) s.writer) && entryOf s.writer == 0 &&
        decide (∀ b < (linked s.writer).size, ∀ edge ∈ edges (linked s.writer) b,
          (heights b).bind (arrival · edge.1) = none ∨ (heights b).bind (arrival · edge.1) = heights edge.2) &&
        decide (∀ b < (charted s.writer).size, ∀ edge ∈ edges (charted s.writer) b, edge.2 ∈ roots edge.2) &&
        decide (∀ b < (charted s.writer).size, ∀ l ∈ localSuccessors (charted s.writer) b, ∀ root ∈ roots b,
          root ∈ roots l) &&
        isSeparate (charted s.writer) roots) = true := by
    decide +kernel
  obtain ⟨s, hperforms, hs⟩ := (Option.any_eq_true _ _).1 hrun
  simp only [Bool.and_eq_true, decide_eq_true_iff, beq_iff_eq] at hs
  obtain ⟨⟨⟨⟨⟨haccepted, hentry⟩, hheights⟩, hself⟩, hlocal⟩, hapart⟩ := hs
  obtain ⟨u, w', hsend, -⟩ := exists_of_succeedsIn haccepted
  have hseparate : Separate (charted s.writer) (entryOf s.writer) := by
    rw [hentry]
    exact separate_of_roots roots (List.mem_singleton_self 0) hself hlocal hapart
  have hagrees : Agrees (linked s.writer) (entryOf s.writer) := by
    rw [hentry]
    exact agrees_of_heights heights rfl hheights
  exact ⟨s, w', hperforms, hsend, hseparate, hagrees, executes_nestedCalls,
    executes_le_maxStack hperforms hsend hseparate hagrees executes_nestedCalls⟩

end Sizing

end JvmAssembler
