import JvmAssembler.Proofs.Sizing.Points
import JvmAssembler.Proofs.Sizing.Walk
import JvmAssembler.Proofs.Typesetting.Log

/-!
# JvmAssembler.Proofs.Sizing.Table

The blocks of a method when its body is closed.

A writer that computes sizes follows the sketch of the script that it performs. When the body is closed, every label that
something refers to is placed, and blocks of protected ranges get edges to their handlers.
-/

namespace JvmAssembler

namespace Sizing

open MethodWriter Typesetting

/-! ### Following a script -/

theorem view_start (context : ClassContext) (d : Declaration) (desc : MethodDescriptor) (pool : Pool)
    (methods : Array (Member .ofMethod)) : view (start context .maxs d desc pool methods) = {} := by
  have hinfo : ∀ l, LabelTable.info (start context .maxs d desc pool methods).labels l = {} :=
    fun l => LabelTable.info_of_size_le _ _ (Nat.zero_le l)
  simp only [view, hinfo, LabelTable.isPlaced, LabelTable.position?]
  rfl

theorem sized_start (context : ClassContext) (d : Declaration) (desc : MethodDescriptor) (pool : Pool)
    (methods : Array (Member .ofMethod)) : Sized (start context .maxs d desc pool methods) := by
  refine ⟨rfl, ?_⟩
  rw [view_start]
  exact ⟨nofun, Int.le_refl _⟩

def Sketch.ofSession (s : Session) : Sketch := ⟨s.made, Sizing.view s.writer⟩

/-- An act of a session is one of its sketch. -/
theorem perform_sketch {s s' : Session} {act : Act} (hs : Sized s.writer) (h : s.perform act = some s') :
    (Sketch.ofSession s).Allows act ∧ Sized s'.writer ∧ (Sketch.ofSession s).perform act = .ofSession s' := by
  cases act with
  | newLabel =>
    obtain rfl := Session.perform_newLabel h
    have hview : view { s.writer with labels := s.writer.labels.push {} } =
        { view s.writer with fresh := (view s.writer).fresh + 1 } := by
      simp [view]
    refine ⟨trivial, ⟨hs.compute, ?_⟩, ?_⟩
    · rw [hview]
      exact ⟨fun b hb => Nat.lt_succ_of_lt (hs.sound.current b hb), hs.sound.peak⟩
    · rw [Sketch.perform, Sketch.ofSession, Sketch.ofSession, hview]
      rfl
  | event e =>
    obtain ⟨hev, hpls, hmade, hsend⟩ := Session.perform_event h
    rw [← MethodEvent.endsBody_map e s.label] at hev
    obtain ⟨hsz, hview⟩ := sizes_send hev _ _ _ hs hsend
    refine ⟨⟨hpls, send_allowed hev hs hsend⟩, hsz, ?_⟩
    rw [Sketch.perform, Sketch.ofSession, Sketch.ofSession, hmade, hview]
    rfl

/-- **A writer that computes sizes** follows the sketch of the script that it performs. -/
theorem run_sketch {s s' : Session} {sc : Script} (hs : Sized s.writer) (h : s.run sc = some s') :
    Sized s'.writer ∧ sc.foldl Sketch.perform (.ofSession s) = .ofSession s' ∧
    ∀ k act, sc[k]? = some act → ((sc.take k).foldl Sketch.perform (.ofSession s)).Allows act := by
  induction sc generalizing s with
  | nil =>
    cases h
    exact ⟨hs, rfl, nofun⟩
  | cons first sc ih =>
    obtain ⟨t, hact, hrest⟩ := Session.run_cons h
    obtain ⟨hallows, ht, hperf⟩ := perform_sketch hs hact
    obtain ⟨hs', hfold, hall⟩ := ih ht hrest
    rw [List.foldl_cons, hperf]
    refine ⟨hs', hfold, fun k act hk => ?_⟩
    cases k with
    | zero =>
      cases hk
      exact hallows
    | succ k =>
      rw [List.take_succ_cons, List.foldl_cons, hperf]
      exact hall k act (by simpa using hk)

section
variable {context : ClassContext} {d : Declaration} {desc : MethodDescriptor} {pool : Pool}
  {methods : Array (Member .ofMethod)} {sc : Script} {s : Session}

theorem performs_sketch (h : (start context .maxs d desc pool methods).Performs sc s) :
    Drawn sc ∧ Sized s.writer ∧ sketch sc sc.length = .ofSession s := by
  obtain ⟨hsz, hfold, hall⟩ := run_sketch (sized_start context d desc pool methods) h
  have hst : Sketch.ofSession ⟨#[], start context .maxs d desc pool methods⟩ = {} := by
    rw [Sketch.ofSession, view_start]
  rw [hst] at hfold hall
  refine ⟨hall, hsz, ?_⟩
  rw [sketch, List.take_length]
  exact hfold

end

/-! ### Adding edges -/

/-- Blocks get more edges, and nothing else is changed. -/
structure Adds (labels labels' : LabelTable) (P : Label → HeightEdge × Label → Prop) : Prop where
  size : labels'.size = labels.size
  sized : ∀ b, ∃ more : List (HeightEdge × Label),
    (labels'.info b).sized = { (labels.info b).sized with edges := (labels.info b).sized.edges ++ more.toArray } ∧
    ∀ edge, edge ∈ more ↔ P b edge

namespace Adds

variable {T U V : LabelTable} {P Q : Label → HeightEdge × Label → Prop}

theorem refl (T : LabelTable) : Adds T T fun _ _ => False := ⟨rfl, fun b => ⟨[], by simp, by simp⟩⟩

theorem trans (h : Adds T U P) (h' : Adds U V Q) : Adds T V fun b edge => P b edge ∨ Q b edge := by
  refine ⟨h'.size.trans h.size, fun b => ?_⟩
  obtain ⟨more, hsz, hmem⟩ := h.sized b
  obtain ⟨more', hsz', hmem'⟩ := h'.sized b
  refine ⟨more ++ more', ?_, fun edge => by rw [List.mem_append, hmem, hmem']⟩
  rw [hsz', hsz]
  simp

theorem congr (h : Adds T U P) (hPQ : ∀ b edge, P b edge ↔ Q b edge) : Adds T U Q :=
  ⟨h.size, fun b =>
    let ⟨more, hsz, hmem⟩ := h.sized b
    ⟨more, hsz, fun edge => (hmem edge).trans (hPQ b edge)⟩⟩

theorem mem_edges (h : Adds T U P) (b : Label) (edge : HeightEdge × Label) :
    edge ∈ edges U b ↔ edge ∈ edges T b ∨ P b edge := by
  obtain ⟨more, hsz, hmem⟩ := h.sized b
  rw [edges, edges, hsz]
  simp [hmem]

theorem returnHeight (h : Adds T U P) (b : Label) :
    (U.info b).sized.returnHeight = (T.info b).sized.returnHeight := by
  obtain ⟨more, hsz, -⟩ := h.sized b
  rw [hsz]

theorem calls (h : Adds T U P) (b : Label) : (U.info b).sized.calls = (T.info b).sized.calls := by
  obtain ⟨more, hsz, -⟩ := h.sized b
  rw [hsz]

theorem peak (h : Adds T U P) (b : Label) : peak U b = peak T b := by
  obtain ⟨more, hsz, -⟩ := h.sized b
  rw [Sizing.peak, Sizing.peak, hsz]

/-- Several additions, one for each item of a list. -/
theorem foldl {α : Type} {f : LabelTable → α → LabelTable} {P : α → Label → HeightEdge × Label → Prop} (as : List α)
    {T : LabelTable} (h : ∀ a ∈ as, ∀ U : LabelTable, U.size = T.size → Adds U (f U a) (P a)) :
    Adds T (as.foldl f T) fun b edge => ∃ a ∈ as, P a b edge := by
  induction as generalizing T with
  | nil => exact (refl T).congr fun b edge => by simp
  | cons a as ih =>
    have hfst := h a List.mem_cons_self T rfl
    have hrest := ih fun a' ha' U hU => h a' (List.mem_cons_of_mem _ ha') U (hU.trans hfst.size)
    exact (hfst.trans hrest).congr fun b edge => by simp

end Adds

theorem adds_heightEdge {T : LabelTable} {block : Label} (hblk : block < T.size) (e : HeightEdge) (l : Label) :
    Adds T (T.addHeightEdge block e l) fun b edge => b = block ∧ edge = (e, l) := by
  refine ⟨by simp [LabelTable.addHeightEdge], fun b => ?_⟩
  rw [LabelTable.addHeightEdge, LabelTable.updateSized_eq]
  by_cases hb : b = block
  · subst hb
    rw [LabelTable.info_update_self _ _ _ hblk]
    exact ⟨[(e, l)], by simp, by simp⟩
  · rw [LabelTable.info_update_of_ne _ _ _ _ hb]
    exact ⟨[], by simp, by simp [hb]⟩

/-- **Blocks of protected ranges** get edges to the handlers. -/
theorem adds_exceptionEdges {T : LabelTable} {blocks : Array Label} (hblks : ∀ b ∈ blocks, b < T.size)
    (handlers : List (Handler Label)) :
    Adds T (addExceptionEdges blocks handlers T) fun b edge =>
      ∃ h ∈ handlers, b ∈ blockRange blocks h.start h.stop ∧ edge = (.exception, h.handler) := by
  refine Adds.foldl handlers fun h _ U hU => ?_
  have hrng : ∀ b ∈ blockRange blocks h.start h.stop, b < U.size := by
    intro b hb
    rw [hU]
    refine hblks b ?_
    have hdropped := (List.takeWhile_sublist _).subset hb
    exact Array.mem_toList_iff.1 ((List.dropWhile_sublist _).subset hdropped)
  have hadds := Adds.foldl (blockRange blocks h.start h.stop) (T := U)
    (P := fun block b edge => b = block ∧ edge = (HeightEdge.exception, h.handler))
    fun block hblk V hV => adds_heightEdge (by rw [hV]; exact hrng block hblk) .exception h.handler
  exact hadds.congr fun b edge => ⟨fun ⟨block, hmem, heq, hedge⟩ => ⟨heq ▸ hmem, hedge⟩, fun ⟨hmem, hedge⟩ => ⟨b, hmem, rfl, hedge⟩⟩

/-! ### Closing the body -/

/-- The label table when the body is closed: the last block ends. -/
def closed (w : MethodWriter) : LabelTable :=
  match w.current with
  | none => w.labels
  | some block => w.labels.updateSized block fun b => { b with peak := w.peak }

theorem computeSizes_ok {w w' : MethodWriter} {u : Unit} (h : computeSizes w = .ok u w') :
    w' = { w with
      labels := closed w
      maxStack := maxStack (closed w) w.blocks w.handlers.toList w.hasSubroutines } :=
  (Success.run_modify_ok.1 h).symm

/-- What is known of the blocks when the body is closed. -/
theorem closed_sized {w : MethodWriter} (hw : Sized w) (b : Label) :
    (closed w).size = w.labels.size ∧
    ((closed w).info b).sized = { (view w).sized b with peak := (view w).peakOf b } := by
  have hpeak : (view w).peakOf b = if w.current = some b then w.peak else ((view w).sized b).peak := rfl
  rw [hpeak]
  unfold closed
  split
  next hcur =>
    rw [hcur, if_neg (by simp)]
    exact ⟨rfl, rfl⟩
  next block hcur =>
    have hblk : block < w.labels.size := hw.sound.current block hcur
    refine ⟨by simp, (congrFun (sized_updateSized hblk _) b).trans ?_⟩
    rw [hcur]
    by_cases hb : b = block
    · rw [if_pos hb, if_pos (congrArg some hb.symm), hb]
      rfl
    · rw [if_neg hb, if_neg fun heq => hb (Option.some.inj heq).symm]
      rfl

/-! ### Labels and handlers -/

theorem eventAt_tryCatch {sc : Script} {k : Nat} {h : Handler Label} (hk : eventAt sc k = .tryCatch h) :
    ∃ given : Handler Nat, sc[k]? = some (.event (.tryCatch given)) ∧ h = given.map (labelOf sc) := by
  have hgiven : eventAt sc k ≠ .finish := by simp [hk]
  obtain ⟨e, hact, he⟩ := eventAt_given hgiven
  rw [hk] at he
  cases e with
  | tryCatch given => exact ⟨given, hact, by simpa [MethodEvent.map] using he⟩
  | _ => simp [MethodEvent.map] at he

/-- A label starts a block where it is placed. -/
theorem starts_of_places {sc : Script} {k n : Nat} (h : sc.Places k n) : Starts sc k (labelOf sc n) := by
  rw [Starts, eventAt_label h]
  rfl

section
variable {sc : Script} (hdrawn : Drawn sc)
include hdrawn

variable {j k n : Nat}

theorem Drawn.fresh_mono (hjk : j ≤ k) : (viewAt sc j).fresh ≤ (viewAt sc k).fresh := by
  induction hjk with
  | refl => exact Nat.le_refl _
  | step _ ih => exact Nat.le_trans ih (hdrawn.turns _).fresh

omit hdrawn in
/-- Where a label was made for the caller. -/
theorem label_made (hn : n < (sketch sc k).made.size) :
    ∃ j < k, sc[j]? = some .newLabel ∧ (sketch sc k).label n = (viewAt sc j).fresh := by
  induction k with
  | zero => cases hn
  | succ k ih =>
    have hold : n < (sketch sc k).made.size → ∃ j < k + 1, sc[j]? = some .newLabel ∧
        (sketch sc (k + 1)).label n = (viewAt sc j).fresh := by
      intro hn
      obtain ⟨j, hj, hmade, hlab⟩ := ih hn
      exact ⟨j, by omega, hmade, by rw [(label_sketch (Nat.le_succ k)).2 n hn, hlab]⟩
    by_cases hlt : n < (sketch sc k).made.size
    · exact hold hlt
    · cases hact : sc[k]? with
      | none =>
        rw [sketch_of_none hact] at hn
        exact absurd hn hlt
      | some act =>
        rw [sketch_succ hact] at hn
        cases act with
        | event e => exact absurd hn hlt
        | newLabel =>
          obtain rfl : n = (sketch sc k).made.size := by
            simp only [Sketch.perform, Array.size_push] at hn
            omega
          refine ⟨k, by omega, hact, ?_⟩
          rw [sketch_succ hact]
          simp [Sketch.perform, Sketch.label, viewAt]

/-- A block that starts at no label is headed by a new one. -/
theorem Drawn.starts_cases {b : Label} (h : Starts sc k b) :
    eventAt sc k = .label b ∨
    b = (viewAt sc k).fresh ∧ sc[k]? ≠ some .newLabel ∧ (viewAt sc k).fresh < (viewAt sc (k + 1)).fresh := by
  have hblk : b < (viewAt sc (k + 1)).fresh :=
    (tidy_sketch hdrawn (k + 1)).view.blocks b ((hdrawn.mem_blocks (k + 1) b).2 ⟨k, by omega, h⟩)
  have hact : sc[k]? ≠ some .newLabel := by
    intro hnew
    rw [Starts, eventAt, hnew] at h
    cases h
  unfold Starts at h
  cases he : eventAt sc k with
  | code =>
    rw [he] at h
    cases h
    exact .inr ⟨rfl, hact, hblk⟩
  | label l =>
    rw [he] at h
    cases h
    exact .inl rfl
  | instruction i =>
    rw [he] at h
    simp only [View.startedBy] at h
    split at h
    · cases h
      exact .inr ⟨rfl, hact, hblk⟩
    · cases h
  | _ =>
    rw [he] at h
    cases h

/-- The labels of an event have been made before. -/
theorem Drawn.made_of_mem {e : MethodEvent Nat} (hk : sc[k]? = some (.event e)) (hn : n ∈ e.places) :
    n < (sketch sc sc.length).made.size := by
  have hlen : k ≤ sc.length := Nat.le_of_lt (List.getElem?_eq_some_iff.1 hk).1
  exact Nat.lt_of_lt_of_le ((hdrawn k _ hk).1 n hn) (label_sketch hlen).1

/-- A label that was made for the caller heads a block only where the caller places it. -/
theorem Drawn.places_of_starts (hn : n < (sketch sc sc.length).made.size)
    (h : Starts sc k (labelOf sc n)) : sc.Places k n := by
  rcases hdrawn.starts_cases h with hlab | ⟨hfresh, hoth, hgrows⟩
  · -- labels with different numbers are different
    have hgiven : eventAt sc k ≠ .finish := by simp [hlab]
    obtain ⟨e, hact, he⟩ := eventAt_given hgiven
    rw [hlab] at he
    cases e with
    | label m =>
      have hm := hdrawn.made_of_mem hact (n := m) (by simp [MethodEvent.places])
      have heq : labelOf sc n = labelOf sc m := by simpa [MethodEvent.map] using he
      have hinc := (tidy_sketch hdrawn sc.length).increasing
      rcases Nat.lt_trichotomy m n with hlt | rfl | hlt
      · exact absurd heq.symm (Nat.ne_of_lt (hinc m n hlt hn))
      · exact hact
      · exact absurd heq (Nat.ne_of_lt (hinc n m hlt hm))
    | _ => simp [MethodEvent.map] at he
  · -- the label was new at two points
    obtain ⟨j, -, hmade, hlab⟩ := label_made hn
    have hnext : (viewAt sc (j + 1)).fresh = (viewAt sc j).fresh + 1 := by
      rw [viewAt, sketch_succ hmade]
      rfl
    have hsame : (viewAt sc k).fresh = (viewAt sc j).fresh := hfresh.symm.trans hlab
    rcases Nat.lt_trichotomy j k with hlt | rfl | hlt
    · have hle := hdrawn.fresh_mono (Nat.succ_le_of_lt hlt)
      rw [Nat.succ_eq_add_one, hnext, hsame] at hle
      exact absurd hle (Nat.not_succ_le_self _)
    · exact absurd hmade hoth
    · have hle := hdrawn.fresh_mono (Nat.succ_le_of_lt hlt)
      rw [← hsame] at hle
      exact absurd hle (Nat.not_le_of_lt hgrows)

/-- The handlers are those that the caller gives. -/
theorem Drawn.mem_handlers (k : Nat) (h : Handler Label) :
    h ∈ (viewAt sc k).handlers ↔ ∃ j < k, eventAt sc j = .tryCatch h := by
  induction k with
  | zero =>
    constructor
    · rintro ⟨⟩
    · rintro ⟨j, hj, -⟩
      cases hj
  | succ k ih =>
    have hnext : (viewAt sc (k + 1)).handlers =
        (viewAt sc k).handlers ++ View.handlersBy (eventAt sc k) := by
      cases hact : sc[k]? with
      | none => simp [viewAt, sketch_of_none hact, eventAt, hact]
      | some act =>
        cases act with
        | newLabel => simp [viewAt, sketch_succ hact, eventAt, hact, Sketch.perform]
        | event e =>
          rw [(hdrawn.performed hact).2]
          exact (View.event_rest _ _).2.1
    rw [hnext, List.mem_append, ih, Nat.exists_lt_succ_right]
    refine or_congr_right ?_
    cases eventAt sc k with
    | tryCatch h' => simpa [View.handlersBy] using eq_comm
    | _ => simp [View.handlersBy]

/-- Subroutines are called where some block calls one. -/
theorem Drawn.hasSubroutines_iff (k : Nat) :
    (viewAt sc k).hasSubroutines = true ↔ ∃ j < k, (∃ b r, At sc j b r) ∧ isCall (eventAt sc j) = true := by
  induction k with
  | zero => exact ⟨nofun, nofun⟩
  | succ k ih =>
    have hnext : (viewAt sc (k + 1)).hasSubroutines =
        ((viewAt sc k).hasSubroutines || ((viewAt sc k).current.isSome && isCall (eventAt sc k))) := by
      cases hact : sc[k]? with
      | none => simp [viewAt, sketch_of_none hact, eventAt, hact, isCall]
      | some act =>
        cases act with
        | newLabel => simp [viewAt, sketch_succ hact, eventAt, hact, Sketch.perform, isCall]
        | event e =>
          rw [(hdrawn.performed hact).2]
          exact (View.event_rest _ _).2.2.1
    rw [hnext, Bool.or_eq_true, ih, Bool.and_eq_true, Option.isSome_iff_exists, Nat.exists_lt_succ_right]
    simp only [current_iff]

/-! ### Protected ranges -/

/-- Blocks are listed in the order in which they start. -/
theorem Drawn.blocks_append (hjk : j ≤ k) :
    ∃ rest, (viewAt sc k).blocks = (viewAt sc j).blocks ++ rest ∧
      ∀ b, b ∈ rest ↔ ∃ i, j ≤ i ∧ i < k ∧ Starts sc i b := by
  induction hjk with
  | refl => exact ⟨[], by simp, fun b => ⟨nofun, fun ⟨i, hj, hi, _⟩ => absurd hi (Nat.not_lt.2 hj)⟩⟩
  | @step k hle ih =>
    obtain ⟨rest, hblks, hrest⟩ := ih
    have hnext := (hdrawn.turns k).blocks
    refine ⟨rest ++ ((viewAt sc k).startedBy (eventAt sc k)).toList, ?_, fun b => ?_⟩
    · rw [hnext, hblks, List.append_assoc]
    · rw [List.mem_append, hrest, Option.mem_toList]
      constructor
      · rintro (⟨i, hj, hi, hstarts⟩ | hstarts)
        · exact ⟨i, hj, by omega, hstarts⟩
        · exact ⟨k, hle, by omega, hstarts⟩
      · rintro ⟨i, hj, hi, hstarts⟩
        rcases Nat.lt_succ_iff_lt_or_eq.1 hi with hlt | rfl
        · exact .inl ⟨i, hj, hlt, hstarts⟩
        · exact .inr hstarts

/-- **The blocks of a protected range** are those that start between its ends. -/
theorem Drawn.mem_blockRange {start stop m : Nat} (hst : sc.Places start n) (hstop : sc.Places stop m)
    (hordered : start < stop) (b : Label) :
    b ∈ blockRange (viewAt sc sc.length).blocks.toArray (labelOf sc n) (labelOf sc m) ↔
      ∃ i, start ≤ i ∧ i < stop ∧ Starts sc i b := by
  have hstarts := starts_of_places hst
  have hstops := starts_of_places hstop
  obtain ⟨inside, hinside, hmem⟩ := hdrawn.blocks_append (Nat.le_of_lt hordered)
  obtain ⟨tail, htail, -⟩ := hdrawn.blocks_append (Nat.succ_le_of_lt (List.getElem?_eq_some_iff.1 hstop).1)
  obtain ⟨rest, hrest, -⟩ := hdrawn.blocks_append (Nat.succ_le_of_lt hordered)
  rw [(hdrawn.turns stop).blocks, hstops, Option.toList_some] at htail
  rw [(hdrawn.turns start).blocks, hstarts, Option.toList_some, hinside, List.append_assoc] at hrest
  have hfst : inside = labelOf sc n :: rest := List.append_cancel_left hrest
  -- blocks before the range are not its first one, and those in it are not the one behind it
  have hbef : ∀ c ∈ (viewAt sc start).blocks, decide (c ≠ labelOf sc n) = true := by
    intro c hc
    obtain ⟨i, hi, hc⟩ := (hdrawn.mem_blocks start c).1 hc
    refine decide_eq_true ?_
    rintro rfl
    exact absurd (hdrawn.starts_unique hc hstarts) (by omega)
  have hwithin : ∀ c ∈ inside, decide (c ≠ labelOf sc m) = true := by
    intro c hc
    obtain ⟨i, -, hi, hc⟩ := (hmem c).1 hc
    refine decide_eq_true ?_
    rintro rfl
    exact absurd (hdrawn.starts_unique hc hstops) (by omega)
  have hrng : blockRange (viewAt sc sc.length).blocks.toArray (labelOf sc n) (labelOf sc m) =
      inside := by
    rw [blockRange, List.toList_toArray, htail, hinside, List.append_assoc, List.append_assoc,
      List.dropWhile_append_of_pos hbef]
    have hdrop : List.dropWhile (fun c => decide (c ≠ labelOf sc n)) (inside ++ ([labelOf sc m] ++ tail)) =
        inside ++ ([labelOf sc m] ++ tail) := by
      rw [hfst, List.cons_append, List.dropWhile_cons_of_neg (by simp)]
    rw [hdrop, List.takeWhile_append_of_pos hwithin]
    simp
  rw [hrng, hmem]

end

/-! ### The chart of a method -/

/-- What a label table has to do with the points of a script, when the body is closed. -/
structure Charts (script : Script) (T : LabelTable) : Prop where
  drawn : Drawn script
  placed : ∀ {k i n}, script.instruction? k = some i → n ∈ i.places → ∃ target, script.Places target n
  handled : ∀ {h}, .event (.tryCatch h) ∈ script → ∃ start stop handler, script.Handles h start stop handler
  edge_iff : ∀ b edge, edge ∈ edges T b ↔
    (∃ k, (∃ r, At script k b r) ∧ edge ∈ (viewAt script k).edgesBy (eventAt script k)) ∨
    ∃ h start stop handler, script.Handles h start stop handler ∧
      b ∈ blockRange (viewAt script script.length).blocks.toArray (labelOf script h.start) (labelOf script h.stop) ∧
      edge = (.exception, labelOf script h.handler)
  peak_eq : ∀ b, peak T b = (viewAt script script.length).peakOf b
  calls_iff : ∀ b, (T.info b).sized.calls = true ↔ ∃ k, (∃ r, At script k b r) ∧ isCall (eventAt script k) = true
  returns_iff : ∀ b r, (T.info b).sized.returnHeight = some r ↔ ∃ k, At script k b r ∧ isReturn (eventAt script k) = true
  blocks : ∀ b ∈ (viewAt script script.length).blocks, b < T.size

section
variable {context : ClassContext} {d : Declaration} {desc : MethodDescriptor} {pool : Pool}
  {methods : Array (Member .ofMethod)} {sc : Script} {s : Session}

/-- **A method that is closed is charted.** -/
theorem charts_closed (h : (start context .maxs d desc pool methods).Performs sc s)
    (hwait : ∀ l, (s.writer.labels.info l).waiting = #[])
    (hhans : ∀ h ∈ s.writer.handlers.toList, ∀ l ∈ [h.start, h.stop, h.handler],
      s.writer.labels.isPlaced l = true) :
    Charts sc (addExceptionEdges s.writer.blocks s.writer.handlers.toList (closed s.writer)) := by
  obtain ⟨hdrawn, hsz, hsketch⟩ := performs_sketch h
  have hview : view s.writer = viewAt sc sc.length := by
    rw [viewAt, hsketch]
    rfl
  have hlabs : labelOf sc = s.label := by
    funext n
    rw [labelOf, hsketch]
    rfl
  have hblks : s.writer.blocks = (viewAt sc sc.length).blocks.toArray := by
    rw [← hview]
    rfl
  have hnew : ∀ b, b ∈ s.writer.blocks → b < (closed s.writer).size := by
    intro b hb
    rw [(closed_sized hsz b).1]
    have htidy := (tidy_sketch hdrawn sc.length).view
    rw [hsketch] at htidy
    exact htidy.blocks b (Array.mem_toList_iff.2 hb)
  have hadds := adds_exceptionEdges hnew s.writer.handlers.toList
  have hclo : ∀ b, ((closed s.writer).info b).sized =
      { (viewAt sc sc.length).sized b with peak := (viewAt sc sc.length).peakOf b } := by
    intro b
    rw [(closed_sized hsz b).2, hview]
  -- a label of the caller that is placed is placed by the caller
  have hpl : ∀ n < (sketch sc sc.length).made.size, s.writer.labels.isPlaced (s.label n) = true →
      ∃ k, sc.Places k n := by
    intro n hn hpl
    rw [← hlabs] at hpl
    have hmem : labelOf sc n ∈ (viewAt sc sc.length).blocks := by
      refine ((tidy_sketch hdrawn sc.length).view.placed _).1 ?_
      rw [hsketch]
      exact hpl
    obtain ⟨k, -, hstarts⟩ := (hdrawn.mem_blocks _ _).1 hmem
    exact ⟨k, hdrawn.places_of_starts hn hstarts⟩
  have hhandled : ∀ {h : Handler Nat}, .event (.tryCatch h) ∈ sc →
      ∃ start stop handler, sc.Handles h start stop handler := by
    intro hd hmem
    obtain ⟨k, hk⟩ := List.getElem?_of_mem hmem
    have hlen := (List.getElem?_eq_some_iff.1 hk).1
    have hgiven : hd.map s.label ∈ s.writer.handlers.toList := by
      show hd.map s.label ∈ (view s.writer).handlers
      rw [hview]
      refine (hdrawn.mem_handlers _ _).2 ⟨k, hlen, ?_⟩
      rw [eventAt, hk, hlabs]
      rfl
    have hlab : ∀ n ∈ [hd.start, hd.stop, hd.handler], ∃ k, sc.Places k n := by
      intro n hn
      refine hpl n (hdrawn.made_of_mem hk hn) (hhans _ hgiven _ ?_)
      have := List.mem_map_of_mem (f := s.label) hn
      exact this
    obtain ⟨start, hst⟩ := hlab hd.start (by simp)
    obtain ⟨stop, hstop⟩ := hlab hd.stop (by simp)
    obtain ⟨handler, hhandler⟩ := hlab hd.handler (by simp)
    exact ⟨start, stop, handler, hmem, hst, hstop, hhandler⟩
  -- nothing happens behind the end
  have hwithin : ∀ {P : Nat → Prop}, (∀ k, P k → eventAt sc k ≠ .finish) → ((∃ k < sc.length, P k) ↔ ∃ k, P k) := by
    intro P hP
    refine ⟨by rintro ⟨k, -, hk⟩; exact ⟨k, hk⟩, ?_⟩
    rintro ⟨k, hk⟩
    obtain ⟨e, hact, -⟩ := eventAt_given (hP k hk)
    exact ⟨k, (List.getElem?_eq_some_iff.1 hact).1, hk⟩
  refine ⟨hdrawn, fun {k i n} hi hn => ?_, hhandled, fun b edge => ?_, fun b => ?_, fun b => ?_, fun b r => ?_, fun b hb => ?_⟩
  · obtain ⟨lines, hlines, hlog⟩ := logged_run h (logged_start context .maxs d desc pool methods)
    have hmem : i.map s.label ∈ ([] ++ lines).map Line.instruction := by
      rw [List.nil_append, hlines]
      exact List.mem_map_of_mem (Script.mem_instructions hi)
    have hn' : n < (sketch sc sc.length).made.size := by
      unfold Script.instruction? at hi
      split at hi
      next j hj =>
        cases hi
        exact hdrawn.made_of_mem hj hn
      next => cases hi
    refine hpl n hn' (hlog.placed hwait hmem ?_)
    rw [Instruction.places_map]
    exact List.mem_map_of_mem hn
  · rw [hadds.mem_edges, edges, hclo, hdrawn.mem_edges]
    refine or_congr (hwithin fun k hk hfin => ?_) ?_
    · rw [hfin] at hk
      cases hk.2
    · constructor
      · rintro ⟨given, hmem, hrng, hedge⟩
        rw [show s.writer.handlers.toList = (view s.writer).handlers from rfl, hview, hdrawn.mem_handlers] at hmem
        obtain ⟨k, -, hev⟩ := hmem
        obtain ⟨hd, hk, rfl⟩ := eventAt_tryCatch hev
        obtain ⟨start, stop, handler, hhdl⟩ := hhandled (List.mem_of_getElem? hk)
        rw [hblks] at hrng
        exact ⟨hd, start, stop, handler, hhdl, hrng, hedge⟩
      · rintro ⟨hd, start, stop, handler, hhdl, hrng, hedge⟩
        obtain ⟨k, hk⟩ := List.getElem?_of_mem hhdl.mem
        have hlen := (List.getElem?_eq_some_iff.1 hk).1
        refine ⟨hd.map (labelOf sc), ?_, ?_, hedge⟩
        · show hd.map (labelOf sc) ∈ (view s.writer).handlers
          rw [hview]
          refine (hdrawn.mem_handlers _ _).2 ⟨k, hlen, ?_⟩
          rw [eventAt, hk]
          rfl
        · rw [hblks]
          exact hrng
  · rw [hadds.peak, Sizing.peak, hclo]
  · rw [hadds.calls, hclo, hdrawn.calls_iff]
    refine hwithin fun k hk hfin => ?_
    rw [hfin] at hk
    cases hk.2
  · rw [hadds.returnHeight, hclo, hdrawn.returnHeight_iff]
    refine hwithin fun k hk hfin => ?_
    rw [hfin] at hk
    cases hk.2
  · rw [hadds.size]
    refine hnew b ?_
    rw [hblks]
    simpa using hb

end

end Sizing

end JvmAssembler
