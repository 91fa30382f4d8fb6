import JvmAssembler.Method.Sizing

/-!
# JvmAssembler.Proofs.Sizing.Walk

What the walk over the blocks of a method finds.

`Arrives` has the heights with which control can get to a block, along any edges. The walk gives each block that can be
reached one of these heights. If there is only one for each block, then its result is the largest height of all.
-/

namespace JvmAssembler

namespace Sizing

/-- The heights with which a block is entered, from the entry of the method on. -/
inductive Arrives (labels : LabelTable) (entry : Label) : Label → Int → Prop
  | entry : Arrives labels entry entry 0
  | edge {b l : Label} {start height : Int} {e : HeightEdge} :
      Arrives labels entry b start → (e, l) ∈ edges labels b → arrival start e = some height →
      Arrives labels entry l height

/-- Every block is entered with one height. -/
def Agrees (labels : LabelTable) (entry : Label) : Prop :=
  ∀ b height height', Arrives labels entry b height → Arrives labels entry b height' → height = height'

/-- The largest height in a block, relative to that on entry. -/
def peak (labels : LabelTable) (b : Label) : Int := (labels.info b).sized.peak

/-- Successors are labels of the method. -/
def Bounded (labels : LabelTable) : Prop := ∀ b e l, (e, l) ∈ edges labels b → l < labels.size

/-- The blocks that have no height yet. -/
def unset (heights : Array (Option Int)) : Nat := heights.toList.countP (·.isNone)

/-- A walk in progress. Blocks that have a height and do not wait to be visited are done: their peaks are counted, and
their successors have heights. -/
structure Walking (labels : LabelTable) (entry : Label) (toVisit : List Label) (heights : Array (Option Int))
    (largest : Int) : Prop where
  size : heights.size = labels.size
  start : heights.getD entry none ≠ none
  sound : ∀ b height, heights.getD b none = some height → Arrives labels entry b height
  waiting : ∀ b ∈ toVisit, heights.getD b none ≠ none
  counted : ∀ b height, heights.getD b none = some height → b ∉ toVisit → height + peak labels b ≤ largest
  followed : ∀ b height, heights.getD b none = some height → b ∉ toVisit →
    ∀ e l next, (e, l) ∈ edges labels b → arrival height e = some next → heights.getD l none ≠ none
  attained : largest = 0 ∨ ∃ b height, Arrives labels entry b height ∧ largest = height + peak labels b

/-! ### One block -/

theorem getD_setIfInBounds {α : Type} (xs : Array α) (i j : Nat) (a d : α) :
    (xs.setIfInBounds i a).getD j d = if i = j ∧ i < xs.size then a else xs.getD j d := by
  simp only [Array.getD_eq_getD_getElem?, Array.getElem?_setIfInBounds]
  by_cases h : i = j
  · subst h
    by_cases hi : i < xs.size
    · simp [hi]
    · simp [hi]
  · simp [h]

theorem getD_set {α : Type} {xs : Array α} {i : Nat} (hi : i < xs.size) (j : Nat) (a d : α) :
    (xs.setIfInBounds i a).getD j d = if i = j then a else xs.getD j d := by
  rw [getD_setIfInBounds]
  simp only [hi, and_true]

theorem getD_replicate {α : Type} (n i : Nat) (d : α) : (Array.replicate n d).getD i d = d := by
  rw [Array.getD_eq_getD_getElem?, Array.getElem?_replicate]
  split <;> rfl

/-- What giving heights to the successors of a block does. -/
structure Reached (start : Int) (es : List (HeightEdge × Label)) (toVisit : List Label) (heights : Array (Option Int))
    (toVisit' : List Label) (heights' : Array (Option Int)) : Prop where
  size : heights'.size = heights.size
  kept : ∀ b height, heights.getD b none = some height → heights'.getD b none = some height
  new : ∀ b height, heights'.getD b none = some height → heights.getD b none = some height ∨
    b ∈ toVisit' ∧ ∃ e, (e, b) ∈ es ∧ arrival start e = some height
  waiting : ∀ b ∈ toVisit', b ∈ toVisit ∨ heights'.getD b none ≠ none
  more : ∀ b ∈ toVisit, b ∈ toVisit'
  followed : ∀ e l next, (e, l) ∈ es → arrival start e = some next → heights'.getD l none ≠ none
  fuel : toVisit'.length + unset heights' = toVisit.length + unset heights

variable {heights : Array (Option Int)} {labels : LabelTable} {entry : Label}

theorem unset_set {l : Label} (hl : l < heights.size) (hnone : heights.getD l none = none)
    (height : Int) : unset (heights.setIfInBounds l (some height)) + 1 = unset heights := by
  have hget : heights.toList[l]? = some none := by
    rw [Array.getD_eq_getD_getElem?, Array.getElem?_eq_getElem hl] at hnone
    simp only [Option.getD_some] at hnone
    rw [Array.getElem?_toList, Array.getElem?_eq_getElem hl, hnone]
  obtain ⟨hlt, hget⟩ := List.getElem?_eq_some_iff.1 hget
  have hpos : 0 < heights.toList.countP (·.isNone) := List.countP_pos_iff.2 ⟨none, hget ▸ List.getElem_mem hlt, rfl⟩
  rw [unset, unset, Array.toList_setIfInBounds, List.countP_set hlt, hget]
  simp only [Option.isNone_none, Option.isNone_some, if_true, Bool.false_eq_true, if_false]
  omega

theorem reached_reach (start : Int) {es : List (HeightEdge × Label)}
    (hbounded : ∀ e l, (e, l) ∈ es → l < heights.size) (toVisit : List Label) :
    Reached start es toVisit heights (reach start es toVisit heights).1 (reach start es toVisit heights).2 := by
  induction es generalizing toVisit heights with
  | nil => exact ⟨rfl, fun _ _ => id, fun _ _ => .inl, fun _ => .inl, fun _ => id, nofun, rfl⟩
  | cons edge es ih =>
    obtain ⟨e, l⟩ := edge
    have hl : l < heights.size := hbounded e l List.mem_cons_self
    have hrest : ∀ e l, (e, l) ∈ es → l < heights.size := fun e l h => hbounded e l (List.mem_cons_of_mem _ h)
    unfold reach
    split
    next height harrival hht =>
      -- the successor gets its height here
      have hset := fun b => getD_set hl b (some height) none
      have hrest' : ∀ e l', (e, l') ∈ es → l' < (heights.setIfInBounds l (some height)).size := by simpa using hrest
      have haft := ih hrest' (l :: toVisit)
      refine ⟨by simpa using haft.size, fun b h hb => haft.kept b h ?_, fun b h hb => ?_, fun b hb => ?_,
        fun b hb => haft.more b (List.mem_cons_of_mem _ hb), fun e' l' next hmem hnext => ?_, ?_⟩
      · rw [hset, if_neg, hb]
        rintro rfl
        rw [hht] at hb
        cases hb
      · rcases haft.new b h hb with hold | ⟨hwaits, e', hmem, hnext⟩
        · rw [hset] at hold
          split at hold
          next heq =>
            subst heq
            cases hold
            exact .inr ⟨haft.more l List.mem_cons_self, e, List.mem_cons_self, harrival⟩
          next => exact .inl hold
        · exact .inr ⟨hwaits, e', List.mem_cons_of_mem _ hmem, hnext⟩
      · rcases haft.waiting b hb with hold | hold
        · rcases List.mem_cons.1 hold with rfl | hold
          · refine .inr ?_
            rw [haft.kept b height (by rw [hset, if_pos rfl])]
            simp
          · exact .inl hold
        · exact .inr hold
      · rcases List.mem_cons.1 hmem with heq | hmem
        · cases heq
          rw [haft.kept l height (by rw [hset, if_pos rfl])]
          simp
        · exact haft.followed e' l' next hmem hnext
      · have hunset := unset_set hl hht height
        have hfuel := haft.fuel
        simp only [List.length_cons] at hfuel
        omega
    next hoth =>
      have haft := ih hrest toVisit
      refine ⟨haft.size, haft.kept, fun b h hb => ?_, haft.waiting, haft.more, fun e' l' next hmem hnext => ?_,
        haft.fuel⟩
      · rcases haft.new b h hb with hold | ⟨hwaits, e', hmem, hnext⟩
        · exact .inl hold
        · exact .inr ⟨hwaits, e', List.mem_cons_of_mem _ hmem, hnext⟩
      · rcases List.mem_cons.1 hmem with heq | hmem
        · cases heq
          intro hnone
          cases hht : heights.getD l none with
          | none => exact hoth next hnext hht
          | some height =>
            rw [haft.kept l height hht] at hnone
            cases hnone
        · exact haft.followed e' l' next hmem hnext

/-! ### The walk -/

theorem Walking.visit {b : Label} {rest : List Label}
    {largest start : Int} (hbounded : Bounded labels) (h : Walking labels entry (b :: rest) heights largest)
    (hst : heights.getD b none = some start) :
    Walking labels entry (reach start (edges labels b) rest heights).1 (reach start (edges labels b) rest heights).2
      (max largest (start + peak labels b)) := by
  have hsuccessors : ∀ e l, (e, l) ∈ edges labels b → l < heights.size := fun e l hmem => h.size ▸ hbounded b e l hmem
  have hreached := reached_reach start hsuccessors rest
  have harr := h.sound b start hst
  -- a block that is done now was done before, or is the one that is visited
  have hdone : ∀ c height, (reach start (edges labels b) rest heights).2.getD c none = some height →
      c ∉ (reach start (edges labels b) rest heights).1 → heights.getD c none = some height ∧ (c = b ∨ c ∉ b :: rest) := by
    intro c height hc hnot
    rcases hreached.new c height hc with hold | ⟨hwaits, -⟩
    · refine ⟨hold, ?_⟩
      by_cases hcb : c = b
      · exact .inl hcb
      · refine .inr fun hmem => ?_
        rcases List.mem_cons.1 hmem with hmem | hmem
        · exact hcb hmem
        · exact hnot (hreached.more c hmem)
    · exact absurd hwaits hnot
  refine ⟨hreached.size.trans h.size, ?_, fun c height hc => ?_, fun c hc => ?_, fun c height hc hnot => ?_,
    fun c height hc hnot e l next hmem hnext => ?_, ?_⟩
  · obtain ⟨height, hht⟩ := Option.ne_none_iff_exists'.1 h.start
    rw [hreached.kept entry height hht]
    simp
  · rcases hreached.new c height hc with hold | ⟨-, e, hmem, hnext⟩
    · exact h.sound c height hold
    · exact .edge harr hmem hnext
  · rcases hreached.waiting c hc with hold | hnew
    · obtain ⟨height, hht⟩ := Option.ne_none_iff_exists'.1 (h.waiting c (List.mem_cons_of_mem _ hold))
      rw [hreached.kept c height hht]
      simp
    · exact hnew
  · obtain ⟨hold, hcase⟩ := hdone c height hc hnot
    rcases hcase with rfl | hnot'
    · rw [hst] at hold
      cases hold
      exact Int.le_max_right _ _
    · exact Int.le_trans (h.counted c height hold hnot') (Int.le_max_left _ _)
  · obtain ⟨hold, hcase⟩ := hdone c height hc hnot
    rcases hcase with rfl | hnot'
    · rw [hst] at hold
      cases hold
      exact hreached.followed e l next hmem hnext
    · obtain ⟨given, hgiven⟩ := Option.ne_none_iff_exists'.1 (h.followed c height hold hnot' e l next hmem hnext)
      rw [hreached.kept l given hgiven]
      simp
  · rcases Int.le_total largest (start + peak labels b) with hle | hle
    · rw [Int.max_eq_right hle]
      exact .inr ⟨b, start, harr, rfl⟩
    · rw [Int.max_eq_left hle]
      exact h.attained

/-- The walk ends when no block waits to be visited. -/
theorem walk_ends (hbounded : Bounded labels) (fuel : Nat) {toVisit : List Label} {largest : Int} (h : Walking labels entry toVisit heights largest)
    (hfuel : toVisit.length + unset heights ≤ fuel) :
    ∃ heights', Walking labels entry [] heights' (walk labels fuel toVisit heights largest) := by
  induction fuel generalizing toVisit heights largest with
  | zero =>
    have hnil : toVisit = [] := List.eq_nil_of_length_eq_zero (by omega)
    subst hnil
    exact ⟨heights, h⟩
  | succ fuel ih =>
    cases toVisit with
    | nil => exact ⟨heights, h⟩
    | cons b rest =>
      obtain ⟨start, hst⟩ := Option.ne_none_iff_exists'.1 (h.waiting b List.mem_cons_self)
      have hvisit := h.visit hbounded hst
      have hsuccessors : ∀ e l, (e, l) ∈ edges labels b → l < heights.size :=
        fun e l hmem => h.size ▸ hbounded b e l hmem
      have hspent := (reached_reach start hsuccessors rest).fuel
      rw [List.length_cons] at hfuel
      have hwalk := ih hvisit (by omega)
      rw [walk, hst]
      exact hwalk

/-- **The walk counts every block that can be reached**, with a height with which it can be entered. -/
theorem walk_counts (hbounded : Bounded labels) (hent : entry < labels.size) :
    let result := walk labels (labels.size + 1) [entry]
      ((Array.replicate labels.size none).setIfInBounds entry (some 0)) 0
    (∃ heights : Label → Option Int, heights entry ≠ none ∧ ∀ b height, heights b = some height →
      Arrives labels entry b height ∧ height + peak labels b ≤ result ∧
        ∀ e l next, (e, l) ∈ edges labels b → arrival height e = some next → heights l ≠ none) ∧
    (result = 0 ∨ ∃ b height, Arrives labels entry b height ∧ result = height + peak labels b) := by
  intro result
  have hget : ∀ b, ((Array.replicate labels.size (none : Option Int)).setIfInBounds entry (some 0)).getD b none =
      if entry = b then some 0 else none := by
    intro b
    rw [getD_set (by simpa using hent), getD_replicate]
  have hst : Walking labels entry [entry]
      ((Array.replicate labels.size none).setIfInBounds entry (some 0)) 0 := by
    refine ⟨by simp, by simp [hget], fun b height hb => ?_, ?_, fun b height hb hnot => ?_, fun b height hb hnot => ?_,
      .inl rfl⟩
    · rw [hget] at hb
      split at hb
      next heq =>
        cases hb
        exact heq ▸ .entry
      next => cases hb
    · intro b hb
      rw [List.mem_singleton.1 hb, hget, if_pos rfl]
      simp
    · rw [hget, if_neg fun heq => hnot (by simp [heq])] at hb
      cases hb
    · rw [hget, if_neg fun heq => hnot (by simp [heq])] at hb
      cases hb
  have hunset : unset ((Array.replicate labels.size none).setIfInBounds entry (some 0)) + 1 = labels.size := by
    rw [unset_set (by simpa using hent) (by simp [Array.getD_eq_getD_getElem?, hent]) 0, unset]
    simp [List.countP_replicate]
  obtain ⟨heights, hwalking⟩ := walk_ends hbounded (labels.size + 1) hst (by simp; omega)
  refine ⟨⟨fun b => heights.getD b none, hwalking.start, fun b height hb => ⟨hwalking.sound b height hb,
    hwalking.counted b height hb (by simp), hwalking.followed b height hb (by simp)⟩⟩, hwalking.attained⟩

/-- If every block is entered with one height, the walk finds the largest one. -/
theorem le_walk (hbounded : Bounded labels) (hent : entry < labels.size)
    (hagrees : Agrees labels entry) {b : Label} {height : Int} (h : Arrives labels entry b height) :
    height + peak labels b ≤ walk labels (labels.size + 1) [entry]
      ((Array.replicate labels.size none).setIfInBounds entry (some 0)) 0 := by
  obtain ⟨⟨heights, hst, hfnd⟩, -⟩ := walk_counts hbounded hent
  -- the height that the walk gave to a block is the one with which it is entered
  have hgiven : ∀ b height, Arrives labels entry b height → heights b ≠ none := by
    intro b height h
    induction h with
    | entry => exact hst
    | @edge b l start height e harr hmem harrival ih =>
      obtain ⟨given, hgiven⟩ := Option.ne_none_iff_exists'.1 ih
      obtain ⟨hgivenArrives, -, hfollowed⟩ := hfnd b given hgiven
      rw [hagrees b start given harr hgivenArrives] at harrival
      exact hfollowed e l height hmem harrival
  obtain ⟨given, hht⟩ := Option.ne_none_iff_exists'.1 (hgiven b height h)
  obtain ⟨hgivenArrives, hcounted, -⟩ := hfnd b given hht
  rw [hagrees b height given h hgivenArrives]
  exact hcounted

end Sizing

end JvmAssembler
