import JvmAssembler.Proofs.Sizing.Flow
import Mathlib

/-!
# JvmAssembler.Proofs.Sizing.Linking

Returns from subroutines, and the edges that they get.

* Linking a call visits every block within the subroutine, and gives those that return an edge to the block behind the
  call, unless some set has both the return and the caller (`linkFrom_links`).
* Two blocks that share a set are both within the main code, or both within one subroutine (`memberships_sound`).
-/

namespace JvmAssembler

namespace Sizing

/-! ### Tables with more edges -/

/-- Blocks get more edges that carry a height along, and nothing else is changed. -/
def Links (T U : LabelTable) : Prop :=
  ∃ P, Adds T U P ∧ ∀ b e l, P b (e, l) → (∃ height, e = .flow height) ∧ l < T.size

namespace Links

variable {T U V : LabelTable}

theorem refl (T : LabelTable) : Links T T := ⟨_, .refl T, nofun⟩

theorem trans (h : Links T U) (h' : Links U V) : Links T V := by
  obtain ⟨P, hadds, hP⟩ := h
  obtain ⟨Q, hadds', hQ⟩ := h'
  refine ⟨_, hadds.trans hadds', fun b e l hnew => ?_⟩
  rcases hnew with hnew | hnew
  · exact hP b e l hnew
  · rw [← hadds.size]
    exact hQ b e l hnew

theorem size (h : Links T U) : U.size = T.size :=
  let ⟨_, hadds, _⟩ := h
  hadds.size

theorem mem_edges (h : Links T U) {b : Label} {edge : HeightEdge × Label} (hedge : edge ∈ edges T b) : edge ∈ edges U b :=
  let ⟨_, hadds, _⟩ := h
  (hadds.mem_edges b edge).2 (.inl hedge)

theorem returnHeight (h : Links T U) (b : Label) :
    (U.info b).sized.returnHeight = (T.info b).sized.returnHeight :=
  let ⟨_, hadds, _⟩ := h
  hadds.returnHeight b

theorem calls (h : Links T U) (b : Label) : (U.info b).sized.calls = (T.info b).sized.calls :=
  let ⟨_, hadds, _⟩ := h
  hadds.calls b

theorem peak (h : Links T U) (b : Label) : peak U b = peak T b :=
  let ⟨_, hadds, _⟩ := h
  hadds.peak b

theorem bounded (h : Links T U) (hT : Bounded T) : Bounded U := by
  obtain ⟨P, hadds, hP⟩ := h
  intro b e l hedge
  rw [hadds.size]
  rcases (hadds.mem_edges b (e, l)).1 hedge with hold | hnew
  · exact hT b e l hold
  · exact (hP b e l hnew).2

theorem localSuccessors (h : Links T U) {b l : Label} (hl : l ∈ localSuccessors T b) : l ∈ localSuccessors U b := by
  obtain ⟨e, hedge, hlocal⟩ := (mem_localSuccessors T b l).1 hl
  exact (mem_localSuccessors U b l).2 ⟨e, h.mem_edges hedge, hlocal⟩

theorem within (h : Links T U) {a b : Label} (hab : Within T a b) : Within U a b := by
  induction hab with
  | refl => exact .refl
  | tail _ hl ih => exact ih.tail (h.localSuccessors hl)

/-- What is looked for among the edges of a block is found among the old ones, unless it carries a height along. -/
theorem findSome? (h : Links T U) (f : HeightEdge × Label → Option Label) (hf : ∀ height l, f (.flow height, l) = none)
    (b : Label) : (edges U b).findSome? f = (edges T b).findSome? f := by
  obtain ⟨P, hadds, hP⟩ := h
  obtain ⟨more, hsz, hmem⟩ := hadds.sized b
  have hmore : more.findSome? f = none := by
    rw [List.findSome?_eq_none_iff]
    rintro ⟨e, l⟩ hedge
    obtain ⟨⟨height, rfl⟩, -⟩ := hP b e l ((hmem _).1 hedge)
    exact hf height l
  have hedges : edges U b = edges T b ++ more := by
    rw [edges, hsz]
    simp [edges]
  rw [hedges, List.findSome?_append, hmore, Option.or_none]

theorem callTarget? (h : Links T U) (b : Label) : callTarget? U b = callTarget? T b :=
  h.findSome? _ (fun _ _ => rfl) b

theorem returnSite? (h : Links T U) (b : Label) : returnSite? U b = returnSite? T b :=
  h.findSome? _ (fun _ _ => rfl) b

end Links

/-! ### The length of a walk -/

/-- What visiting a block adds to the blocks that wait, at most. -/
def weight (T : LabelTable) (b : Label) : Nat := (edges T b).length + 1

/-- The weight of the blocks that have not been seen. -/
def unseen (T : LabelTable) (seen : Array Bool) : Nat :=
  ((List.range T.size).map fun b => if seen.getD b false then 0 else weight T b).sum

theorem sum_map_of_ne {f g : Nat → Nat} {b : Nat} (hoth : ∀ c, c ≠ b → f c = g c) {bs : List Nat} (hnd : bs.Nodup)
    (hb : b ∈ bs) : (bs.map f).sum + g b = (bs.map g).sum + f b := by
  have hrest : (bs.erase b).map f = (bs.erase b).map g := List.map_congr_left fun c hc => hoth c (hnd.mem_erase_iff.1 hc).1
  rw [← List.sum_map_erase f hb, ← List.sum_map_erase g hb, hrest]
  omega

theorem unseen_set {T : LabelTable} {seen : Array Bool} {b : Label} (hsize : seen.size = T.size) (hb : b < T.size)
    (hunseen : seen.getD b false = false) : unseen T (seen.setIfInBounds b true) + weight T b = unseen T seen := by
  have hset := fun c => getD_set (hsize ▸ hb) c true false
  have hsum := sum_map_of_ne (b := b)
    (f := fun c => if (seen.setIfInBounds b true).getD c false then 0 else weight T c)
    (g := fun c => if seen.getD c false then 0 else weight T c)
    (fun c hc => by rw [hset, if_neg (Ne.symm hc)]) List.nodup_range (List.mem_range.2 hb)
  simp only [hset, if_pos, hunseen, Bool.false_eq_true, if_false] at hsum
  rw [unseen, unseen]
  simp only [hset]
  exact hsum

theorem walkBound_eq (T : LabelTable) : walkBound T = 1 + ((List.range T.size).map (weight T)).sum := by
  have hfold : ∀ (infos : List LabelInfo) (n : Nat),
      infos.foldl (fun n info => n + info.sized.edges.size + 1) n =
        n + (infos.map fun info => info.sized.edges.size + 1).sum := by
    intro infos
    induction infos with
    | nil => simp
    | cons info infos ih =>
      intro n
      rw [List.foldl_cons, ih, List.map_cons, List.sum_cons]
      omega
  have hinfos : T.toList.map (fun info => info.sized.edges.size + 1) = (List.range T.size).map (weight T) := by
    refine List.ext_getElem (by simp) fun b hb hb' => ?_
    have hlt : b < T.size := by simpa using hb
    simp [weight, edges, LabelTable.info, hlt]
  rw [walkBound, ← Array.foldl_toList, hfold, hinfos]

theorem unseen_replicate (T : LabelTable) : 1 + unseen T (Array.replicate T.size false) = walkBound T := by
  rw [walkBound_eq, unseen]
  simp only [getD_replicate, Bool.false_eq_true, if_false]

/-! ### Linking one call -/

/-- Give a block that returns an edge to the block behind a call, unless some set has both it and the caller. -/
def linkReturn (members : Membership) (caller site b : Label) (labels : LabelTable) : LabelTable :=
  match (labels.info b).sized.returnHeight with
  | none => labels
  | some height =>
    if members.getD b 0 &&& members.getD caller 0 ≠ 0 then labels
    else labels.addHeightEdge b (.flow height) site

theorem linkFrom_cons (members : Membership) (caller site : Label) (fuel : Nat) (b : Label) (rest : List Label)
    (seen : Array Bool) (labels : LabelTable) :
    linkFrom members caller site (fuel + 1) (b :: rest) seen labels =
      if seen.getD b false then linkFrom members caller site fuel rest seen labels
      else
        linkFrom members caller site fuel
          (localSuccessors (linkReturn members caller site b labels) b ++ rest) (seen.setIfInBounds b true)
          (linkReturn members caller site b labels) := rfl

section
variable {members : Membership} {caller site : Label}

/-- What one block contributes. -/
structure LinksBlock (members : Membership) (caller site b : Label) (V V' : LabelTable) : Prop where
  links : Links V V'
  others : ∀ c, c ≠ b → edges V' c = edges V c
  length : (edges V' b).length ≤ (edges V b).length + 1
  linked : ∀ r, (V.info b).sized.returnHeight = some r → members.getD b 0 &&& members.getD caller 0 = 0 →
    (.flow r, site) ∈ edges V' b

variable {b : Label} {rest : List Label} {seen : Array Bool}

theorem linkReturn_links {V : LabelTable} (hb : b < V.size) (hsite : site < V.size) :
    LinksBlock members caller site b V (linkReturn members caller site b V) := by
  unfold linkReturn
  split
  next hnone =>
    refine ⟨.refl V, fun _ _ => rfl, Nat.le_succ _, fun r hr => ?_⟩
    rw [hnone] at hr
    cases hr
  next height hht =>
    split
    next hshared => exact ⟨.refl V, fun _ _ => rfl, Nat.le_succ _, fun r _ hapart => absurd hapart hshared⟩
    next =>
      have hadds := adds_heightEdge hb (.flow height) site
      have hedges : ∀ c, edges (V.addHeightEdge b (.flow height) site) c =
          if c = b then edges V c ++ [(.flow height, site)] else edges V c := by
        intro c
        rw [edges, LabelTable.addHeightEdge, LabelTable.updateSized_eq]
        split
        next heq =>
          subst heq
          rw [LabelTable.info_update_self _ _ _ hb]
          simp [edges]
        next hne => rw [LabelTable.info_update_of_ne _ _ _ _ hne, edges]
      refine ⟨⟨_, hadds, ?_⟩, fun c hc => by rw [hedges, if_neg hc], ?_, fun r hr _ => ?_⟩
      · rintro c e l ⟨-, heq⟩
        cases heq
        exact ⟨⟨height, rfl⟩, hsite⟩
      · rw [hedges, if_pos rfl, List.length_append]
        exact Nat.le_refl _
      · rw [hht] at hr
        cases hr
        rw [hedges, if_pos rfl]
        simp

/-- A call that is being linked. Blocks that have been seen have their edge, and their successors have been seen or wait
to be visited. -/
structure Linking (T : LabelTable) (members : Membership) (caller target site : Label) (toVisit : List Label)
    (seen : Array Bool) (V : LabelTable) : Prop where
  links : Links T V
  size : seen.size = T.size
  start : seen.getD target false = true ∨ target ∈ toVisit
  waiting : ∀ b ∈ toVisit, b < T.size
  untouched : ∀ b, seen.getD b false = false → edges V b = edges T b
  followed : ∀ b, seen.getD b false = true → ∀ l ∈ localSuccessors T b, seen.getD l false = true ∨ l ∈ toVisit
  linked : ∀ b, seen.getD b false = true → ∀ r, (T.info b).sized.returnHeight = some r →
    members.getD b 0 &&& members.getD caller 0 = 0 → (.flow r, site) ∈ edges V b

variable {T : LabelTable} {target : Label}

/-- The block has been seen before. -/
theorem Linking.skip {V : LabelTable}
    (h : Linking T members caller target site (b :: rest) seen V) (hseen : seen.getD b false = true) :
    Linking T members caller target site rest seen V := by
  have hwaits : ∀ l, seen.getD l false = true ∨ l ∈ b :: rest → seen.getD l false = true ∨ l ∈ rest := by
    rintro l (hl | hl)
    · exact .inl hl
    · rcases List.mem_cons.1 hl with rfl | hl
      · exact .inl hseen
      · exact .inr hl
  exact ⟨h.links, h.size, hwaits _ h.start, fun c hc => h.waiting c (List.mem_cons_of_mem _ hc), h.untouched,
    fun c hc l hl => hwaits l (h.followed c hc l hl), h.linked⟩

theorem Linking.visit (hbounded : Bounded T) (hsite : site < T.size)
    {V : LabelTable} (h : Linking T members caller target site (b :: rest) seen V)
    (hunseen : seen.getD b false = false) :
    Linking T members caller target site
      (localSuccessors (linkReturn members caller site b V) b ++ rest) (seen.setIfInBounds b true)
      (linkReturn members caller site b V) := by
  have hb : b < T.size := h.waiting b List.mem_cons_self
  have hblk : LinksBlock members caller site b V (linkReturn members caller site b V) :=
    linkReturn_links (by rwa [h.links.size]) (by rwa [h.links.size])
  have hlinks := h.links.trans hblk.links
  have hset := fun c => getD_set (h.size ▸ hb) c true false
  have hwaits : ∀ l, seen.getD l false = true ∨ l ∈ b :: rest → (seen.setIfInBounds b true).getD l false = true ∨
      l ∈ localSuccessors (linkReturn members caller site b V) b ++ rest := by
    intro l hl
    rw [hset]
    rcases hl with hl | hl
    · exact .inl (by simp [hl])
    · rcases List.mem_cons.1 hl with rfl | hl
      · exact .inl (by simp)
      · exact .inr (List.mem_append_right _ hl)
  refine ⟨hlinks, by simpa using h.size, hwaits _ h.start, fun c hc => ?_, fun c hc => ?_, fun c hc l hl => ?_,
    fun c hc r hr hapart => ?_⟩
  · rcases List.mem_append.1 hc with hc | hc
    · obtain ⟨e, hedge, -⟩ := (mem_localSuccessors _ b c).1 hc
      rw [← hlinks.size]
      exact hlinks.bounded hbounded b e c hedge
    · exact h.waiting c (List.mem_cons_of_mem _ hc)
  · rw [hset] at hc
    split at hc
    · cases hc
    next hne => rw [hblk.others c (Ne.symm hne), h.untouched c hc]
  · rw [hset] at hc
    split at hc
    next heq =>
      subst heq
      exact .inr (List.mem_append_left _ (hlinks.localSuccessors hl))
    next => exact hwaits l (h.followed c hc l hl)
  · rw [hset] at hc
    split at hc
    next heq =>
      subst heq
      exact hblk.linked r (by rw [h.links.returnHeight, hr]) hapart
    next => exact hblk.links.mem_edges (h.linked c hc r hr hapart)

/-- Linking ends when no block waits to be visited. -/
theorem linkFrom_ends (hbounded : Bounded T) (hsite : site < T.size) (fuel : Nat) {toVisit : List Label} {V : LabelTable} (h : Linking T members caller target site toVisit seen V)
    (hfuel : toVisit.length + unseen T seen ≤ fuel) :
    ∃ seen', Linking T members caller target site [] seen' (linkFrom members caller site fuel toVisit seen V) := by
  induction fuel generalizing toVisit seen V with
  | zero =>
    obtain rfl : toVisit = [] := List.eq_nil_of_length_eq_zero (by omega)
    exact ⟨seen, h⟩
  | succ fuel ih =>
    cases toVisit with
    | nil => exact ⟨seen, h⟩
    | cons b rest =>
      rw [List.length_cons] at hfuel
      rw [linkFrom_cons]
      split
      next hseen => exact ih (h.skip hseen) (by omega)
      next hunseen =>
        have hunseen : seen.getD b false = false := by simpa using hunseen
        refine ih (h.visit hbounded hsite hunseen) ?_
        -- what the visit adds is paid for by the block itself
        have hb : b < T.size := h.waiting b List.mem_cons_self
        have hblk : LinksBlock members caller site b V (linkReturn members caller site b V) :=
          linkReturn_links (by rwa [h.links.size]) (by rwa [h.links.size])
        have hlen := length_localSuccessors (linkReturn members caller site b V) b
        have hgr := hblk.length
        rw [h.untouched b hunseen] at hgr
        have hspent := unseen_set h.size hb hunseen
        rw [weight] at hspent
        rw [List.length_append]
        omega

/-- **Linking a call** gives every return within the subroutine an edge to the block behind the call, unless some set has
both the return and the caller. -/
theorem linkFrom_links (hbounded : Bounded T) (htgt : target < T.size) (hsite : site < T.size) {fuel : Nat}
    (hfuel : walkBound T ≤ fuel) :
    Links T (linkFrom members caller site fuel [target] (Array.replicate T.size false) T) ∧
    ∀ b r, Within T target b → (T.info b).sized.returnHeight = some r →
      members.getD b 0 &&& members.getD caller 0 = 0 →
      (.flow r, site) ∈ edges (linkFrom members caller site fuel [target] (Array.replicate T.size false) T) b := by
  have hst : Linking T members caller target site [target] (Array.replicate T.size false) T := by
    refine ⟨.refl T, by simp, .inr (List.mem_singleton_self _), ?_, fun _ _ => rfl, ?_, ?_⟩
    · intro b hb
      rwa [List.mem_singleton.1 hb]
    · intro b hb
      rw [getD_replicate] at hb
      cases hb
    · intro b hb
      rw [getD_replicate] at hb
      cases hb
  have hbound := unseen_replicate T
  obtain ⟨seen, hlinking⟩ := linkFrom_ends hbounded hsite fuel hst (by simp; omega)
  have hseen : ∀ b, Within T target b → seen.getD b false = true := by
    intro b hwithin
    induction hwithin with
    | refl => exact hlinking.start.resolve_right (by simp)
    | tail _ hl ih => exact (hlinking.followed _ ih _ hl).resolve_right (by simp)
  exact ⟨hlinking.links, fun b r hwithin hr hapart => hlinking.linked b (hseen b hwithin) r hr hapart⟩

end

/-! ### Sets of blocks -/

/-- The main code and the subroutines start here. -/
def IsRoot (T : LabelTable) (entry root : Label) : Prop :=
  root = entry ∨ ∃ caller height, (.call height, root) ∈ edges T caller

variable {start b entry : Label}

theorem markFrom_sound {T : LabelTable} (id fuel : Nat) {toVisit : List Label} {members : Membership}
    (htoVisit : ∀ b ∈ toVisit, Within T start b) {i : Nat}
    (h : ((markFrom T (1 <<< id) fuel toVisit members).getD b 0).testBit i = true) :
    (members.getD b 0).testBit i = true ∨ i = id ∧ Within T start b := by
  induction fuel generalizing toVisit members with
  | zero => exact .inl h
  | succ fuel ih =>
    cases toVisit with
    | nil => exact .inl h
    | cons c rest =>
      have hrest : ∀ b ∈ rest, Within T start b := fun b hb => htoVisit b (List.mem_cons_of_mem _ hb)
      have hc := htoVisit c List.mem_cons_self
      rw [markFrom] at h
      split at h
      · exact ih hrest h
      · have hnext : ∀ b ∈ localSuccessors T c ++ rest, Within T start b := by
          intro b hb
          rcases List.mem_append.1 hb with hb | hb
          · exact hc.tail hb
          · exact hrest b hb
        rcases ih hnext h with hold | hnew
        · rw [getD_setIfInBounds] at hold
          split at hold
          next heq =>
            obtain ⟨rfl, -⟩ := heq
            rw [Nat.testBit_or, Bool.or_eq_true, Nat.one_shiftLeft, Nat.testBit_two_pow, decide_eq_true_iff] at hold
            rcases hold with hold | rfl
            · exact .inl hold
            · exact .inr ⟨rfl, hc⟩
          next => exact .inl hold
        · exact .inr hnew

def Rooted (T : LabelTable) (entry : Label) (members : Membership) (count : Nat) : Prop :=
  ∃ root : Nat → Label, ∀ i b, (members.getD b 0).testBit i = true →
    i < count ∧ IsRoot T entry (root i) ∧ Within T (root i) b

theorem Rooted.mark {T : LabelTable} {members : Membership} {count : Nat}
    (h : Rooted T entry members count) (hst : IsRoot T entry start) :
    Rooted T entry (mark T start count members) (count + 1) := by
  obtain ⟨root, hroot⟩ := h
  refine ⟨fun i => if i = count then start else root i, fun i b hbit => ?_⟩
  have hself : ∀ b ∈ [start], Within T start b := fun b hb => by rw [List.mem_singleton.1 hb]; exact .refl
  have hmark := markFrom_sound count (walkBound T) hself hbit
  dsimp only
  rcases hmark with hold | ⟨rfl, hwithin⟩
  · obtain ⟨hlt, hroot, hwithin⟩ := hroot i b hold
    rw [if_neg (by omega)]
    exact ⟨by omega, hroot, hwithin⟩
  · rw [if_pos rfl]
    exact ⟨Nat.lt_succ_self _, hst, hwithin⟩

theorem callTarget?_some {T : LabelTable} {target : Label} (h : callTarget? T b = some target) :
    ∃ height, (.call height, target) ∈ edges T b := by
  obtain ⟨⟨e, l⟩, hmem, hfnd⟩ := List.exists_of_findSome?_eq_some h
  cases e with
  | call height =>
    cases hfnd
    exact ⟨height, hmem⟩
  | _ => cases hfnd

/-- Put the blocks of the subroutine that a block calls into a set, unless it is part of another one. -/
def markCall (T : LabelTable) (state : Membership × Nat) (block : Label) : Membership × Nat :=
  if !(T.info block).sized.calls then state
  else
    match callTarget? T block with
    | none => state
    | some target =>
      if state.1.getD target 0 ≠ 0 then state
      else (mark T target (state.2 + 1) state.1, state.2 + 1)

theorem memberships_eq (T : LabelTable) (entry : Label) (blocks : List Label) :
    memberships T entry blocks = (blocks.foldl (markCall T) (mark T entry 0 (Array.replicate T.size 0), 0)).1 := rfl

theorem Rooted.markCall {T : LabelTable} {state : Membership × Nat} (h : Rooted T entry state.1 (state.2 + 1))
    (block : Label) : Rooted T entry (markCall T state block).1 ((markCall T state block).2 + 1) := by
  unfold Sizing.markCall
  split
  · exact h
  · split
    · exact h
    next target htgt =>
      split
      · exact h
      · obtain ⟨height, hedge⟩ := callTarget?_some htgt
        exact h.mark (.inr ⟨block, height, hedge⟩)

theorem rooted_memberships (T : LabelTable) (entry : Label) (blocks : List Label) :
    ∃ count, Rooted T entry (memberships T entry blocks) count := by
  have hnone : Rooted T entry (Array.replicate T.size 0) 0 := by
    refine ⟨fun _ => entry, fun i b hbit => ?_⟩
    rw [getD_replicate, Nat.zero_testBit] at hbit
    cases hbit
  have hall : ∀ (blocks : List Label) (state : Membership × Nat), Rooted T entry state.1 (state.2 + 1) →
      Rooted T entry (blocks.foldl (markCall T) state).1 ((blocks.foldl (markCall T) state).2 + 1) := by
    intro blocks
    induction blocks with
    | nil => exact fun _ h => h
    | cons block blocks ih => exact fun _ h => ih _ (h.markCall block)
  rw [memberships_eq]
  exact ⟨_, hall blocks _ (hnone.mark (.inl rfl))⟩

/-- **Two blocks that share a set** are within the same code. -/
theorem memberships_sound {T : LabelTable} {blocks : List Label} {c : Label}
    (hshared : (memberships T entry blocks).getD b 0 &&& (memberships T entry blocks).getD c 0 ≠ 0) :
    ∃ root, IsRoot T entry root ∧ Within T root b ∧ Within T root c := by
  obtain ⟨_, root, hroot⟩ := rooted_memberships T entry blocks
  obtain ⟨i, hbit⟩ := Nat.exists_testBit_of_ne_zero hshared
  rw [Nat.testBit_and, Bool.and_eq_true] at hbit
  obtain ⟨-, hisRoot, hb⟩ := hroot i b hbit.1
  obtain ⟨-, -, hc⟩ := hroot i c hbit.2
  exact ⟨root i, hisRoot, hb, hc⟩

/-! ### Linking all calls -/

def linkCall (members : Membership) (labels : LabelTable) (block : Label) : LabelTable :=
  if !(labels.info block).sized.calls then labels
  else
    match callTarget? labels block, returnSite? labels block with
    | some target, some site =>
      linkFrom members block site (2 * walkBound labels) [target] (Array.replicate labels.size false) labels
    | _, _ => labels

theorem linkSubroutines_eq (entry : Label) (blocks : List Label) (T : LabelTable) :
    linkSubroutines entry blocks T = blocks.foldl (linkCall (memberships T entry blocks)) T := rfl

/-- A return is linked to the block behind a call. -/
def Linked (members : Membership) (T U : LabelTable) (caller : Label) : Prop :=
  ∀ target site b r, (T.info caller).sized.calls = true → callTarget? T caller = some target →
    returnSite? T caller = some site → Within T target b → (T.info b).sized.returnHeight = some r →
    members.getD b 0 &&& members.getD caller 0 = 0 → (.flow r, site) ∈ edges U b

theorem returnSite?_some {T : LabelTable} {site : Label} (h : returnSite? T b = some site) :
    ∃ height, (.returnSite height, site) ∈ edges T b := by
  obtain ⟨⟨e, l⟩, hmem, hfnd⟩ := List.exists_of_findSome?_eq_some h
  cases e with
  | returnSite height =>
    cases hfnd
    exact ⟨height, hmem⟩
  | _ => cases hfnd

theorem linkCall_links (members : Membership) {V : LabelTable} (hbounded : Bounded V) (caller : Label) :
    Links V (linkCall members V caller) ∧ Linked members V (linkCall members V caller) caller := by
  unfold linkCall
  split
  next hno =>
    refine ⟨.refl V, fun target site b r hcalls => ?_⟩
    rw [hcalls] at hno
    cases hno
  next =>
    split
    next target site htgt hsite =>
      obtain ⟨_, hcall⟩ := callTarget?_some htgt
      obtain ⟨_, hret⟩ := returnSite?_some hsite
      have hfuel : walkBound V ≤ 2 * walkBound V := by omega
      obtain ⟨hlinks, hlinked⟩ := @linkFrom_links members caller site V target hbounded
        (hbounded _ _ _ hcall) (hbounded _ _ _ hret) _ hfuel
      refine ⟨hlinks, fun target' site' b r _ htgt' hsite' hwithin hr hapart => ?_⟩
      rw [htgt] at htgt'
      rw [hsite] at hsite'
      cases htgt'
      cases hsite'
      exact hlinked b r hwithin hr hapart
    next hnot => exact ⟨.refl V, fun target site _ _ _ htgt hsite => absurd hsite (hnot target site htgt)⟩

/-- **Every call is linked.** -/
theorem linkSubroutines_links {T : LabelTable} (hbounded : Bounded T) (entry : Label) (blocks : List Label) :
    Links T (linkSubroutines entry blocks T) ∧
    ∀ caller ∈ blocks, Linked (memberships T entry blocks) T (linkSubroutines entry blocks T) caller := by
  have hall : ∀ (members : Membership) (blocks : List Label) (V : LabelTable), Links T V →
      Links V (blocks.foldl (linkCall members) V) ∧
        ∀ caller ∈ blocks, Linked members T (blocks.foldl (linkCall members) V) caller := by
    intro members blocks
    induction blocks with
    | nil => exact fun V _ => ⟨.refl V, nofun⟩
    | cons block blocks ih =>
      intro V hV
      obtain ⟨hblk, hlinked⟩ := linkCall_links members (hV.bounded hbounded) block
      obtain ⟨hrest, hothers⟩ := ih _ (hV.trans hblk)
      refine ⟨hblk.trans hrest, fun caller hcaller => ?_⟩
      rcases List.mem_cons.1 hcaller with rfl | hcaller
      · intro target site b r hcalls htgt hsite hwithin hr hapart
        refine hrest.mem_edges (hlinked target site b r ?_ ?_ ?_ (hV.within hwithin) ?_ hapart)
        · rw [hV.calls, hcalls]
        · rw [hV.callTarget?, htgt]
        · rw [hV.returnSite?, hsite]
        · rw [hV.returnHeight, hr]
      · exact hothers caller hcaller
  rw [linkSubroutines_eq]
  exact hall _ blocks T (.refl T)

end Sizing

end JvmAssembler
