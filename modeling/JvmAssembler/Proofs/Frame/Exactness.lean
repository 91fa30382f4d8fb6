import JvmAssembler.Proofs.Frame.Execution

/-!
# JvmAssembler.Proofs.Frame.Exactness

The summary of a block says exactly what its instructions do.

The summary is applied to an input when the block is merged into the one that follows it: relative types are resolved, then
what the constructors of the block ran on becomes an object, then the type is brought into normal form. If that block has
not been reached before, its input comes out as the types that a machine has after the same instructions, one by one
(`merge_executeAll`).
-/

namespace JvmAssembler

open Success

open Pool (Extends)

/-! ### Known types in later pools -/

namespace FrameType

variable {pool pool' : Pool} {allowed allowed' : Nat → Prop} {t u : FrameType} {n : Nat}

theorem IsKnown.extends (h : t.IsKnown pool allowed) (hextends : Extends n pool pool') : t.IsKnown pool' allowed :=
  { h with
    object := fun row hrow => (h.object row hrow).imp fun _ htype => hextends.type? htype
    uninitialized := by
      intro row hrow
      obtain ⟨hdims, name, offset, htype, hallowed⟩ := h.uninitialized row hrow
      exact ⟨hdims, name, offset, hextends.type? htype, hallowed⟩ }

theorem IsKnown.named_extends (h : t.IsKnown pool allowed) (hextends : Extends n pool pool') :
    t.named pool' = t.named pool := by
  have hkind : t.kind.named pool' = t.kind.named pool := by
    cases hcase : t.kind with
    | object row =>
      obtain ⟨name, htype⟩ := h.object row hcase
      simp [Kind.named, Pool.typeName, htype, hextends.type? htype]
    | uninitialized row =>
      obtain ⟨-, name, offset, htype, -⟩ := h.uninitialized row hcase
      simp [Kind.named, htype, hextends.type? htype]
    | _ => rfl
  rw [named, named, hkind]

/-- Rows of the type table are all different, so what a constructor has yet to run on is known by its name. -/
theorem IsKnown.eq_of_named (hord : pool.Orderly) (ht : t.IsKnown pool allowed) (hu : u.IsKnown pool allowed')
    (hun : (t.named pool).isUninitialized = true) (heq : u.named pool = t.named pool) : u = t := by
  rcases ht.eq_of_isUninitialized hun with rfl | ⟨row, name, offset, rfl, hrow, -, hname⟩
  · rcases hu.eq_of_isUninitialized (heq ▸ hun) with rfl | ⟨row', name', offset', -, -, -, hname'⟩
    · rfl
    · rw [hname'] at heq
      cases heq
  · rcases hu.eq_of_isUninitialized (heq ▸ hun) with rfl | ⟨row', name', offset', rfl, hrow', -, hname'⟩
    · rw [hname] at heq
      cases heq
    · rw [hname, hname'] at heq
      cases heq
      have hsame := ((hord.typeIndex _ row').2 hrow').symm.trans ((hord.typeIndex _ row).2 hrow)
      rw [Option.some.inj hsame]

theorem IsKnown.normalized (h : t.IsKnown pool allowed) : t.normalized.IsKnown pool allowed := by
  unfold FrameType.normalized
  split
  · exact isKnown_of_kind rfl rfl (by simp) (by simp) (by simp)
  · split
    · exact isKnown_top
    · exact h

theorem normalized_normalized (t : FrameType) : t.normalized.normalized = t.normalized := by
  unfold FrameType.normalized
  by_cases hnull : t.kind = .null
  · simp [hnull]
  · by_cases hdims : t.dims < 0
    · simp [hnull, hdims]
    · simp [hnull, hdims]

end FrameType

/-! ### Inputs and machines -/

def FrameInput.machine (input : FrameInput) (pool : Pool) : Machine where
  locals := input.locals.toList.map fun slot => (slot.getD .top).named pool
  stack := input.stack.toList.reverse.map fun slot => (slot.getD .top).named pool

/-- A slot holds a type in normal form, with this name. -/
def InputSlot.Shows (pool : Pool) (slot : InputSlot) (u : SlotType) : Prop :=
  ∃ t, slot = some t ∧ t.IsKnown pool (fun _ => True) ∧ t.normalized = t ∧ t.named pool = u

theorem InputSlot.Shows.extends {pool pool' : Pool} {slot : InputSlot} {u : SlotType} {n : Nat}
    (h : InputSlot.Shows pool slot u) (hextends : Extends n pool pool') : InputSlot.Shows pool' slot u := by
  obtain ⟨t, hslot, hkn, hnorm, hname⟩ := h
  exact ⟨t, hslot, hkn.extends hextends, hnorm, (hkn.named_extends hextends).trans hname⟩

/-- An input holds the types of a machine. -/
structure FrameInput.Shows (pool : Pool) (input : FrameInput) (m : Machine) : Prop where
  locals : List.Forall₂ (InputSlot.Shows pool) input.locals.toList m.locals
  stack : List.Forall₂ (InputSlot.Shows pool) input.stack.toList m.stack.reverse

/-! ### Constructors of a block -/

namespace Frame

section
variable {B : BlockEntry} {offsets : List Nat} {f : Frame} {context : TypeContext} {later : Pool}

/-- A receiver of a constructor is what it has been resolved to. -/
theorem any_initialized (hord : B.pool.Orderly) (hrecvs : ∀ r ∈ f.initialized, r.IsSettled B.pool offsets)
    {t : FrameType} {allowed : Nat → Prop} (ht : t.IsKnown B.pool allowed)
    (hun : (t.named B.pool).isUninitialized = true) :
    (f.initialized.any fun recv => B.input.resolve recv = t) = true ↔
      t.named B.pool ∈ f.initialized.toList.map (B.input.meaning B.pool) := by
  rw [Array.any_eq_true', List.mem_map]
  constructor
  · rintro ⟨r, hr, heq⟩
    exact ⟨r, Array.mem_toList_iff.2 hr, by rw [FrameInput.meaning, of_decide_eq_true heq]⟩
  · rintro ⟨r, hr, heq⟩
    have hr := Array.mem_toList_iff.1 hr
    have hkn := B.concrete.resolve (hrecvs r hr)
    exact ⟨r, hr, decide_eq_true (ht.eq_of_named hord hkn hun heq)⟩

/-- A type that no constructor of the block has run on. -/
theorem afterConstructors_of_not {input : FrameInput} {t : FrameType} {allowed : Nat → Prop} (ht : t.IsKnown later allowed)
    (h : (t.named later).isUninitialized = true → (f.initialized.any fun recv => input.resolve recv = t) = false) :
    f.afterConstructors context input (some t) later = .ok (some t) later := by
  unfold afterConstructors
  dsimp only
  by_cases hcase : (f.initialized.isEmpty || t.dims != 0) = true
  · rw [if_pos hcase]
    rfl
  rw [if_neg hcase]
  obtain ⟨-, hdims⟩ : f.initialized.isEmpty = false ∧ t.dims = 0 := by simpa using hcase
  cases hkind : t.kind with
  | uninitializedThis =>
    have hany := h (by simp [FrameType.named, hkind, hdims, Kind.named, SlotType.isUninitialized])
    simp only [hany, Bool.false_eq_true, if_false]
    rfl
  | uninitialized row =>
    obtain ⟨-, name, offset, hrow, -⟩ := ht.uninitialized row hkind
    have hany := h (by simp [FrameType.named, hkind, hdims, Kind.named, hrow, SlotType.isUninitialized])
    simp only [hany, Bool.false_eq_true, if_false]
    rfl
  | _ => rfl

/-- A type that a constructor of the block has run on. -/
theorem afterConstructors_of_receiver {input : FrameInput} {t : FrameType} {allowed : Nat → Prop}
    (ht : t.IsKnown later allowed) (hun : (t.named later).isUninitialized = true)
    (h : (f.initialized.any fun recv => input.resolve recv = t) = true) :
    ∃ name, (t.named later).initialized context.thisClass = .object name ∧
      f.afterConstructors context input (some t) later =
        .ok (some (.object (later.addRow (.normal name)).1)) (later.addRow (.normal name)).2 := by
  have hnonempty : f.initialized.isEmpty = false := by
    cases hemp : f.initialized.isEmpty with
    | false => rfl
    | true => simp [Array.isEmpty_iff.1 hemp] at h
  unfold afterConstructors
  rcases ht.eq_of_isUninitialized hun with rfl | ⟨row, name, offset, rfl, hrow, -, hname⟩
  · refine ⟨context.thisClass, rfl, ?_⟩
    simp only [hnonempty, Bool.false_or, bne_self_eq_false, Bool.false_eq_true, if_false, h, if_true]
    rfl
  · refine ⟨name, by rw [hname]; rfl, ?_⟩
    have htypeName : later.typeName row = name := by simp [Pool.typeName, hrow, TypeRow.name]
    simp only [hnonempty, Bool.false_or, bne_self_eq_false, Bool.false_eq_true, if_false, h, if_true]
    rw [run_get_bind, htypeName]
    rfl

/-- **The constructors of a block** do to a type what they would have done one by one. -/
theorem afterConstructors_spec (hord : B.pool.Orderly) (hrecvs : ∀ r ∈ f.initialized, r.IsSettled B.pool offsets)
    (hthis : context.thisClass = B.thisClass) {t : FrameType} {allowed : Nat → Prop} (ht : t.IsKnown B.pool allowed)
    (hlater : later.Orderly) (hextends : Extends 5 B.pool later) :
    ∃ t' last, f.afterConstructors context B.input (some t) later = .ok (some t') last ∧ last.Orderly ∧
      Extends 5 later last ∧ t'.IsKnown last (fun _ => True) ∧
      t'.named last = (t.named B.pool).constructed B.thisClass (f.initialized.toList.map (B.input.meaning B.pool)) := by
  have hkn : t.IsKnown later (fun _ => True) := (ht.extends hextends).mono fun _ _ => trivial
  have hname := ht.named_extends hextends
  by_cases hran : (t.named B.pool).isUninitialized = true ∧
      t.named B.pool ∈ f.initialized.toList.map (B.input.meaning B.pool)
  · obtain ⟨hun, hmem⟩ := hran
    have hany := (any_initialized hord hrecvs ht hun).2 hmem
    obtain ⟨name, hobj, hrun⟩ := @afterConstructors_of_receiver f context later B.input t _ hkn (hname ▸ hun) hany
    obtain ⟨hlast, hgrows, htype⟩ := Pool.addRow_spec hlater (.normal name)
    refine ⟨_, _, hrun, hlast, hgrows.mono (by decide), FrameType.isKnown_object htype 0, ?_⟩
    rw [SlotType.constructed, if_pos hmem, ← hname, ← hthis, hobj]
    simp [FrameType.named, Kind.named, Pool.typeName, htype, TypeRow.name]
  · refine ⟨t, later, afterConstructors_of_not hkn fun hun => ?_, hlater, .refl 5 later, hkn, ?_⟩
    · rw [hname] at hun
      rw [← Bool.not_eq_true, any_initialized hord hrecvs ht hun]
      exact fun hmem => hran ⟨hun, hmem⟩
    · cases hun : (t.named B.pool).isUninitialized with
      | false => rw [SlotType.constructed_of_not hun, hname]
      | true => rw [SlotType.constructed_of_not_mem fun hmem => hran ⟨hun, hmem⟩, hname]

end

/-! ### Slots of the target -/

/-- Slots that nothing has reached are filled one after the other. -/
theorem forCount_fills {put : List InputSlot → Pool → Merging} {join : Nat → InputSlot → MergeM Unit}
    (hput : ∀ slots pool pool', { put slots pool with pool := pool' } = put slots pool' ∧ (put slots pool).pool = pool)
    (hjoin : ∀ done rest t pool, join done.length (some t) (put (done ++ none :: rest) pool) =
      .ok () (put (done ++ some t.normalized :: rest) pool))
    {arrive : Nat → PoolM InputSlot} {start : Pool} {done : List InputSlot} {before us : List SlotType} {pool : Pool}
    (harrive : ∀ k u later, us[k]? = some u → later.Orderly → Extends 5 start later →
      ∃ t last, arrive (done.length + k) later = .ok (some t) last ∧ last.Orderly ∧ Extends 5 later last ∧
        t.IsKnown last (fun _ => True) ∧ t.named last = u)
    (hord : pool.Orderly) (hextends : Extends 5 start pool) (hdone : List.Forall₂ (InputSlot.Shows pool) done before) :
    ∃ slots last, forCount (fun i => do
        let t ← Merging.fromPool (arrive i)
        join i t) us.length done.length (put (done ++ List.replicate us.length none) pool) = .ok () (put slots last) ∧
      last.Orderly ∧ Extends 5 pool last ∧ List.Forall₂ (InputSlot.Shows last) slots (before ++ us) := by
  induction us generalizing done before pool with
  | nil =>
    refine ⟨done, pool, ?_, hord, .refl 5 pool, ?_⟩
    · rw [List.length_nil, List.replicate_zero, List.append_nil]
      rfl
    · rwa [List.append_nil]
  | cons u us ih =>
    obtain ⟨t, pool₁, harrived, hord₁, hextends₁, hkn, hname⟩ := harrive 0 u pool rfl hord hextends
    have hshows : List.Forall₂ (InputSlot.Shows pool₁) (done ++ [some t.normalized]) (before ++ [u]) := by
      refine List.rel_append (hdone.imp fun _ _ h => h.extends hextends₁) (.cons ?_ .nil)
      exact ⟨_, rfl, hkn.normalized, t.normalized_normalized, (FrameType.named_normalized _ _).trans hname⟩
    obtain ⟨slots, last, hrun, hlast, hgr, hall⟩ := @ih (done ++ [some t.normalized]) (before ++ [u]) pool₁
      (by
        intro k v later hv hlater hext
        have hnext := harrive (k + 1) v later hv hlater hext
        rwa [List.length_append, List.length_singleton, Nat.add_assoc, Nat.add_comm 1 k])
      hord₁ (hextends.trans hextends₁) hshows
    refine ⟨slots, last, ?_, hlast, hextends₁.trans hgr, by rwa [List.append_assoc] at hall⟩
    rw [Nat.add_zero] at harrived
    have hfrom : Merging.fromPool (arrive done.length) (put (done ++ none :: List.replicate us.length none) pool) =
        .ok (some t) (put (done ++ none :: List.replicate us.length none) pool₁) := by
      unfold Merging.fromPool
      rw [(hput _ pool pool₁).2, harrived]
      exact congrArg (EStateM.Result.ok (some t)) (hput _ pool pool₁).1
    have hstep : (do
        let t ← Merging.fromPool (arrive done.length)
        join done.length t) (put (done ++ List.replicate (us.length + 1) none) pool) =
        .ok () (put (done ++ [some t.normalized] ++ List.replicate us.length none) pool₁) := by
      rw [List.replicate_succ, run_bind_of_ok hfrom, hjoin, List.append_assoc]
      rfl
    rw [List.length_cons, forCount, run_bind_of_ok hstep]
    rwa [List.length_append, List.length_singleton] at hrun

theorem fromPool_join_none (hierarchy : Hierarchy) (t : FrameType) (s : Merging) :
    Merging.fromPool (FrameType.join hierarchy (some t) none) s = .ok (some t.normalized) s := rfl

theorem getD_unreached (done rest : List InputSlot) : (done ++ none :: rest).toArray.getD done.length none = none := by
  simp [Array.getD_eq_getD_getElem?]

theorem set_unreached (done rest : List InputSlot) (slot : InputSlot) :
    (done ++ none :: rest).toArray.setIfInBounds done.length slot = (done ++ slot :: rest).toArray := by simp

/-- Joining into a local that nothing has reached. -/
theorem joinLocal_none (hierarchy : Hierarchy) (stack : Array InputSlot) (done rest : List InputSlot) (t : FrameType)
    (pool : Pool) :
    Merging.joinLocal hierarchy done.length (some t) ⟨⟨(done ++ none :: rest).toArray, stack⟩, true, pool⟩ =
      .ok () ⟨⟨(done ++ some t.normalized :: rest).toArray, stack⟩, true, pool⟩ := by
  unfold Merging.joinLocal
  rw [run_get_bind, getD_unreached, run_bind_of_ok (fromPool_join_none ..), if_pos (by simp), ← set_unreached _ _ (some _)]
  rfl

/-- Joining into a stack slot that nothing has reached. -/
theorem joinStack_none (hierarchy : Hierarchy) (locals : Array InputSlot) (done rest : List InputSlot) (t : FrameType)
    (pool : Pool) :
    Merging.joinStack hierarchy done.length (some t) ⟨⟨locals, (done ++ none :: rest).toArray⟩, true, pool⟩ =
      .ok () ⟨⟨locals, (done ++ some t.normalized :: rest).toArray⟩, true, pool⟩ := by
  unfold Merging.joinStack
  rw [run_get_bind, getD_unreached, run_bind_of_ok (fromPool_join_none ..), if_pos (by simp), ← set_unreached _ _ (some _)]
  rfl

section
variable {B : BlockEntry} {offsets : List Nat} {f : Frame} {m : Machine}

/-- A slot of the input stands for what it holds. -/
theorem resolve_source {kind : Kind} {r : FrameType} (hrel : (FrameType.ofKind kind).isRelative = true)
    (h : B.input.source kind = some r) : B.input.resolve (.ofKind kind) = r := by
  have hpln := (B.concrete.source h).plain
  rw [B.input.resolve_of_some hrel h, Bool.false_and, if_neg (by simp), FrameInput.shifted, ← hpln]
  simp

/-- What a block says of a local is what arrives in it. -/
theorem finalLocal_eq {i : Nat} (hi : i < B.input.locals.size) :
    f.finalLocal B.input i = some (B.input.resolve (f.localType i)) := by
  unfold finalLocal localType
  cases hlocal : f.locals.getD i none with
  | some t => rfl
  | none =>
    obtain ⟨t, ht, -⟩ := B.concrete.locals B.input.locals[i] (Array.getElem_mem hi)
    have hslot : B.input.locals.getD i none = some t := by
      rw [Array.getD_eq_getD_getElem?, Array.getElem?_eq_getElem hi, ht]
      rfl
    have hsrc : B.input.source (.fromLocal i) = some t := hslot
    dsimp only [Option.getD_none]
    rw [hslot, resolve_source rfl hsrc]

/-- What a block says of a stack slot is what arrives in it. -/
theorem finalStack_eq {i : Nat} (hpopped : f.popped ≤ B.input.stack.size) {t : FrameType}
    (ht : (f.stackTypes B.input.stack.size).reverse[i]? = some t) :
    f.finalStack B.input i = some (B.input.resolve t) := by
  have hlen : ((List.range' (f.popped + 1) (B.input.stack.size - f.popped)).map fun depth =>
      FrameType.ofKind (.fromStack depth)).reverse.length = f.kept B.input := by
    simp [kept]
  unfold finalStack
  rw [stackTypes, List.reverse_append, List.reverse_reverse, List.getElem?_append, hlen] at ht
  dsimp only
  split at ht
  next hkept =>
    have hi : i < B.input.stack.size := by
      unfold kept at hkept
      omega
    obtain ⟨r, hr, -⟩ := B.concrete.stack B.input.stack[i] (Array.getElem_mem hi)
    have hslot : B.input.stack.getD i none = some r := by
      rw [Array.getD_eq_getD_getElem?, Array.getElem?_eq_getElem hi, hr]
      rfl
    have hdepth : t = .ofKind (.fromStack (B.input.stack.size - i)) := by
      unfold kept at hkept
      rw [List.getElem?_reverse (by simpa using hkept), List.getElem?_map, List.length_map, List.length_range',
        List.getElem?_range' (by omega)] at ht
      have ht := (Option.some.inj ht).symm
      rw [ht]
      congr 3
      omega
    have hsrc : B.input.source (.fromStack (B.input.stack.size - i)) = some r := by
      rw [FrameInput.source, if_pos (Nat.sub_le _ _), Nat.sub_sub_self hi.le, hslot]
    rw [if_pos hkept, hslot, hdepth, resolve_source rfl hsrc]
  next hpushed =>
    rw [Array.getElem?_toList] at ht
    rw [if_neg hpushed, ht]
    rfl

theorem finalHeight_eq (h : Stands B offsets f m) : f.finalHeight B.input = m.stack.length := by
  rw [h.length_stack, finalHeight, kept, Nat.add_comm]

/-- What arrives in a slot that a block says something of. -/
theorem arrives (hord : B.pool.Orderly) (hstd : Stands B offsets f m) {context : TypeContext}
    (hthis : context.thisClass = B.thisClass) {t : FrameType} (ht : t.IsSettled B.pool offsets) {later : Pool}
    (hlater : later.Orderly) (hextends : Extends 5 B.pool later) :
    ∃ t' last, f.afterConstructors context B.input (some (B.input.resolve t)) later = .ok (some t') last ∧
      last.Orderly ∧ Extends 5 later last ∧ t'.IsKnown last (fun _ => True) ∧
      t'.named last = B.value f.initialized t :=
  afterConstructors_spec hord (fun r hr => hstd.settled r (.inr (.inr hr))) hthis (B.concrete.resolve ht) hlater hextends

variable {context : TypeContext} (hthis : context.thisClass = B.thisClass)

include hthis

theorem mergeLocals_fresh (hord : B.pool.Orderly) (hstd : Stands B offsets f m) :
    ∃ slots last, f.mergeLocals context B.input
        ⟨⟨(List.replicate B.input.locals.size none).toArray, #[]⟩, true, B.pool⟩ =
        .ok () ⟨⟨slots.toArray, #[]⟩, true, last⟩ ∧ last.Orderly ∧ Extends 5 B.pool last ∧
      List.Forall₂ (InputSlot.Shows last) slots m.locals := by
  have hfills := @forCount_fills (fun slots pool => ⟨⟨slots.toArray, #[]⟩, true, pool⟩)
    (Merging.joinLocal context.hierarchy) (fun _ _ _ => ⟨rfl, rfl⟩) (fun done rest t pool => joinLocal_none ..)
    (fun i => f.afterConstructors context B.input (f.finalLocal B.input i)) B.pool [] [] m.locals B.pool
    (by
      intro k u later hu hlater hextends
      have hk : k < B.input.locals.size := by
        rw [← hstd.length_locals]
        exact (List.getElem?_eq_some_iff.1 hu).1
      rw [hstd.locals, List.getElem?_map, List.getElem?_range hk] at hu
      rw [List.length_nil, Nat.zero_add, finalLocal_eq hk, ← Option.some.inj hu]
      refine arrives hord hstd hthis ?_ hlater hextends
      rcases f.mentions_localType k with hrel | hmentions
      · rw [hrel]
        exact FrameType.isSettled_fromLocal k
      · exact hstd.settled _ hmentions)
    hord (.refl 5 _) .nil
  rw [hstd.length_locals] at hfills
  exact hfills

theorem mergeStack_fresh (hord : B.pool.Orderly) (hstd : Stands B offsets f m) (locals : Array InputSlot)
    (pos : Nat) {later : Pool} (hlater : later.Orderly) (hextends : Extends 5 B.pool later) :
    ∃ slots last, f.mergeStack context B.input true pos ⟨⟨locals, #[]⟩, true, later⟩ =
        .ok () ⟨⟨locals, slots.toArray⟩, true, last⟩ ∧ last.Orderly ∧ Extends 5 later last ∧
      List.Forall₂ (InputSlot.Shows last) slots m.stack.reverse := by
  have hfills := @forCount_fills (fun slots pool => ⟨⟨locals, slots.toArray⟩, true, pool⟩)
    (Merging.joinStack context.hierarchy) (fun _ _ _ => ⟨rfl, rfl⟩) (fun done rest t pool => joinStack_none ..)
    (fun i => f.afterConstructors context B.input (f.finalStack B.input i)) B.pool [] [] m.stack.reverse later
    (by
      intro k u later hu hlater hextends
      rw [hstd.stack, ← List.map_reverse, List.getElem?_map] at hu
      obtain ⟨t, ht, rfl⟩ := Option.map_eq_some_iff.1 hu
      rw [List.length_nil, Nat.zero_add, finalStack_eq hstd.popped ht]
      refine arrives hord hstd hthis ?_ hlater hextends
      have hmem : t ∈ f.stackTypes B.input.stack.size := List.mem_reverse.1 (List.mem_of_getElem? ht)
      rcases List.mem_append.1 hmem with hpushed | hkept
      · exact hstd.settled t (.inl (Array.mem_toList_iff.1 (List.mem_reverse.1 hpushed)))
      · obtain ⟨depth, -, rfl⟩ := List.mem_map.1 hkept
        exact FrameType.isSettled_fromStack depth)
    hlater hextends .nil
  rw [List.length_reverse, ← finalHeight_eq hstd] at hfills
  exact hfills

/-- **A merge into a block that has not been reached** leaves there what the machine has. -/
theorem merge_fresh (hord : B.pool.Orderly) (hin : f.input = some B.input) (hstd : Stands B offsets f m)
    (pos : Nat) :
    ∃ target last, f.merge context .normal pos ⟨none, B.pool⟩ = .ok true ⟨some target, last⟩ ∧
      target.Shows last m := by
  obtain ⟨locals, later, hloc, hlater, hextends, hshown⟩ := mergeLocals_fresh hthis hord hstd
  obtain ⟨stack, last, hstk, hlast, hgr, hall⟩ := mergeStack_fresh hthis hord hstd locals.toArray pos hlater hextends
  refine ⟨⟨locals.toArray, stack.toArray⟩, last, ?_, ⟨hshown.imp fun _ _ h => h.extends hgr, hall⟩⟩
  have hroom : (#[] ++ Array.replicate (B.input.locals.size - 0) none : Array InputSlot) =
      (List.replicate B.input.locals.size none).toArray := by simp
  have hinto : f.mergeInto context B.input .normal true pos ⟨{}, true, B.pool⟩ =
      .ok () ⟨⟨locals.toArray, stack.toArray⟩, true, last⟩ := by
    unfold mergeInto
    rw [run_bind_of_ok (a := ()) (t := ⟨⟨(List.replicate B.input.locals.size none).toArray, #[]⟩, true, B.pool⟩)
      (by rw [← hroom]; rfl), run_bind_of_ok hloc]
    exact hstk
  unfold merge
  rw [hin]
  dsimp only [Option.isNone_none, Option.getD_none]
  rw [hinto]

omit hthis

/-- What the input has in a slot, before any instruction. -/
theorem value_source {kind : Kind} {slots : Array InputSlot} {i : Nat} (hi : i < slots.size)
    (hrel : (FrameType.ofKind kind).isRelative = true) (hsrc : B.input.source kind = slots[i])
    (hsl : ∀ slot ∈ slots, ∃ t, slot = some t ∧ t.IsKnown B.pool (· ∉ B.fresh)) :
    B.value #[] (.ofKind kind) = (slots[i].getD .top).named B.pool := by
  obtain ⟨t, ht, -⟩ := hsl slots[i] (Array.getElem_mem hi)
  rw [ht] at hsrc ⊢
  rw [BlockEntry.value, SlotType.constructed_of_not_mem (by simp), FrameInput.meaning, resolve_source hrel hsrc]
  rfl

/-- Before any instruction, the machine is where the block is. -/
theorem stands_start : Stands B [] {} (B.input.machine B.pool) where
  popped := Nat.zero_le _
  locals := by
    refine List.ext_getElem ?_ fun i hi hi' => ?_
    · simp [FrameInput.machine]
    · have hlt : i < B.input.locals.size := by simpa using hi'
      simp only [FrameInput.machine, List.getElem_map, Array.getElem_toList, List.getElem_range]
      refine (value_source hlt rfl ?_ B.concrete.locals).symm
      simp [FrameInput.source, hlt]
  stack := by
    refine List.ext_getElem ?_ fun i hi hi' => ?_
    · simp [FrameInput.machine, length_stackTypes]
    · have hlt : i < B.input.stack.size := by simpa [length_stackTypes] using hi'
      have hback : B.input.stack.size - 1 - i < B.input.stack.size := by omega
      simp only [FrameInput.machine, stackTypes, List.getElem_map, List.getElem_reverse, Array.getElem_toList,
        Array.length_toList, List.reverse_nil, List.nil_append, List.getElem_range']
      refine (value_source hback rfl ?_ B.concrete.stack).symm
      have hdepth : 0 + 1 + 1 * i ≤ B.input.stack.size := by omega
      have hidx : B.input.stack.size - (0 + 1 + 1 * i) = B.input.stack.size - 1 - i := by omega
      simp only [FrameInput.source]
      rw [if_pos hdepth, hidx, Array.getD_eq_getD_getElem?, Array.getElem?_eq_getElem hback]
      rfl
  settled t ht := by
    rcases ht with ht | ht | ht
    · simp at ht
    · simp at ht
    · simp at ht

end

/-- **Summaries are exact.** A block is interpreted once, from nothing. Later, with any input whose types are all known, the
machine gets to the end of the block just if the stack of the input is as high as the summary needs it. A merge into a block
that has not been reached then leaves there exactly the locals and the stack of the machine, and the largest height of the
stack is as the summary says. The arrays that elements are loaded from must not be those of `long` or `double`: the element of
an array from a local is taken for broken if the slot behind that local was overwritten. -/
theorem merge_executeAll {instructions : List BlockInstruction} {pool pool' later : Pool} {f : Frame} {input : FrameInput}
    (horderly : pool.Orderly) (hrun : Interpreter.executeAll instructions ⟨{}, pool⟩ = .ok () ⟨f, pool'⟩)
    (hlater : later.Orderly) (hextends : Extends 5 pool' later)
    (hnew : (instructions.flatMap BlockInstruction.newOffsets).Nodup)
    (hinput : input.IsConcrete later (instructions.flatMap BlockInstruction.newOffsets))
    (hlocals : ∀ i ∈ instructions, i.localsNeeded ≤ input.locals.size) (context : TypeContext)
    (hnarrow : (input.machine later).loadsNarrow context.thisClass instructions = true) :
    (((input.machine later).run context.thisClass instructions).isSome ↔ f.popped ≤ input.stack.size) ∧
    ∀ m, (input.machine later).run context.thisClass instructions = some m →
      (∀ position, ∃ target last, ({ f with input := some input } : Frame).merge context .normal position ⟨none, later⟩ =
        .ok true ⟨some target, last⟩ ∧ target.Shows last m) ∧
      ((input.machine later).heights context.thisClass instructions).foldr max 0 = input.stack.size + f.peak := by
  let B : BlockEntry := ⟨later, input, context.thisClass, _, hinput⟩
  have hstart : Stands B [] {} (input.machine later) := stands_start
  have hadmits : Interpreter.Admits B [] instructions (input.machine later) :=
    ⟨hlocals, fun offset ho => ⟨ho, by simp⟩, hnew, hnarrow⟩
  have hfollows := Interpreter.follows_executeAll horderly hextends hrun hadmits hstart
  refine ⟨hfollows.isSome_iff, fun m hm => ?_⟩
  have henough : f.popped ≤ input.stack.size := hfollows.isSome_iff.1 (Option.isSome_of_eq_some hm)
  obtain ⟨m', hm', hstands⟩ := hfollows.1 henough
  cases hm'.symm.trans hm
  have hready : Stands B ([] ++ instructions.flatMap BlockInstruction.newOffsets) { f with input := some input } m :=
    ⟨hstands.popped, hstands.locals, hstands.stack, hstands.settled⟩
  refine ⟨fun position => merge_fresh rfl hlater rfl hready position, ?_⟩
  have hheights : max (input.stack.size + 0) (((input.machine later).heights context.thisClass instructions).foldr max 0) =
      input.stack.size + f.peak :=
    Interpreter.heights_executeAll horderly hextends hrun hadmits hstart (Nat.zero_le _) henough
  have hentry := (input.machine later).length_le_heights context.thisClass instructions
  have hheight : (input.machine later).stack.length = input.stack.size := by simp [FrameInput.machine]
  omega

/-- A block that makes an object over the second half of a `long`, loads the element of an array, calls the constructor of
its own receiver and swaps with what was on the stack before. -/
def constructsTwice : List BlockInstruction :=
  [⟨Opcode.newObject, 7, .cls "A"⟩, ⟨89, 10, .none⟩, ⟨Opcode.invokespecial, 11, .method "<init>" "()V"⟩,
    ⟨Opcode.astore, 1, .none⟩, ⟨Opcode.aload, 2, .none⟩, ⟨3, 18, .none⟩, ⟨50, 19, .none⟩, ⟨Opcode.aload, 3, .none⟩,
    ⟨Opcode.invokespecial, 22, .method "<init>" "()V"⟩, ⟨95, 25, .none⟩]

def beforeConstruction : FrameInput where
  locals := #[some .long, some .top, some { dims := 2, kind := .int }, some (.ofKind .uninitializedThis)]
  stack := #[some (.ofKind .uninitializedThis), some .int]

/-- What the block makes of that input. -/
def afterConstruction : Machine where
  locals := [.top, .object "A", { dims := 2, kind := .int }, .object "T"]
  stack := [.int, { dims := 1, kind := .int }, .object "T"]

/-- The `long` is broken, all copies of the receivers are objects, and the stack has been at most two slots higher. -/
theorem merge_executeAll_constructsTwice :
    ∃ f pool, Interpreter.executeAll constructsTwice ⟨{}, .empty⟩ = .ok () ⟨f, pool⟩ ∧ f.popped = 1 ∧
      beforeConstruction.IsConcrete pool [7] ∧
      (beforeConstruction.machine pool).run "T" constructsTwice = some afterConstruction ∧
      (∃ target last, ({ f with input := some beforeConstruction } : Frame).merge ⟨.javaLang, "T"⟩ .normal 26 ⟨none, pool⟩ =
        .ok true ⟨some target, last⟩ ∧ target.Shows last afterConstruction) ∧
      4 = beforeConstruction.stack.size + f.peak := by
  have hchecks : succeedsIn (fun s => s.frame.popped == 1 &&
      (beforeConstruction.machine s.pool).loadsNarrow "T" constructsTwice &&
      (beforeConstruction.machine s.pool).run "T" constructsTwice == some afterConstruction &&
      ((beforeConstruction.machine s.pool).heights "T" constructsTwice).foldr max 0 == 4)
      (Interpreter.executeAll constructsTwice ⟨{}, .empty⟩) = true := by
    decide +kernel
  obtain ⟨_, ⟨f, pool⟩, hrun, hresult⟩ := exists_of_succeedsIn hchecks
  simp only [Bool.and_eq_true, beq_iff_eq] at hresult
  obtain ⟨⟨⟨hpopped, hnarrow⟩, hm⟩, hheights⟩ := hresult
  have hplain : ∀ dims, ({ dims := dims, kind := .int } : FrameType).IsKnown pool (· ∉ [7]) :=
    fun dims => FrameType.isKnown_of_kind rfl rfl (by simp) (by simp) (by simp)
  have hthis : (FrameType.ofKind .uninitializedThis).IsKnown pool (· ∉ [7]) :=
    ⟨rfl, rfl, by simp, by simp, by simp⟩
  have hinput : beforeConstruction.IsConcrete pool [7] := by
    refine ⟨fun slot hslot => ?_, fun slot hslot => ?_⟩
    · have hcases : slot = some .long ∨ slot = some .top ∨ slot = some { dims := 2, kind := .int } ∨
          slot = some (.ofKind .uninitializedThis) := by simpa [beforeConstruction] using hslot
      rcases hcases with rfl | rfl | rfl | rfl
      · exact ⟨_, rfl, FrameType.isKnown_of_kind rfl rfl (by simp) (by simp) (by simp)⟩
      · exact ⟨_, rfl, FrameType.isKnown_top⟩
      · exact ⟨_, rfl, hplain 2⟩
      · exact ⟨_, rfl, hthis⟩
    · have hcases : slot = some (.ofKind .uninitializedThis) ∨ slot = some .int := by
        simpa [beforeConstruction] using hslot
      rcases hcases with rfl | rfl
      · exact ⟨_, rfl, hthis⟩
      · exact ⟨_, rfl, hplain 0⟩
  have hlater := (Interpreter.extends_executeAll Pool.orderly_empty hrun).1
  have hoffsets : constructsTwice.flatMap BlockInstruction.newOffsets = [7] := by decide +kernel
  obtain ⟨-, hall⟩ := merge_executeAll Pool.orderly_empty hrun hlater (.refl 5 pool) (by rw [hoffsets]; decide)
    (by rw [hoffsets]; exact hinput) (by decide +kernel) ⟨.javaLang, "T"⟩ hnarrow
  obtain ⟨hmerge, hpeak⟩ := hall afterConstruction hm
  exact ⟨f, pool, hrun, hpopped, hinput, hm, hmerge 26, hheights.symm.trans hpeak⟩

end Frame

end JvmAssembler
