import JvmAssembler.Frame.Merge
import JvmAssembler.Proofs.Frame.Direct
import JvmAssembler.Proofs.Pool.Order

/-!
# JvmAssembler.Proofs.Frame.Meaning

What the types of a block stand for.

* `FrameType.named` reads a type by means of the type table. A type that is relative to the input is resolved first
  (`FrameInput.meaning`).
* Taking elements, and breaking a `long` or `double`, can be done before a type is resolved or after. There is one exception:
  the element of an array from a local whose second half was overwritten (`meaning_element`).
* The constructors of a block can be applied at its end, all together, or one by one (`constructed_concat`).
-/

namespace JvmAssembler

/-! ### Types by name -/

def Kind.named (pool : Pool) : Kind → SlotKind
  | top => .top
  | boolean => .boolean
  | byte => .byte
  | char => .char
  | short => .short
  | int => .int
  | float => .float
  | long => .long
  | double => .double
  | null => .null
  | uninitializedThis => .uninitializedThis
  | object row => .object (pool.typeName row)
  | uninitialized row =>
    match pool.type? row with
    | some (.uninitialized name offset) => .uninitialized name offset
    | _ => .top
  | fromLocal _ | fromStack _ => .top

namespace FrameType

def named (pool : Pool) (t : FrameType) : SlotType :=
  if t.kind = .null then { kind := .null }
  else if t.dims < 0 then .top
  else { dims := t.dims.toNat, kind := t.kind.named pool }

variable (pool : Pool) (t : FrameType)

theorem named_of_kind (h : t.kind ≠ .null) :
    t.named pool = if t.dims < 0 then .top else { dims := t.dims.toNat, kind := t.kind.named pool } := if_neg h

theorem named_normalized : t.normalized.named pool = t.named pool := by
  unfold normalized
  by_cases hnull : t.kind = .null
  · simp [named, hnull]
  · rw [if_neg hnull]
    by_cases hdims : t.dims < 0
    · rw [if_pos hdims, named_of_kind pool t hnull, if_pos hdims]
      rfl
    · rw [if_neg hdims]

theorem kind_named_isWide (kind : Kind) :
    (kind.named pool == .long || kind.named pool == .double) = (kind == .long || kind == .double) := by
  cases kind with
  | uninitialized row =>
    unfold Kind.named
    dsimp only
    split <;> rfl
  | _ => rfl

theorem isWide_named : (t.named pool).isWide = t.isWide := by
  unfold named
  by_cases hnull : t.kind = .null
  · rw [if_pos hnull, isWide, hnull]
    exact (Bool.and_false _).symm
  · rw [if_neg hnull]
    by_cases hdims : t.dims < 0
    · have hne : t.dims ≠ 0 := by omega
      rw [if_pos hdims, isWide, beq_eq_false_iff_ne.2 hne]
      rfl
    · rw [if_neg hdims, SlotType.isWide, isWide, kind_named_isWide]
      have hzero : (t.dims.toNat == 0) = (t.dims == 0) := by
        rw [Bool.eq_iff_iff, beq_iff_eq, beq_iff_eq]
        omega
      rw [hzero]

theorem isWide_of_isRelative {t : FrameType} (h : t.isRelative = true) : t.isWide = false := by
  obtain ⟨dims, kind, flag⟩ := t
  cases kind with
  | fromLocal | fromStack => exact Bool.and_false _
  | _ => cases h

theorem kind_named_eq_null (kind : Kind) : kind.named pool = .null ↔ kind = .null := by
  cases kind with
  | uninitialized row =>
    unfold Kind.named
    dsimp only
    split <;> simp
  | _ => simp [Kind.named]

theorem named_element : t.element.named pool = (t.named pool).element := by
  unfold named element
  by_cases hnull : t.kind = .null
  · simp [hnull, SlotType.element]
  · simp only [if_neg hnull]
    by_cases hdims : t.dims < 0
    · rw [if_pos (by omega), if_pos hdims]
      rfl
    · rw [if_neg hdims]
      have hkind : t.kind.named pool ≠ .null := fun h => hnull ((kind_named_eq_null pool t.kind).1 h)
      by_cases hzero : t.dims = 0
      · rw [if_pos (by omega)]
        simp [SlotType.element, hzero, hkind]
      · rw [if_neg (by omega)]
        obtain ⟨n, hn⟩ : ∃ n : Nat, t.dims = n + 1 := ⟨(t.dims - 1).toNat, by omega⟩
        have hdown : (t.dims - 1).toNat = n := by omega
        have hup : t.dims.toNat = n + 1 := by omega
        simp only [hdown, hup, SlotType.element]

end FrameType

/-! ### Resolved types -/

namespace FrameInput

variable (input : FrameInput)

/-- The slot that a relative type refers to. -/
def source : Kind → InputSlot
  | .fromLocal i => input.locals.getD i none
  | .fromStack depth =>
    if depth ≤ input.stack.size then input.stack.getD (input.stack.size - depth) none else none
  | _ => none

/-- What a relative type stands for, if it refers to a slot with some type. -/
def shifted (t r : FrameType) : FrameType := { dims := r.dims + t.dims, kind := r.kind }

theorem resolve_of_absolute {t : FrameType} (h : t.isRelative = false) : input.resolve t = t := by
  obtain ⟨dims, kind, flag⟩ := t
  cases kind with
  | fromLocal | fromStack => cases h
  | _ => rfl

theorem resolve_of_none {t : FrameType} (h : t.isRelative = true) (hsrc : input.source t.kind = none) :
    input.resolve t = .top := by
  obtain ⟨dims, kind, flag⟩ := t
  cases kind with
  | fromLocal i =>
    simp only [source] at hsrc
    simp only [resolve, hsrc]
  | fromStack depth =>
    simp only [source] at hsrc
    simp only [resolve, hsrc]
  | _ => cases h

theorem resolve_of_some {t r : FrameType} (h : t.isRelative = true) (hsrc : input.source t.kind = some r) :
    input.resolve t = if t.topIfWide && (shifted t r).isWide then .top else shifted t r := by
  obtain ⟨dims, kind, flag⟩ := t
  cases kind with
  | fromLocal i =>
    simp only [source] at hsrc
    simp only [resolve, hsrc]
    rfl
  | fromStack depth =>
    simp only [source] at hsrc
    simp only [resolve, hsrc]
    rfl
  | _ => cases h

/-- What a type stands for, by name. -/
def meaning (pool : Pool) (t : FrameType) : SlotType := (input.resolve t).named pool

variable {pool : Pool}

theorem meaning_of_absolute {t : FrameType} (h : t.isRelative = false) : input.meaning pool t = t.named pool := by
  rw [meaning, input.resolve_of_absolute h]

/-- **Elements of relative types**: they can be taken before or after. If the second half of the local was overwritten, the
element must not be a `long` or `double`. -/
theorem meaning_element {t : FrameType} (h : ((input.meaning pool t).element).isWide = false) :
    input.meaning pool t.element = (input.meaning pool t).element := by
  have hrel : t.element.isRelative = t.isRelative := rfl
  cases hcase : t.isRelative with
  | false =>
    rw [input.meaning_of_absolute hcase, input.meaning_of_absolute (hrel.trans hcase), FrameType.named_element]
  | true =>
    cases hsrc : input.source t.kind with
    | none =>
      rw [meaning, meaning, input.resolve_of_none hcase hsrc,
        input.resolve_of_none (t := t.element) (hrel.trans hcase) hsrc]
      rfl
    | some r =>
      have hshift : shifted t.element r = (shifted t r).element := by
        simp only [shifted, FrameType.element, FrameType.mk.injEq, and_true]
        omega
      rw [meaning, input.resolve_of_some (t := t.element) (hrel.trans hcase) hsrc, hshift]
      rw [meaning, input.resolve_of_some hcase hsrc] at h ⊢
      show (if t.topIfWide && _ then _ else _ : FrameType).named pool = _
      cases hflag : t.topIfWide with
      | false => simp [FrameType.named_element]
      | true =>
        rw [hflag] at h
        simp only [Bool.true_and] at h ⊢
        cases hwide : (shifted t r).isWide with
        | true =>
          -- a broken value has no elements
          have hdims : (shifted t r).dims = 0 := by
            simp only [FrameType.isWide, Bool.and_eq_true, beq_iff_eq] at hwide
            exact hwide.1
          have hkind : (shifted t r).kind ≠ .null := by
            intro hnull
            simp [FrameType.isWide, hnull] at hwide
          have hnar : (shifted t r).element.isWide = false := by
            simp [FrameType.isWide, FrameType.element, hdims]
          rw [hnar, if_neg (by simp), if_pos rfl, FrameType.named_of_kind pool _ (by exact hkind)]
          simp [FrameType.element, hdims, FrameType.named, Kind.named, SlotType.element]
        | false =>
          rw [hwide, if_neg (by simp), ← FrameType.named_element, FrameType.isWide_named] at h
          rw [h, if_neg (by simp), if_neg (by simp), FrameType.named_element]

/-- A local whose second half is overwritten. -/
theorem meaning_broken {t : FrameType} (h : t.isRelative = true) :
    input.meaning pool { t with topIfWide := true } =
      if (input.meaning pool t).isWide then .top else input.meaning pool t := by
  have hrel : ({ t with topIfWide := true } : FrameType).isRelative = true := h
  have htop : FrameType.top.named pool = .top := rfl
  cases hsrc : input.source t.kind with
  | none =>
    rw [meaning, meaning, input.resolve_of_none h hsrc, input.resolve_of_none hrel hsrc]
    rfl
  | some r =>
    have hshift : shifted { t with topIfWide := true } r = shifted t r := rfl
    rw [meaning, meaning, input.resolve_of_some h hsrc, input.resolve_of_some hrel hsrc, hshift]
    simp only [Bool.true_and]
    cases hwide : (shifted t r).isWide with
    | true =>
      simp only [if_true]
      split <;> simp [htop, FrameType.isWide_named, hwide]
    | false =>
      simp [FrameType.isWide_named, hwide]

end FrameInput

/-! ### Constructors -/

namespace SlotType

/-- What a constructor has yet to run on. -/
def isUninitialized (t : SlotType) : Bool :=
  t.dims == 0 &&
    match t.kind with
    | .uninitializedThis | .uninitialized .. => true
    | _ => false

variable {thisClass : String} {receivers : List SlotType} {t : SlotType}

theorem initialized_of_not (h : t.isUninitialized = false) : t.initialized thisClass = t := by
  obtain ⟨dims, kind⟩ := t
  cases dims with
  | zero =>
    cases kind with
    | uninitializedThis | uninitialized => simp [isUninitialized] at h
    | _ => rfl
  | succ dims => rfl

theorem constructed_of_not (h : t.isUninitialized = false) : t.constructed thisClass receivers = t := by
  rw [constructed, initialized_of_not h, ite_self]

theorem constructed_of_not_mem (h : t ∉ receivers) : t.constructed thisClass receivers = t := if_neg h

/-- A type that has been initialised is an object. -/
theorem isUninitialized_initialized (t : SlotType) : (t.initialized thisClass).isUninitialized = false := by
  cases h : t.isUninitialized with
  | false => rw [initialized_of_not h, h]
  | true =>
    obtain ⟨dims, kind⟩ := t
    cases dims with
    | zero =>
      cases kind with
      | uninitializedThis | uninitialized => rfl
      | _ => cases h
    | succ dims => simp [isUninitialized] at h

theorem isWide_constructed (t : SlotType) : (t.constructed thisClass receivers).isWide = t.isWide := by
  cases h : t.isUninitialized with
  | false => rw [constructed_of_not h]
  | true =>
    unfold constructed
    split
    · obtain ⟨dims, kind⟩ := t
      cases dims with
      | zero =>
        cases kind with
        | uninitializedThis | uninitialized => rfl
        | _ => cases h
      | succ dims => rfl
    · rfl

/-- **Constructors one by one.** One more constructor turns the copies of its receiver into objects, whatever has become of
that receiver before. -/
theorem constructed_concat (receiver : SlotType) :
    t.constructed thisClass (receivers ++ [receiver]) =
      (t.constructed thisClass receivers).constructed thisClass [receiver.constructed thisClass receivers] := by
  cases h : t.isUninitialized with
  | false => rw [constructed_of_not h, constructed_of_not h, constructed_of_not h]
  | true =>
    by_cases hmem : t ∈ receivers
    · have hdone : (t.constructed thisClass receivers).isUninitialized = false := by
        rw [constructed, if_pos hmem]
        exact isUninitialized_initialized t
      rw [constructed_of_not hdone, constructed, if_pos (List.mem_append_left _ hmem), constructed, if_pos hmem]
    · rw [constructed_of_not_mem hmem]
      -- a receiver that has become an object is no longer equal to the type
      have hiff : t ∈ receivers ++ [receiver] ↔ t ∈ [receiver.constructed thisClass receivers] := by
        simp only [List.mem_append, List.mem_singleton, hmem, false_or]
        by_cases hrecv : receiver ∈ receivers
        · have hne : t ≠ receiver := fun heq => hmem (heq ▸ hrecv)
          have hne' : t ≠ receiver.constructed thisClass receivers := by
            intro heq
            rw [constructed, if_pos hrecv] at heq
            rw [heq, isUninitialized_initialized] at h
            cases h
          simp [hne, hne']
        · rw [constructed_of_not_mem hrecv]
      by_cases hin : t ∈ receivers ++ [receiver]
      · rw [constructed, if_pos hin, constructed, if_pos (hiff.1 hin)]
      · rw [constructed_of_not_mem hin, constructed_of_not_mem fun h => hin (hiff.2 h)]

/-- Elements of initialised types. No array has elements that a constructor has yet to run on. -/
theorem element_constructed (h : t.element.isUninitialized = false) :
    (t.constructed thisClass receivers).element = t.element.constructed thisClass receivers := by
  rw [constructed_of_not h]
  cases hcase : t.isUninitialized with
  | false => rw [constructed_of_not hcase]
  | true =>
    unfold constructed
    split
    · obtain ⟨dims, kind⟩ := t
      cases dims with
      | zero =>
        cases kind with
        | uninitializedThis | uninitialized => rfl
        | _ => cases hcase
      | succ dims => rfl
    · rfl

end SlotType

/-! ### Types that are known -/

namespace FrameType

/-- A type that is not relative and whose rows are in the type table. What a constructor has yet to run on is no array, and
comes from an offset with some property. -/
structure IsKnown (pool : Pool) (allowed : Nat → Prop) (t : FrameType) : Prop where
  absolute : t.isRelative = false
  plain : t.topIfWide = false
  object : ∀ row, t.kind = .object row → ∃ name, pool.type? row = some (.normal name)
  uninitialized : ∀ row, t.kind = .uninitialized row →
    t.dims ≤ 0 ∧ ∃ name offset, pool.type? row = some (.uninitialized name offset) ∧ allowed offset
  this : t.kind = .uninitializedThis → t.dims ≤ 0

/-- A type that a block may speak of, behind the `new` instructions at some offsets. -/
def IsSettled (pool : Pool) (offsets : List Nat) (t : FrameType) : Prop :=
  (t.isRelative = true ∧ t.dims ≤ 0) ∨ t.IsKnown pool (· ∈ offsets)

variable {pool : Pool} {allowed : Nat → Prop} {offsets : List Nat} {t : FrameType}

theorem IsKnown.mono {allowed' : Nat → Prop} (h : t.IsKnown pool allowed) (himp : ∀ n, allowed n → allowed' n) :
    t.IsKnown pool allowed' :=
  { h with
    uninitialized := by
      intro row hkind
      obtain ⟨hdims, name, offset, hrow, hoff⟩ := h.uninitialized row hkind
      exact ⟨hdims, name, offset, hrow, himp offset hoff⟩ }

theorem IsSettled.mono {offsets' : List Nat} (h : t.IsSettled pool offsets) (hsub : ∀ n ∈ offsets, n ∈ offsets') :
    t.IsSettled pool offsets' := h.imp_right fun hkn => hkn.mono hsub

theorem isSettled_fromLocal (i : Nat) : (ofKind (.fromLocal i)).IsSettled pool offsets := .inl ⟨rfl, Int.le_refl 0⟩

theorem isSettled_fromStack (depth : Nat) : (ofKind (.fromStack depth)).IsSettled pool offsets := .inl ⟨rfl, Int.le_refl 0⟩

/-- Primitives, `null` and what cannot be used, and arrays of these. -/
theorem isKnown_of_kind (h : t.isRelative = false) (hpln : t.topIfWide = false) (hobj : ∀ row, t.kind ≠ .object row)
    (hun : ∀ row, t.kind ≠ .uninitialized row) (hthis : t.kind ≠ .uninitializedThis) : t.IsKnown pool allowed :=
  ⟨h, hpln, fun row hrow => absurd hrow (hobj row), fun row hrow => absurd hrow (hun row), fun h => absurd h hthis⟩

theorem isKnown_top : top.IsKnown pool allowed := isKnown_of_kind rfl rfl (by simp) (by simp) (by simp)

theorem isKnown_object {row : Nat} {name : String} (h : pool.type? row = some (.normal name)) (dims : Int) :
    ({ dims := dims, kind := .object row } : FrameType).IsKnown pool allowed := by
  refine ⟨rfl, rfl, fun row' hrow => ?_, by simp, by simp⟩
  cases hrow
  exact ⟨name, h⟩

theorem IsKnown.element (h : t.IsKnown pool allowed) : t.element.IsKnown pool allowed where
  absolute := h.absolute
  plain := h.plain
  object := h.object
  uninitialized row hkind := by
    obtain ⟨hdims, hrow⟩ := h.uninitialized row hkind
    exact ⟨by simp only [FrameType.element]; omega, hrow⟩
  this hkind := by
    have hdims := h.this hkind
    simp only [FrameType.element]
    omega

theorem IsSettled.element (h : t.IsSettled pool offsets) : t.element.IsSettled pool offsets := by
  refine h.imp ?_ IsKnown.element
  rintro ⟨hrel, hdims⟩
  exact ⟨hrel, by simp only [FrameType.element]; omega⟩

/-- What a constructor has yet to run on, by name. -/
theorem IsKnown.eq_of_isUninitialized (h : t.IsKnown pool allowed) (hun : (t.named pool).isUninitialized = true) :
    t = ofKind .uninitializedThis ∨ ∃ row name offset, t = ofKind (.uninitialized row) ∧
      pool.type? row = some (.uninitialized name offset) ∧ allowed offset ∧
      t.named pool = { kind := .uninitialized name offset } := by
  obtain ⟨dims, kind, flag⟩ := t
  obtain rfl : flag = false := h.plain
  have hzero : kind ≠ .null → dims ≤ 0 → dims = 0 := by
    intro hnull hdims
    by_contra hne
    rw [named_of_kind _ _ hnull, if_pos (by dsimp only; omega)] at hun
    cases hun
  cases kind with
  | uninitializedThis =>
    obtain rfl := hzero (by simp) (h.this rfl)
    exact .inl rfl
  | uninitialized row =>
    obtain ⟨hdims, name, offset, hrow, hoff⟩ := h.uninitialized row rfl
    obtain rfl := hzero (by simp) hdims
    refine .inr ⟨row, name, offset, rfl, hrow, hoff, ?_⟩
    simp [named, Kind.named, hrow]
  | _ =>
    exfalso
    revert hun
    unfold named
    dsimp only
    split
    · simp [SlotType.isUninitialized]
    · split <;> simp [SlotType.isUninitialized, Kind.named]

/-- Known types have no elements that a constructor has yet to run on. -/
theorem IsKnown.element_named (h : t.IsKnown pool allowed) : ((t.named pool).element).isUninitialized = false := by
  rw [← named_element]
  cases hun : (t.element.named pool).isUninitialized with
  | false => rfl
  | true =>
    rcases h.element.eq_of_isUninitialized hun with heq | ⟨row, name, offset, heq, -⟩
    · have hdims := h.this (congrArg kind heq)
      have hone : t.dims - 1 = 0 := congrArg dims heq
      omega
    · obtain ⟨hdims, -⟩ := h.uninitialized row (congrArg kind heq)
      have hone : t.dims - 1 = 0 := congrArg dims heq
      omega

end FrameType

namespace FrameInput

/-- An input with a known type in every slot. None of them is an object that the `new` instructions at the offsets `fresh`
made. -/
structure IsConcrete (input : FrameInput) (pool : Pool) (fresh : List Nat) : Prop where
  locals : ∀ slot ∈ input.locals, ∃ t, slot = some t ∧ t.IsKnown pool (· ∉ fresh)
  stack : ∀ slot ∈ input.stack, ∃ t, slot = some t ∧ t.IsKnown pool (· ∉ fresh)

variable {input : FrameInput} {pool : Pool} {fresh offsets : List Nat}

theorem IsConcrete.source (h : input.IsConcrete pool fresh) {kind : Kind} {r : FrameType}
    (hsrc : input.source kind = some r) : r.IsKnown pool (· ∉ fresh) := by
  have hget : ∀ {slots : Array InputSlot} {i : Nat}, (∀ slot ∈ slots, ∃ t, slot = some t ∧ t.IsKnown pool (· ∉ fresh)) →
      slots.getD i none = some r → r.IsKnown pool (· ∉ fresh) := by
    intro slots i hsl hi
    rw [Array.getD_eq_getD_getElem?] at hi
    cases hslot : slots[i]? with
    | none => simp [hslot] at hi
    | some slot =>
      obtain ⟨t, rfl, ht⟩ := hsl slot (Array.mem_of_getElem? hslot)
      rw [hslot] at hi
      cases hi
      exact ht
  unfold FrameInput.source at hsrc
  split at hsrc
  · exact hget h.locals hsrc
  · split at hsrc
    · exact hget h.stack hsrc
    · cases hsrc
  · cases hsrc

/-- What a block says of a slot is known once it is resolved. -/
theorem IsConcrete.resolve (h : input.IsConcrete pool fresh) {t : FrameType} (ht : t.IsSettled pool offsets) :
    (input.resolve t).IsKnown pool (fun offset => offset ∈ offsets ∨ offset ∉ fresh) := by
  rcases ht with ⟨hrel, hdims⟩ | hkn
  · cases hsrc : input.source t.kind with
    | none =>
      rw [input.resolve_of_none hrel hsrc]
      exact FrameType.isKnown_top
    | some r =>
      have hr := h.source hsrc
      have hshifted : (shifted t r).IsKnown pool (fun offset => offset ∈ offsets ∨ offset ∉ fresh) := by
        refine ⟨hr.absolute, rfl, hr.object, fun row hrow => ?_, fun hthis => ?_⟩
        · obtain ⟨hle, name, offset, htype, hoff⟩ := hr.uninitialized row hrow
          exact ⟨by simp only [shifted]; omega, name, offset, htype, .inr hoff⟩
        · have hle := hr.this hthis
          simp only [shifted]
          omega
      rw [input.resolve_of_some hrel hsrc]
      split
      · exact FrameType.isKnown_top
      · exact hshifted
  · rw [input.resolve_of_absolute hkn.absolute]
    exact hkn.mono fun _ hoff => .inl hoff

end FrameInput

end JvmAssembler
