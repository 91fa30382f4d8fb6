import JvmAssembler.Proofs.Frame.Meaning
import JvmAssembler.Proofs.Frame.StackUse

/-!
# JvmAssembler.Proofs.Frame.Following

A machine follows a block.

The summary of a block and a machine that starts with some input are related by `Stands`: what the summary says of a slot
means, on that input, the type that the machine has in it. Each way to change a summary has its counterpart on the machine
(`Follows`), and so has each instruction (`follows_execute`).
-/

namespace JvmAssembler

/-! ### Slots of a summary -/

namespace Frame

/-- What a block says of a local. -/
def localType (f : Frame) (i : Nat) : FrameType := (f.locals.getD i none).getD (.ofKind (.fromLocal i))

/-- What a block says of the stack, its top first, if its input has `height` slots. -/
def stackTypes (f : Frame) (height : Nat) : List FrameType :=
  f.stack.toList.reverse ++ (List.range' (f.popped + 1) (height - f.popped)).map fun depth => .ofKind (.fromStack depth)

/-- A type that a block speaks of. -/
def Mentions (f : Frame) (t : FrameType) : Prop := t ∈ f.stack ∨ some t ∈ f.locals ∨ t ∈ f.initialized

variable (f : Frame) (t : FrameType) (i n height : Nat)

theorem stackTypes_push : (f.push t).stackTypes height = t :: f.stackTypes height := by
  simp [stackTypes, push]

theorem length_stackTypes : (f.stackTypes height).length = f.stack.size + (height - f.popped) := by
  simp [stackTypes]

theorem stackTypes_popN : (f.popN n).stackTypes height = (f.stackTypes height).drop n := by
  have hrng : ∀ k, (List.range' (f.popped + 1) (height - f.popped)).drop k =
      List.range' (f.popped + k + 1) (height - (f.popped + k)) := by
    intro k
    rw [List.drop_range']
    congr 1
    · omega
    · omega
  have hstk : (f.stack.shrink (f.stack.size - n)).toList.reverse = f.stack.toList.reverse.drop n := by
    rw [Array.toList_shrink, List.drop_reverse, Array.length_toList]
  unfold stackTypes popN
  dsimp only
  rw [List.drop_append, List.length_reverse, Array.length_toList, ← List.map_drop, hrng, hstk]

theorem stackTypes_pop (h : f.pop.2.popped ≤ height) : f.stackTypes height = f.pop.1 :: f.pop.2.stackTypes height := by
  unfold pop at h ⊢
  cases hback : f.stack.back? with
  | some t =>
    obtain ⟨stack, hstk⟩ := Array.back?_eq_some_iff.1 hback
    simp [stackTypes, hstk]
  | none =>
    rw [hback] at h
    have hemp : f.stack = #[] := by simpa using hback
    dsimp only at h ⊢
    unfold stackTypes
    rw [hemp]
    obtain ⟨k, hk⟩ : ∃ k, height - f.popped = k + 1 := ⟨height - f.popped - 1, by omega⟩
    have hk' : height - (f.popped + 1) = k := by omega
    rw [hk, hk', List.range'_succ]
    rfl

theorem localType_store (j : Nat) : (f.store i t).localType j = if j = i then t else f.localType j := by
  have hsize : i < (f.locals ++ Array.replicate (i + 1 - f.locals.size) none).size := by
    simp only [Array.size_append, Array.size_replicate]
    omega
  unfold localType store
  simp only [Array.getD_eq_getD_getElem?]
  by_cases hij : j = i
  · subst hij
    rw [if_pos rfl, Array.getElem?_setIfInBounds_self_of_lt hsize]
    rfl
  · rw [if_neg hij, Array.getElem?_setIfInBounds_ne (Ne.symm hij), Array.getElem?_append]
    split
    · rfl
    · rename_i hge
      have hnone : f.locals[j]? = none := by simpa using hge
      rw [hnone, Array.getElem?_replicate]
      split <;> rfl

theorem load_fst : (f.load i).1 = f.localType i := by
  unfold load localType
  rw [Array.getD_eq_getD_getElem?]
  cases h : f.locals[i]? with
  | none => rfl
  | some slot =>
    cases slot with
    | none => rfl
    | some t => rfl

theorem localType_load (j : Nat) : (f.load i).2.localType j = f.localType j := by
  unfold load
  split
  · rfl
  · rfl
  · rename_i hnone
    unfold localType
    simp only [Array.getD_eq_getD_getElem?, Array.getElem?_setIfInBounds]
    split
    · subst j
      simp only [hnone]
      split <;> rfl
    · rfl

/-! ### Types that are spoken of -/

theorem mentions_localType : f.localType i = .ofKind (.fromLocal i) ∨ f.Mentions (f.localType i) := by
  unfold localType
  rw [Array.getD_eq_getD_getElem?]
  cases h : f.locals[i]? with
  | none => exact .inl rfl
  | some slot =>
    cases slot with
    | none => exact .inl rfl
    | some t => exact .inr (.inr (.inl (Array.mem_of_getElem? h)))

theorem mentions_push {u : FrameType} (h : (f.push t).Mentions u) : u = t ∨ f.Mentions u := by
  rcases h with h | h | h
  · rcases Array.mem_push.1 h with h | rfl
    · exact .inr (.inl h)
    · exact .inl rfl
  · exact .inr (.inr (.inl h))
  · exact .inr (.inr (.inr h))

theorem mentions_popN {u : FrameType} (h : (f.popN n).Mentions u) : f.Mentions u := by
  rcases h with h | h | h
  · refine .inl ?_
    rw [← Array.mem_toList_iff] at h ⊢
    rw [popN, Array.toList_shrink] at h
    exact List.mem_of_mem_take h
  · exact .inr (.inl h)
  · exact .inr (.inr h)

theorem mentions_pop {u : FrameType} (h : f.pop.2.Mentions u) : f.Mentions u := by
  unfold pop at h
  split at h
  · rcases h with h | h | h
    · rw [← Array.mem_toList_iff, Array.toList_pop] at h
      exact .inl (Array.mem_toList_iff.1 (List.mem_of_mem_dropLast h))
    · exact .inr (.inl h)
    · exact .inr (.inr h)
  · exact h

theorem pop_fst : f.pop.1 = .ofKind (.fromStack (f.popped + 1)) ∨ f.Mentions f.pop.1 := by
  unfold pop
  split
  · exact .inr (.inl (Array.mem_of_back? ‹_›))
  · exact .inl rfl

theorem mentions_store {u : FrameType} (h : (f.store i t).Mentions u) : u = t ∨ f.Mentions u := by
  rcases h with h | h | h
  · exact .inr (.inl h)
  · rcases Array.mem_or_eq_of_mem_setIfInBounds h with h | h
    · rcases Array.mem_append.1 h with h | h
      · exact .inr (.inr (.inl h))
      · simp at h
    · cases h
      exact .inl rfl
  · exact .inr (.inr (.inr h))

theorem mentions_load {u : FrameType} (h : (f.load i).2.Mentions u) : u = .ofKind (.fromLocal i) ∨ f.Mentions u := by
  unfold load at h
  split at h
  · exact .inr h
  · exact .inr h
  · rcases h with h | h | h
    · exact .inr (.inl h)
    · rcases Array.mem_or_eq_of_mem_setIfInBounds h with h | h
      · exact .inr (.inr (.inl h))
      · cases h
        exact .inl rfl
    · exact .inr (.inr (.inr h))

end Frame

/-! ### A machine beside a block -/

/-- Where a block starts: its input, with the pool that it refers to, in a class. The `new` instructions of the block are at
the offsets `fresh`. -/
structure BlockEntry where
  pool : Pool
  input : FrameInput
  thisClass : String
  fresh : List Nat
  concrete : input.IsConcrete pool fresh

namespace BlockEntry

variable (B : BlockEntry)

/-- What a block says of a slot, once its constructors have run on some receivers. -/
def value (receivers : Array FrameType) (t : FrameType) : SlotType :=
  (B.input.meaning B.pool t).constructed B.thisClass (receivers.toList.map (B.input.meaning B.pool))

variable {B} {receivers : Array FrameType} {t : FrameType} {offsets : List Nat}

theorem isWide_value : (B.value receivers t).isWide = (B.input.meaning B.pool t).isWide := SlotType.isWide_constructed _

/-- What is not relative and needs no constructor keeps its name. -/
theorem value_of_known {allowed : Nat → Prop} (h : t.IsKnown B.pool allowed) (hun : ∀ row, t.kind ≠ .uninitialized row)
    (hthis : t.kind ≠ .uninitializedThis) : B.value receivers t = t.named B.pool := by
  rw [value, B.input.meaning_of_absolute h.absolute]
  refine SlotType.constructed_of_not ?_
  cases hcase : (t.named B.pool).isUninitialized with
  | false => rfl
  | true =>
    rcases h.eq_of_isUninitialized hcase with heq | ⟨row, -, -, heq, -⟩
    · exact absurd (congrArg FrameType.kind heq) hthis
    · exact absurd (congrArg FrameType.kind heq) (hun row)

theorem value_top : B.value receivers .top = .top :=
  value_of_known (FrameType.isKnown_top : FrameType.top.IsKnown B.pool fun _ => True) (by simp) (by simp)

theorem value_element (ht : t.IsSettled B.pool offsets) (hwide : (B.value receivers t).element.isWide = false) :
    B.value receivers t.element = (B.value receivers t).element := by
  have hun := (B.concrete.resolve ht).element_named
  have hcommute := @SlotType.element_constructed B.thisClass (receivers.toList.map (B.input.meaning B.pool)) _ hun
  have hmeaning : ((B.input.meaning B.pool t).element).isWide = false := by
    rw [value, FrameInput.meaning, hcommute, SlotType.isWide_constructed] at hwide
    exact hwide
  rw [value, B.input.meaning_element hmeaning, value]
  exact hcommute.symm

theorem value_broken (h : t.isRelative = true) :
    B.value receivers { t with topIfWide := true } =
      if (B.value receivers t).isWide then .top else B.value receivers t := by
  rw [isWide_value, value, B.input.meaning_broken h]
  split
  · exact SlotType.constructed_of_not rfl
  · rfl

theorem value_push (recv : FrameType) :
    B.value (receivers.push recv) t =
      (B.value receivers t).constructed B.thisClass [B.value receivers recv] := by
  rw [value, Array.toList_push, List.map_append, List.map_singleton, SlotType.constructed_concat]
  rfl

/-- What a `new` instruction makes is nothing that a constructor has run on before. -/
theorem value_new {row offset : Nat} {name : String} (hrow : B.pool.type? row = some (.uninitialized name offset))
    (hfresh : offset ∈ B.fresh) (hnew : offset ∉ offsets) (hrecvs : ∀ r ∈ receivers, r.IsSettled B.pool offsets) :
    B.value receivers (.ofKind (.uninitialized row)) = { kind := .uninitialized name offset } := by
  have hname : (FrameType.ofKind (.uninitialized row)).named B.pool = { kind := .uninitialized name offset } := by
    simp [FrameType.named, Kind.named, hrow]
  rw [value, B.input.meaning_of_absolute rfl, hname]
  refine SlotType.constructed_of_not_mem fun hmem => ?_
  obtain ⟨r, hr, heq⟩ := List.mem_map.1 hmem
  have hkn := B.concrete.resolve (hrecvs r (Array.mem_toList_iff.1 hr))
  have hun : ((B.input.resolve r).named B.pool).isUninitialized = true := by
    rw [show (B.input.resolve r).named B.pool = _ from heq]
    rfl
  rw [FrameInput.meaning] at heq
  rcases hkn.eq_of_isUninitialized hun with hthis | ⟨row', name', offset', -, -, hallowed, hnamed⟩
  · rw [hthis] at heq
    cases heq
  · rw [hnamed] at heq
    cases heq
    rcases hallowed with hmem | hnot
    · exact hnew hmem
    · exact hnot hfresh

end BlockEntry

/-- A machine is where a block has got to, behind the `new` instructions at some offsets. -/
structure Stands (B : BlockEntry) (offsets : List Nat) (f : Frame) (m : Machine) : Prop where
  popped : f.popped ≤ B.input.stack.size
  locals : m.locals = (List.range B.input.locals.size).map fun i => B.value f.initialized (f.localType i)
  stack : m.stack = (f.stackTypes B.input.stack.size).map (B.value f.initialized)
  settled : ∀ t, f.Mentions t → t.IsSettled B.pool offsets

/-- What a machine comes to when a block has come to a summary: the machine stands there, unless the stack does not suffice. -/
def Follows (B : BlockEntry) (offsets : List Nat) (f : Frame) (r : Option Machine) : Prop :=
  (f.popped ≤ B.input.stack.size → ∃ m, r = some m ∧ Stands B offsets f m) ∧ (B.input.stack.size < f.popped → r = none)

/-- The same, where a slot has been popped. -/
def FollowsPop (B : BlockEntry) (offsets : List Nat) (f : FrameType × Frame) (r : Option (SlotType × Machine)) : Prop :=
  (f.2.popped ≤ B.input.stack.size → ∃ m, r = some (B.value f.2.initialized f.1, m) ∧ Stands B offsets f.2 m ∧
    f.1.IsSettled B.pool offsets) ∧ (B.input.stack.size < f.2.popped → r = none)

section
variable {B : BlockEntry} {offsets : List Nat} {f f' : Frame} {m : Machine} {t : FrameType}

theorem Stands.follows (h : Stands B offsets f m) : Follows B offsets f (some m) :=
  ⟨fun _ => ⟨m, rfl, h⟩, fun hlt => absurd h.popped (Nat.not_le.2 hlt)⟩

theorem Follows.isSome_iff {r : Option Machine} (h : Follows B offsets f r) : r.isSome ↔ f.popped ≤ B.input.stack.size := by
  rcases Nat.lt_or_ge B.input.stack.size f.popped with hlt | hge
  · simp [h.2 hlt, hlt]
  · obtain ⟨m, hm, -⟩ := h.1 hge
    simp [hm, hge]

/-- One step after another. What has been popped is not put back. -/
theorem Follows.bind {offsets' : List Nat} {r : Option Machine} {next : Machine → Option Machine} (h : Follows B offsets f r)
    (hle : f.popped ≤ f'.popped) (hnext : ∀ m, r = some m → Stands B offsets f m → Follows B offsets' f' (next m)) :
    Follows B offsets' f' (r >>= next) := by
  rcases Nat.lt_or_ge B.input.stack.size f.popped with hlt | hge
  · rw [h.2 hlt]
    exact ⟨fun hle' => absurd hle' (by omega), fun _ => rfl⟩
  · obtain ⟨m, rfl, hm⟩ := h.1 hge
    exact hnext m rfl hm

theorem FollowsPop.bind {p : FrameType × Frame} {r : Option (SlotType × Machine)} {next : SlotType × Machine → Option Machine}
    (h : FollowsPop B offsets p r) (hle : p.2.popped ≤ f'.popped)
    (hnext : ∀ m, r = some (B.value p.2.initialized p.1, m) → Stands B offsets p.2 m → p.1.IsSettled B.pool offsets →
      Follows B offsets f' (next (B.value p.2.initialized p.1, m))) : Follows B offsets f' (r >>= next) := by
  rcases Nat.lt_or_ge B.input.stack.size p.2.popped with hlt | hge
  · rw [h.2 hlt]
    exact ⟨fun hle' => absurd hle' (by omega), fun _ => rfl⟩
  · obtain ⟨m, rfl, hm, ht⟩ := h.1 hge
    exact hnext m rfl hm ht

namespace Stands

theorem length_stack (h : Stands B offsets f m) : m.stack.length = f.stack.size + (B.input.stack.size - f.popped) := by
  rw [h.stack, List.length_map, Frame.length_stackTypes]

theorem length_locals (h : Stands B offsets f m) : m.locals.length = B.input.locals.size := by
  rw [h.locals, List.length_map, List.length_range]

theorem push (h : Stands B offsets f m) (ht : t.IsSettled B.pool offsets) :
    Stands B offsets (f.push t) (m.push (B.value f.initialized t)) where
  popped := h.popped
  locals := h.locals
  stack := by
    rw [Frame.stackTypes_push, List.map_cons, Machine.push, h.stack]
    rfl
  settled u hu := by
    rcases f.mentions_push t hu with rfl | hu
    · exact ht
    · exact h.settled u hu

theorem pushValue (h : Stands B offsets f m) (ht : t.IsSettled B.pool offsets) (habsolute : t.isRelative = false) :
    Stands B offsets (f.pushValue t) (m.pushValue (B.value f.initialized t)) := by
  have hwide : (B.value f.initialized t).isWide = t.isWide := by
    rw [BlockEntry.isWide_value, B.input.meaning_of_absolute habsolute, FrameType.isWide_named]
  unfold Frame.pushValue Machine.pushValue
  rw [hwide]
  split
  · have htop := (h.push ht).push (t := .top) (.inr FrameType.isKnown_top)
    rwa [BlockEntry.value_top] at htop
  · exact h.push ht

theorem popN (h : Stands B offsets f m) (n : Nat) : Follows B offsets (f.popN n) (m.popN n) := by
  have hlen := h.length_stack
  have hle := h.popped
  have hpopped : (f.popN n).popped = f.popped + (n - f.stack.size) := rfl
  unfold Machine.popN
  constructor
  · intro henough
    refine ⟨{ m with stack := m.stack.drop n }, if_pos (by omega), henough, h.locals, ?_, ?_⟩
    · rw [Frame.stackTypes_popN, List.map_drop, h.stack]
      rfl
    · exact fun t ht => h.settled t (f.mentions_popN n ht)
  · intro hlack
    exact if_neg (by omega)

theorem pop (h : Stands B offsets f m) : FollowsPop B offsets f.pop m.pop := by
  have hle := h.popped
  have hinit : f.pop.2.initialized = f.initialized := by
    unfold Frame.pop
    split <;> rfl
  have hloc : ∀ i, f.pop.2.localType i = f.localType i := by
    intro i
    unfold Frame.pop
    split <;> rfl
  constructor
  · intro henough
    have hstk := h.stack
    rw [f.stackTypes_pop _ henough, List.map_cons] at hstk
    refine ⟨{ m with stack := (f.pop.2.stackTypes B.input.stack.size).map (B.value f.initialized) }, ?_, ?_, ?_⟩
    · rw [Machine.pop, hstk, hinit]
    · refine ⟨henough, ?_, by rw [hinit], fun t ht => h.settled t (f.mentions_pop ht)⟩
      rw [hinit]
      simp only [hloc]
      exact h.locals
    · rcases f.pop_fst with hrel | hmentions
      · rw [hrel]
        exact FrameType.isSettled_fromStack _
      · exact h.settled _ hmentions
  · intro hlack
    have hemp : m.stack = [] := by
      have huses := f.uses_pop.popped
      rw [h.stack, List.map_eq_nil_iff, ← List.length_eq_zero_iff, Frame.length_stackTypes]
      omega
    rw [Machine.pop, hemp]

theorem load (h : Stands B offsets f m) {i : Nat} (hi : i < B.input.locals.size) :
    m.locals[i]? = some (B.value f.initialized (f.load i).1) ∧ Stands B offsets (f.load i).2 m ∧
      (f.load i).1.IsSettled B.pool offsets ∧ (f.load i).2.initialized = f.initialized := by
  have hinit : (f.load i).2.initialized = f.initialized := by
    unfold Frame.load
    split <;> rfl
  have huses := f.uses_load i
  refine ⟨?_, ?_, ?_, hinit⟩
  · rw [h.locals, List.getElem?_map, List.getElem?_range hi, f.load_fst]
    rfl
  · have hstk : (f.load i).2.stack = f.stack ∧ (f.load i).2.popped = f.popped := by
      unfold Frame.load
      split <;> exact ⟨rfl, rfl⟩
    refine ⟨by rw [hstk.2]; exact h.popped, ?_, ?_, fun t ht => ?_⟩
    · simp only [hinit, Frame.localType_load]
      exact h.locals
    · rw [h.stack, Frame.stackTypes, Frame.stackTypes, hstk.1, hstk.2, hinit]
    · rcases f.mentions_load i ht with rfl | ht
      · exact FrameType.isSettled_fromLocal i
      · exact h.settled t ht
  · rw [f.load_fst]
    rcases f.mentions_localType i with hrel | hmentions
    · rw [hrel]
      exact FrameType.isSettled_fromLocal i
    · exact h.settled _ hmentions

theorem store (h : Stands B offsets f m) {i : Nat} (hi : i < B.input.locals.size) (ht : t.IsSettled B.pool offsets) :
    Stands B offsets (f.store i t) { m with locals := m.locals.set i (B.value f.initialized t) } where
  popped := h.popped
  locals := by
    refine List.ext_getElem? fun j => ?_
    simp only [h.locals, List.getElem?_set, List.length_map, List.length_range, List.getElem?_map, Frame.localType_store]
    rcases Nat.lt_or_ge j B.input.locals.size with hj | hj
    · rw [List.getElem?_range hj]
      by_cases hij : i = j
      · subst hij
        simp [hi, Frame.store]
      · simp [hij, Ne.symm hij, Frame.store]
    · have hij : i ≠ j := by omega
      simp [hij, hj]
  stack := h.stack
  settled u hu := by
    rcases f.mentions_store t i hu with rfl | hu
    · exact ht
    · exact h.settled u hu

theorem breakBefore (h : Stands B offsets f m) {i : Nat} (hi : i ≤ B.input.locals.size) :
    Stands B offsets (f.breakBefore i) (m.breakBefore i) := by
  cases i with
  | zero => exact h
  | succ j =>
    obtain ⟨hget, hload, hset, hinit⟩ := h.load hi
    unfold Frame.breakBefore Machine.breakBefore
    dsimp only
    rw [hget, Option.any_some]
    cases hrel : (f.load j).1.isRelative with
    | false =>
      have hwide : (B.value f.initialized (f.load j).1).isWide = (f.load j).1.isWide := by
        rw [BlockEntry.isWide_value, B.input.meaning_of_absolute hrel, FrameType.isWide_named]
      rw [hwide]
      split
      · have hsto := hload.store (t := .top) hi (.inr FrameType.isKnown_top)
        rwa [BlockEntry.value_top] at hsto
      · exact hload
    | true =>
      have hbroken : ({ (f.load j).1 with topIfWide := true } : FrameType).IsSettled B.pool offsets := by
        rcases hset with ⟨-, hdims⟩ | hkn
        · exact .inl ⟨hrel, hdims⟩
        · rw [hkn.absolute] at hrel
          cases hrel
      have hsto := hload.store hi hbroken
      rw [BlockEntry.value_broken hrel, hinit] at hsto
      rw [FrameType.isWide_of_isRelative hrel, if_neg (by simp), if_pos rfl]
      split
      next hwide =>
        rw [if_pos hwide] at hsto
        exact hsto
      next hwide =>
        rw [if_neg hwide] at hsto
        obtain ⟨hlt, hval⟩ := List.getElem?_eq_some_iff.1 hget
        rw [← hval, List.set_getElem_self] at hsto
        exact hsto

/-- A constructor is called. -/
theorem construct (h : Stands B offsets f m) (ht : t.IsSettled B.pool offsets) :
    Stands B offsets { f with initialized := f.initialized.push t } (m.construct B.thisClass (B.value f.initialized t)) where
  popped := h.popped
  locals := by
    simp only [Machine.construct, h.locals, List.map_map]
    refine List.map_congr_left fun i _ => ?_
    rw [BlockEntry.value_push]
    rfl
  stack := by
    simp only [Machine.construct, h.stack, List.map_map]
    refine List.map_congr_left fun u _ => ?_
    rw [BlockEntry.value_push]
    rfl
  settled u hu := by
    rcases hu with hu | hu | hu
    · exact h.settled u (.inl hu)
    · exact h.settled u (.inr (.inl hu))
    · rcases Array.mem_push.1 hu with hu | rfl
      · exact h.settled u (.inr (.inr hu))
      · exact ht

/-- Several slots are popped. -/
theorem popList (h : Stands B offsets f m) (n : Nat) :
    ((Frame.popList n f).2.popped ≤ B.input.stack.size → ∃ m',
      m.popList n = some ((Frame.popList n f).1.map (B.value f.initialized), m') ∧ Stands B offsets (Frame.popList n f).2 m' ∧
      (Frame.popList n f).2.initialized = f.initialized ∧ ∀ t ∈ (Frame.popList n f).1, t.IsSettled B.pool offsets) ∧
    (B.input.stack.size < (Frame.popList n f).2.popped → m.popList n = none) := by
  have hlen := h.length_stack
  have hle := h.popped
  have hpopped := (f.uses_popList n).popped
  refine ⟨fun henough => ?_, fun hlack => if_neg (by omega)⟩
  clear hlen hle hpopped
  induction n generalizing f m with
  | zero =>
    refine ⟨m, ?_, h, rfl, by simp [Frame.popList]⟩
    simp [Machine.popList, Frame.popList]
  | succ n ih =>
    have hmono := (Frame.uses_popList f.pop.2 n).popped
    obtain ⟨m₁, hpop, hstd, hset⟩ := h.pop.1 (by
      have hrest : (Frame.popList n f.pop.2).2.popped ≤ B.input.stack.size := henough
      omega)
    obtain ⟨m₂, hlist, hstd₂, hinit, hall⟩ := ih hstd henough
    have hsame : f.pop.2.initialized = f.initialized := by
      unfold Frame.pop
      split <;> rfl
    rw [hsame] at hpop hlist hinit
    refine ⟨m₂, ?_, hstd₂, hinit, ?_⟩
    · -- the stack of the machine has the popped slot on top of the others
      obtain ⟨rest, hstk, rfl⟩ : ∃ rest, m.stack = B.value f.initialized f.pop.1 :: rest ∧ m₁ = { m with stack := rest } := by
        unfold Machine.pop at hpop
        split at hpop
        · cases hpop
        next t rest hcons =>
          cases hpop
          exact ⟨rest, hcons, rfl⟩
      unfold Machine.popList at hlist ⊢
      dsimp only at hlist
      rw [Option.ite_none_right_eq_some] at hlist
      simp only [Option.some.injEq, Prod.mk.injEq] at hlist
      obtain ⟨hcnt, htake, rfl⟩ := hlist
      rw [hstk, if_pos (by simpa using hcnt), List.take_succ_cons, htake]
      rfl
    · intro t ht
      rcases List.mem_cons.1 ht with rfl | ht
      · exact hset
      · exact hall t ht

end Stands

end

end JvmAssembler
