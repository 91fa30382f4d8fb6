import JvmAssembler.Proofs.Bookkeeping
import JvmAssembler.Proofs.Frame.Following

/-!
# JvmAssembler.Proofs.Frame.Execution

A machine follows a block instruction by instruction.

`follows_execute` is the step: whatever an instruction makes of a summary, the machine makes of its slots, or its stack does
not suffice. `follows_executeAll` is the run of a whole block.
-/

namespace JvmAssembler

open Success

/-! ### Types from the pool -/

/-- Kinds that mean the same everywhere: primitives, `null` and what cannot be used. -/
def Kind.isPlain : Kind → Bool
  | object _ | uninitialized _ | uninitializedThis | fromLocal _ | fromStack _ => false
  | _ => true

/-- A type stands for a type by name that no constructor has to run on. -/
structure FrameType.Denotes (pool : Pool) (t : FrameType) (u : SlotType) : Prop where
  known : t.IsKnown pool fun _ => False
  this : t.kind ≠ .uninitializedThis
  dims : t.dims = u.dims
  kind : t.kind.named pool = u.kind
  null : u.kind = .null → u.dims = 0

namespace FrameType

section
variable {B : BlockEntry} {t : FrameType} {u : SlotType}

theorem Denotes.named {pool : Pool} (h : t.Denotes pool u) : t.named pool = u := by
  obtain ⟨dims, kind⟩ := u
  by_cases hnull : t.kind = .null
  · obtain rfl : kind = .null := h.kind.symm.trans (by rw [hnull]; rfl)
    obtain rfl : dims = 0 := h.null rfl
    rw [FrameType.named, if_pos hnull]
  · have hdims : t.dims = dims := h.dims
    rw [named_of_kind _ _ hnull, if_neg (by omega), h.kind, hdims]
    rfl

theorem Denotes.value (h : t.Denotes B.pool u) (receivers : Array FrameType) : B.value receivers t = u := by
  rw [BlockEntry.value_of_known h.known (fun row hrow => ?_) h.this, h.named]
  obtain ⟨-, -, -, -, hfalse⟩ := h.known.uninitialized row hrow
  exact hfalse

theorem Denotes.settled (h : t.Denotes B.pool u) (offsets : List Nat) : t.IsSettled B.pool offsets :=
  .inr (h.known.mono fun _ hfalse => hfalse.elim)

theorem Denotes.arrayOf {pool : Pool} (h : t.Denotes pool u) (hnull : u.kind ≠ .null) :
    t.arrayOf.Denotes pool { u with dims := u.dims + 1 } where
  known :=
    { absolute := h.known.absolute
      plain := h.known.plain
      object := h.known.object
      uninitialized := by
        intro row hrow
        obtain ⟨-, -, -, -, hfalse⟩ := h.known.uninitialized row hrow
        exact hfalse.elim
      this := fun hthis => absurd hthis h.this }
  this := h.this
  dims := congrArg (· + 1) h.dims
  kind := h.kind
  null hkind := absurd hkind hnull

end

variable {pool : Pool}

theorem denotes_plain {kind : Kind} {dims : Nat} (h : kind.isPlain = true) (hnull : kind = .null → dims = 0) :
    ({ dims := dims, kind := kind } : FrameType).Denotes pool { dims := dims, kind := kind.named pool } := by
  have hnot : ∀ {kind' : Kind}, kind'.isPlain = false → kind ≠ kind' := by
    rintro kind' hkind' rfl
    rw [h] at hkind'
    cases hkind'
  refine ⟨isKnown_of_kind ?_ rfl (fun _ => hnot rfl) (fun _ => hnot rfl) (hnot rfl), hnot rfl, rfl, rfl, fun hkind => ?_⟩
  · cases kind with
    | fromLocal | fromStack => cases h
    | _ => rfl
  · exact hnull ((kind_named_eq_null pool kind).1 hkind)

theorem denotes_ofValue (v : Value) : (ofValue v).Denotes pool (.ofValue v) := by
  cases v <;> exact @denotes_plain pool _ 0 rfl fun _ => rfl

theorem denotes_element (b : BaseType) (dims : Nat) :
    ({ dims := dims, kind := elementKind b } : FrameType).Denotes pool { dims := dims, kind := SlotType.elementKind b } := by
  cases b <;> exact denotes_plain rfl (by simp [elementKind])

theorem denotes_slot (b : BaseType) : (ofKind (slotKind b)).Denotes pool { kind := SlotType.slotKind b } := by
  cases b <;> exact @denotes_plain pool _ 0 rfl fun _ => rfl

theorem denotes_object {row : Nat} {name : String} (h : pool.type? row = some (.normal name)) (dims : Nat) :
    ({ dims := dims, kind := .object row } : FrameType).Denotes pool { dims := dims, kind := .object name } := by
  refine ⟨isKnown_object h dims, by simp, rfl, ?_, by simp⟩
  simp [Kind.named, Pool.typeName, h, TypeRow.name]

end FrameType

/-- An action of the pool gives a type that stands for a type by name. -/
def Pool.Gives (type : PoolM FrameType) (u : SlotType) : Prop :=
  ∀ pool t pool', pool.Orderly → type pool = .ok t pool' → ∀ later, Extends 5 pool' later → t.Denotes later u

namespace Pool

theorem gives_addType (name : String) (dims : Nat) :
    Gives (do return { dims := dims, kind := .object (← addType name) }) { dims := dims, kind := .object name } := by
  intro pool t pool' hord h later hlater
  obtain ⟨row, pool₁, hrow, hpure⟩ := run_bind_ok.1 h
  obtain ⟨rfl, rfl⟩ := run_pure_ok.1 hpure
  obtain ⟨-, -, htype⟩ := addRow_spec hord (.normal name)
  cases hrow
  exact FrameType.denotes_object (hlater.type? htype) dims

theorem gives_pure {t : FrameType} {u : SlotType} (h : ∀ later, t.Denotes later u) : Gives (pure t) u := by
  intro pool t' pool' _ hrun later _
  obtain ⟨rfl, rfl⟩ := run_pure_ok.1 hrun
  exact h later

theorem gives_ofFieldType (type : FieldType) : Gives (FrameType.ofFieldType type) (.ofFieldType type) := by
  cases type with
  | base b => exact gives_pure fun later => FrameType.denotes_slot b
  | ref r =>
    cases r with
    | object c => exact gives_addType c.name 0
    | primitiveArray dims b => exact gives_pure fun later => FrameType.denotes_element b dims
    | objectArray dims c => exact gives_addType c.name dims

theorem gives_ofLoadable (constant : Loadable) : Gives (FrameType.ofLoadable constant) (.ofLoadable constant) := by
  have hval : ∀ v : Value, Gives (pure (FrameType.ofValue v)) (.ofValue v) :=
    fun v => gives_pure fun later => FrameType.denotes_ofValue v
  cases constant with
  | int _ => exact hval .int
  | float _ => exact hval .float
  | long _ => exact hval .long
  | double _ => exact hval .double
  | string _ | cls _ | methodType _ | methodHandle _ => exact gives_addType _ 0

/-- A name of a class, or a descriptor of an array type, is that of a type. -/
theorem gives_ofClassName {name : String} {pool pool' : Pool} {t : FrameType}
    (h : FrameType.ofClassName name pool = .ok t pool') :
    ∃ u, SlotType.ofClassName? name = some u ∧ u.kind ≠ .null ∧ Gives (FrameType.ofClassName name) u := by
  unfold FrameType.ofClassName SlotType.ofClassName? at *
  by_cases harray : name.toList.head? = some '['
  · rw [if_pos harray] at h
    simp only [if_pos harray]
    cases htype : FieldType.ofDescriptor name with
    | error e =>
      rw [htype] at h
      cases h
    | ok type =>
      refine ⟨_, rfl, ?_, gives_ofFieldType type⟩
      cases type with
      | base b => cases b <;> simp [SlotType.ofFieldType, SlotType.slotKind]
      | ref r =>
        cases r with
        | primitiveArray dims b => cases b <;> simp [SlotType.ofFieldType, SlotType.elementKind]
        | object | objectArray => simp [SlotType.ofFieldType]
  · simp only [if_neg harray]
    exact ⟨_, rfl, by simp, gives_addType name 0⟩

end Pool

/-! ### Instructions -/

namespace BlockInstruction

def localsNeeded (i : BlockInstruction) : Nat :=
  match i.op.effect with
  | .loadReference | .increment => i.arg + 1
  | .store wide => i.arg + if wide then 2 else 1
  | _ => 0

/-- The offset of a `new` instruction. -/
def newOffsets (i : BlockInstruction) : List Nat := if i.op.effect = .newObject then [i.arg] else []

end BlockInstruction

namespace Machine

theorem assign_of_le {m : Machine} {i : Nat} {t : SlotType} {wide : Bool} (h : i + (if wide then 2 else 1) ≤ m.locals.length) :
    m.assign i t wide = some (breakBefore
      { m with locals := if wide then (m.locals.set i t).set (i + 1) .top else m.locals.set i t } i) := by
  cases wide with
  | false =>
    have hi : i < m.locals.length := h
    simp [assign, store, hi]
  | true =>
    have hi : i + 1 < m.locals.length := h
    simp [assign, store, hi, Nat.lt_of_succ_lt hi]

/-- What lies under the top of the stack. -/
theorem second_of_pops {m m₁ m₂ : Machine} {t : SlotType} (hfst : m.popN 1 = some m₁) (hsec : m₁.pop = some (t, m₂)) :
    m.stack[1]? = some t := by
  obtain ⟨locals, stack⟩ := m
  match stack with
  | [] => cases hfst
  | [_] =>
    cases hfst
    cases hsec
  | _ :: u :: stack =>
    cases hfst
    cases hsec
    rfl

/-- The height on entry is one of those that count. -/
theorem length_le_heights (m : Machine) (thisClass : String) (instructions : List BlockInstruction) :
    m.stack.length ≤ (m.heights thisClass instructions).foldr max 0 := by
  cases instructions with
  | nil => simp [heights]
  | cons i instructions => simp [heights]

end Machine

section
variable {B : BlockEntry} {offsets : List Nat} {f f' : Frame} {m : Machine} {t : FrameType}

theorem Stands.mono {offsets' : List Nat} (h : Stands B offsets f m) (hsub : ∀ n ∈ offsets, n ∈ offsets') :
    Stands B offsets' f m := { h with settled := fun t ht => (h.settled t ht).mono hsub }

theorem Stands.pushDenoted (h : Stands B offsets f m) {u : SlotType} (ht : t.Denotes B.pool u) :
    Stands B offsets (f.push t) (m.push u) := by
  have hpush := h.push (ht.settled offsets)
  rwa [ht.value] at hpush

theorem Stands.pushDenotedValue (h : Stands B offsets f m) {u : SlotType} (ht : t.Denotes B.pool u) :
    Stands B offsets (f.pushValue t) (m.pushValue u) := by
  have hpush := h.pushValue (ht.settled offsets) ht.known.absolute
  rwa [ht.value] at hpush

/-- Values are pushed one after the other. -/
theorem Stands.pushValues (h : Stands B offsets f m) (values : List Value) :
    Stands B offsets (values.foldl (fun f v => f.pushValue (.ofValue v)) f)
      (values.foldl (fun m v => m.pushValue (.ofValue v)) m) := by
  induction values generalizing f m with
  | nil => exact h
  | cons v values ih => exact ih (h.pushDenotedValue (FrameType.denotes_ofValue v))

/-- Slots that were popped are pushed back. -/
theorem Stands.pushBack (h : Stands B offsets f m) {ts : List FrameType} (hts : ∀ t ∈ ts, t.IsSettled B.pool offsets)
    (order : List Nat) :
    Stands B offsets (order.foldl (fun f i => f.push (ts.getD (i - 1) .top)) f)
      (order.foldl (fun m k => m.push ((ts.map (B.value f.initialized)).getD (k - 1) .top)) m) := by
  induction order generalizing f m with
  | nil => exact h
  | cons i order ih =>
    have hset : (ts.getD (i - 1) .top).IsSettled B.pool offsets := by
      rw [List.getD_eq_getElem?_getD]
      cases hget : ts[i - 1]? with
      | none => exact .inr FrameType.isKnown_top
      | some t => exact hts t (List.mem_of_getElem? hget)
    have hval : B.value f.initialized (ts.getD (i - 1) .top) = (ts.map (B.value f.initialized)).getD (i - 1) .top := by
      rw [List.getD_eq_getElem?_getD, List.getD_eq_getElem?_getD, List.getElem?_map]
      cases ts[i - 1]? with
      | none => exact BlockEntry.value_top
      | some t => rfl
    have hpush := h.push hset
    rw [hval] at hpush
    exact ih hpush

theorem follows_stack (h : Stands B offsets f m) (pops : Nat) (pushes : List Value) :
    Follows B offsets (pushes.foldl (fun f v => f.pushValue (.ofValue v)) (f.popN pops))
      (m.popN pops >>= fun m => some (pushes.foldl (fun m v => m.pushValue (.ofValue v)) m)) := by
  have hle := (Frame.uses_foldl (f.popN pops) (fun f v => f.uses_pushValue (.ofValue v)) pushes).popped_le
  exact (h.popN pops).bind hle fun m _ hm => (hm.pushValues pushes).follows

theorem follows_shuffle (h : Stands B offsets f m) (pops : Nat) (order : List Nat) :
    Follows B offsets (f.shuffle pops order) (m.popList pops >>= fun p =>
      some (order.foldl (fun m k => m.push (p.1.getD (k - 1) .top)) p.2)) := by
  have hle := (Frame.uses_foldl (Frame.popList pops f).2
    (fun g i => Frame.uses_push g ((Frame.popList pops f).1.getD (i - 1) .top)) order).popped_le
  obtain ⟨henough, hlack⟩ := h.popList pops
  rcases Nat.lt_or_ge B.input.stack.size (Frame.popList pops f).2.popped with hlt | hge
  · rw [hlack hlt]
    exact ⟨fun hle' => absurd (hle.trans hle') (by omega), fun _ => rfl⟩
  · obtain ⟨m', hpop, hstd, hinit, hset⟩ := henough hge
    have hback := hstd.pushBack hset order
    rw [hinit] at hback
    rw [hpop]
    exact hback.follows

/-- The element of an array. -/
theorem follows_element (h : Stands B offsets f m) (hwide : ∀ t, m.stack[1]? = some t → t.element.isWide = false) :
    Follows B offsets ((f.popN 1).pop.2.push (f.popN 1).pop.1.element) (m.popN 1 >>= fun m => m.pop >>= fun p =>
      some (p.2.push p.1.element)) := by
  have hle := (f.popN 1).uses_pop.popped_le
  refine (h.popN 1).bind hle fun m₁ hbelow hm₁ => hm₁.pop.bind (Nat.le_refl _) fun m₂ hpop hm₂ ht => ?_
  have hnar := hwide _ (Machine.second_of_pops hbelow hpop)
  have hpush := hm₂.push ht.element
  rw [BlockEntry.value_element ht hnar] at hpush
  exact hpush.follows

/-- A value is stored to a local. -/
theorem follows_assign (h : Stands B offsets f m) (ht : t.IsSettled B.pool offsets) {i : Nat} {wide : Bool}
    (hi : i + (if wide then 2 else 1) ≤ B.input.locals.size) :
    Follows B offsets ((if wide then (f.store i t).store (i + 1) .top else f.store i t).breakBefore i)
      (m.assign i (B.value f.initialized t) wide) := by
  have hlen := h.length_locals
  have hlocal : i < B.input.locals.size := by split at hi <;> omega
  have hfst := h.store hlocal ht
  rw [Machine.assign_of_le (hlen ▸ hi)]
  cases wide with
  | false => exact (hfst.breakBefore hlocal.le).follows
  | true =>
    have hsec := hfst.store (t := .top) hi (.inr FrameType.isKnown_top)
    rw [BlockEntry.value_top] at hsec
    exact (hsec.breakBefore hlocal.le).follows

end

namespace Interpreter

open Pool (Extends)

/-- Whatever steps of the interpreter make of a summary, some change of the machine follows. -/
def Tracks (B : BlockEntry) (offsets : List Nat) (x : FrameM Unit) (y : Machine → Option Machine) : Prop :=
  ∀ s s', s.pool.Orderly → Extends 5 s'.pool B.pool → x s = .ok () s' → s.frame.popped ≤ s'.frame.popped ∧
    ∀ m, Stands B offsets s.frame m → Follows B offsets s'.frame (y m)

variable {B : BlockEntry} {offsets : List Nat}

namespace Tracks

theorem throw (e : Error) (y : Machine → Option Machine) : Tracks B offsets (MonadExcept.throw e) y :=
  fun _ _ _ _ h => nomatch h

variable {y : Machine → Option Machine} {type : PoolM FrameType}

theorem update {g : Frame → Frame} (hle : ∀ f, f.popped ≤ (g f).popped)
    (h : ∀ f m, Stands B offsets f m → Follows B offsets (g f) (y m)) : Tracks B offsets (Interpreter.update g) y := by
  intro s s' _ _ hrun
  cases hrun
  exact ⟨hle s.frame, h s.frame⟩

/-- Slots are popped first. -/
theorem popN {x : FrameM Unit} (h : Tracks B offsets x y) (n : Nat) :
    Tracks B offsets (Interpreter.update (·.popN n) >>= fun _ => x) fun m => m.popN n >>= y := by
  intro s s' hord hext hrun
  have hrest : x { s with frame := s.frame.popN n } = .ok () s' := hrun
  obtain ⟨hle, hfol⟩ := h { s with frame := s.frame.popN n } s' hord hext hrest
  exact ⟨(s.frame.uses_popN n).popped_le.trans hle, fun m hm => (hm.popN n).bind hle fun m _ hm => hfol m hm⟩

/-- A slot is popped first, and looked at. -/
theorem pop {x : FrameType → FrameM Unit} {y : SlotType × Machine → Option Machine}
    (h : ∀ t s s', s.pool.Orderly → Extends 5 s'.pool B.pool → x t s = .ok () s' → s.frame.popped ≤ s'.frame.popped ∧
      ∀ m, Stands B offsets s.frame m → t.IsSettled B.pool offsets →
        Follows B offsets s'.frame (y (B.value s.frame.initialized t, m))) :
    Tracks B offsets (Interpreter.pop >>= x) fun m => m.pop >>= y := by
  intro s s' hord hext hrun
  have hrest : x s.frame.pop.1 { s with frame := s.frame.pop.2 } = .ok () s' := hrun
  obtain ⟨hle, hfol⟩ := h s.frame.pop.1 { s with frame := s.frame.pop.2 } s' hord hext hrest
  exact ⟨s.frame.uses_pop.popped_le.trans hle, fun m hm => hm.pop.bind hle fun m _ hm ht => hfol m hm ht⟩

theorem pushFrom {u : SlotType} (h : Pool.Gives type u) :
    Tracks B offsets (Interpreter.pushFrom type) fun m => some (m.pushValue u) := by
  intro s s' hord hext hrun
  obtain ⟨t, s₁, hfst, hrun⟩ := run_bind_ok.1 hrun
  obtain ⟨pool, htype, rfl⟩ := fromPool_ok hfst
  cases hrun
  have hdenotes := h _ _ _ hord htype _ hext
  exact ⟨(s.frame.uses_pushValue t).popped_le, fun m hm => (hm.pushDenotedValue hdenotes).follows⟩

theorem pushReference {u : SlotType} (h : Pool.Gives type u) :
    Tracks B offsets (Interpreter.pushReference type) fun m => some (m.push u) := by
  intro s s' hord hext hrun
  obtain ⟨t, s₁, hfst, hrun⟩ := run_bind_ok.1 hrun
  obtain ⟨pool, htype, rfl⟩ := fromPool_ok hfst
  cases hrun
  have hdenotes := h _ _ _ hord htype _ hext
  exact ⟨(s.frame.uses_push t).popped_le, fun m hm => (hm.pushDenoted hdenotes).follows⟩

theorem pushReturned (type : Option FieldType) :
    Tracks B offsets (Interpreter.pushReturned type) fun m => some (m.pushReturned type) := by
  cases type with
  | none =>
    intro s s' _ _ hrun
    cases hrun
    exact ⟨Nat.le_refl _, fun m hm => hm.follows⟩
  | some t => exact pushFrom (Pool.gives_ofFieldType t)

theorem accessField (onObject writes : Bool) (type : FieldType) :
    Tracks B offsets (Interpreter.accessField onObject writes type) fun m => m.accessField onObject writes type := by
  cases writes with
  | true => exact update (fun f => (f.uses_popN _).popped_le) fun f m h => h.popN _
  | false => exact (pushFrom (Pool.gives_ofFieldType type)).popN _

theorem call (op : Opcode) (receiver : Bool) (name : String) (d : MethodDescriptor) :
    Tracks B offsets (Interpreter.call op receiver name d) fun m => m.call B.thisClass op receiver name d := by
  cases receiver with
  | false => exact (pushReturned d.returnType).popN _
  | true =>
    have hreturned : Tracks B offsets (Interpreter.pushReturned d.returnType) fun m => some (m.pushReturned d.returnType) :=
      pushReturned d.returnType
    refine (pop fun t s s' hord hext hrun => ?_).popN _
    dsimp only at hrun ⊢
    split at hrun
    next hconstructor =>
      simp only [if_pos hconstructor]
      have hret := hreturned
        { s with frame := { s.frame with initialized := s.frame.initialized.push t } } s' hord hext hrun
      exact ⟨hret.1, fun m hm ht => hret.2 _ (hm.construct ht)⟩
    next hoth =>
      simp only [if_neg hoth]
      have hret := hreturned s s' hord hext hrun
      exact ⟨hret.1, fun m hm _ => hret.2 m hm⟩

/-- A reference to a class, or to an array type, is pushed. -/
theorem pushClass (name : String) : Tracks B offsets (Interpreter.pushReference (FrameType.ofClassName name)) fun m =>
    SlotType.ofClassName? name >>= fun t => some (m.push t) := by
  intro s s' hord hext hrun
  obtain ⟨t, s₁, hfst, -⟩ := run_bind_ok.1 hrun
  obtain ⟨pool, htype, -⟩ := fromPool_ok hfst
  obtain ⟨u, hname, -, hgives⟩ := Pool.gives_ofClassName htype
  rw [hname]
  exact pushReference hgives s s' hord hext hrun

/-- A reference to an array of these is pushed. -/
theorem pushArray (name : String) :
    Tracks B offsets (Interpreter.pushReference do return (← FrameType.ofClassName name).arrayOf) fun m =>
      SlotType.ofClassName? name >>= fun t => some (m.push { t with dims := t.dims + 1 }) := by
  intro s s' hord hext hrun
  obtain ⟨t, s₁, hfst, -⟩ := run_bind_ok.1 hrun
  obtain ⟨pool, htype, -⟩ := fromPool_ok hfst
  obtain ⟨element, pool₁, helem, -⟩ := run_bind_ok.1 htype
  obtain ⟨u, hname, hnull, hgives⟩ := Pool.gives_ofClassName helem
  have harray : Pool.Gives (do return (← FrameType.ofClassName name).arrayOf) { u with dims := u.dims + 1 } := by
    intro pool t pool' hord hrun later hlater
    obtain ⟨element, pool₁, helem, hpure⟩ := run_bind_ok.1 hrun
    obtain ⟨rfl, rfl⟩ := run_pure_ok.1 hpure
    exact (hgives _ _ _ hord helem later hlater).arrayOf hnull
  rw [hname]
  exact pushReference harray s s' hord hext hrun

end Tracks

/-- A `new` instruction makes something that no constructor has run on. -/
theorem follows_new {s s' : Interpreter} {m : Machine} {name : String} {offset : Nat} (hord : s.pool.Orderly)
    (hext : Extends 5 s'.pool B.pool)
    (hrun : (do
      let row ← fromPool (Pool.addUninitialized name offset)
      update (·.push (.ofKind (.uninitialized row)))) s = .ok () s')
    (hfresh : offset ∈ B.fresh) (hnew : offset ∉ offsets) (hstd : Stands B offsets s.frame m) :
    Stands B (offsets ++ [offset]) s'.frame (m.push { kind := .uninitialized name offset }) := by
  obtain ⟨row, s₁, hfst, hrun⟩ := run_bind_ok.1 hrun
  obtain ⟨pool, hrow, rfl⟩ := fromPool_ok hfst
  obtain ⟨-, -, htype⟩ := Pool.addRow_spec hord (.uninitialized name offset)
  cases hrow
  cases hrun
  have hlater := hext.type? htype
  have hset : (FrameType.ofKind (.uninitialized (s.pool.addRow (.uninitialized name offset)).1)).IsSettled B.pool
      (offsets ++ [offset]) := by
    refine .inr ⟨rfl, rfl, by simp, fun row hkind => ?_, by simp⟩
    cases hkind
    exact ⟨Int.le_refl 0, name, offset, hlater, by simp⟩
  have hpush := (hstd.mono fun n hn => List.mem_append_left [offset] hn).push hset
  rw [BlockEntry.value_new hlater hfresh hnew fun r hr => hstd.settled r (.inr (.inr hr))] at hpush
  exact hpush

/-- Instructions other than those that make objects or look into arrays. -/
theorem tracks_execute (i : BlockInstruction) (hloc : i.localsNeeded ≤ B.input.locals.size)
    (hnew : i.op.effect ≠ .newObject) (helem : i.op.effect ≠ .element) :
    Tracks B offsets (execute i.op i.arg i.operand) fun m => m.step B.thisClass i := by
  obtain ⟨op, arg, operand⟩ := i
  unfold BlockInstruction.localsNeeded at hloc
  unfold execute Machine.step
  dsimp only at *
  split
  · exact .throw _ _
  cases heff : op.effect with
  | stack pops pushes =>
    refine .update (fun f => ?_) fun f m h => follows_stack h pops pushes
    have hpushes := Frame.uses_foldl (f.popN pops) (fun f v => f.uses_pushValue (.ofValue v)) pushes
    exact ((f.uses_popN pops).after_pops hpushes).popped_le
  | shuffle pops order => exact .update (fun f => (f.uses_shuffle pops order).popped_le) fun f m h => follows_shuffle h pops order
  | loadReference =>
    rw [heff] at hloc
    refine .update (fun f => ((f.uses_load arg).then_pushes (Frame.uses_push _ _)).popped_le) fun f m h => ?_
    obtain ⟨hget, hload, hset, hinit⟩ := h.load hloc
    have hpush := hload.push hset
    rw [hinit] at hpush
    rw [hget]
    exact hpush.follows
  | store wide =>
    rw [heff] at hloc
    have hpop : Tracks B offsets (Interpreter.pop >>= fun t => Interpreter.update fun f =>
        ((if wide then (f.store arg t).store (arg + 1) .top else f.store arg t).breakBefore arg))
        fun m => m.pop >>= fun p => p.2.assign arg p.1 wide := by
      refine .pop fun t s s' _ _ hrun => ⟨(using_keep wide arg t s () s' hrun).popped_le, fun m hm ht => ?_⟩
      cases hrun
      exact follows_assign hm ht hloc
    cases wide with
    | false => exact hpop
    | true => exact hpop.popN 1
  | increment =>
    rw [heff] at hloc
    refine .update (fun f => (f.uses_store .int arg).popped_le) fun f m h => ?_
    have hsto := h.store hloc ((FrameType.denotes_ofValue .int).settled offsets)
    rw [(FrameType.denotes_ofValue .int).value] at hsto
    rw [Machine.store, if_pos (h.length_locals ▸ hloc)]
    exact hsto.follows
  | newArray =>
    dsimp only
    cases hcode : BaseType.ofArrayCode? (arg % 256) with
    | none => exact (Tracks.throw _ _).popN 1
    | some b =>
      refine Tracks.popN (.update (fun f => (f.uses_push _).popped_le) fun f m h => ?_) 1
      exact (h.pushDenoted (FrameType.denotes_element b 1)).follows
  | element => exact absurd heff helem
  | newObject => exact absurd heff hnew
  | subroutine delta => exact .throw _ _
  | unknown => exact .throw _ _
  | constant width =>
    cases operand with
    | constant value => exact .pushFrom (Pool.gives_ofLoadable value)
    | _ => exact .throw _ _
  | field onObject writes =>
    cases operand with
    | field descriptor =>
      dsimp only
      cases FieldType.ofDescriptor descriptor with
      | error e => exact .throw _ _
      | ok type => exact .accessField onObject writes type
    | _ => exact .throw _ _
  | invoke receiver =>
    cases operand with
    | method name descriptor =>
      dsimp only
      cases MethodDescriptor.ofDescriptor descriptor with
      | error e => exact .throw _ _
      | ok d => exact .call op receiver name d
    | _ => exact .throw _ _
  | invokeDynamic =>
    cases operand with
    | invokeDynamic descriptor =>
      dsimp only
      cases MethodDescriptor.ofDescriptor descriptor with
      | error e => exact .throw _ _
      | ok d => exact .call op false "" d
    | _ => exact .throw _ _
  | newReferenceArray =>
    cases operand with
    | cls name => exact (Tracks.pushArray name).popN 1
    | _ => exact .throw _ _
  | cast =>
    cases operand with
    | cls name => exact (Tracks.pushClass name).popN 1
    | _ => exact .throw _ _
  | newMultiArray =>
    cases operand with
    | cls name => exact (Tracks.pushClass name).popN arg
    | _ => exact .throw _ _

/-- **A machine follows an instruction.** -/
theorem follows_execute {i : BlockInstruction} {s s' : Interpreter} {m : Machine} (hord : s.pool.Orderly)
    (hext : Extends 5 s'.pool B.pool) (hrun : execute i.op i.arg i.operand s = .ok () s')
    (hloc : i.localsNeeded ≤ B.input.locals.size)
    (hnew : ∀ offset ∈ i.newOffsets, offset ∈ B.fresh ∧ offset ∉ offsets)
    (hnar : i.op.effect = .element → ∀ t, m.stack[1]? = some t → t.element.isWide = false)
    (hstd : Stands B offsets s.frame m) : Follows B (offsets ++ i.newOffsets) s'.frame (m.step B.thisClass i) := by
  rcases eq_or_ne i.op.effect .newObject with hobj | hobj
  · have hoffs : i.newOffsets = [i.arg] := if_pos hobj
    obtain ⟨hfresh, hunused⟩ := hnew i.arg (by simp [hoffs])
    rw [hoffs]
    unfold execute at hrun
    unfold Machine.step
    rw [hobj] at hrun ⊢
    split at hrun
    · cases hrun
    · cases hoperand : i.operand with
      | cls name =>
        rw [hoperand] at hrun
        exact (follows_new hord hext hrun hfresh hunused hstd).follows
      | _ =>
        rw [hoperand] at hrun
        cases hrun
  have hoffs : i.newOffsets = [] := if_neg hobj
  rw [hoffs, List.append_nil]
  rcases eq_or_ne i.op.effect .element with helem | helem
  · unfold execute at hrun
    unfold Machine.step
    rw [helem] at hrun ⊢
    split at hrun
    · cases hrun
    · cases hrun
      exact follows_element hstd (hnar helem)
  exact (tracks_execute i hloc hobj helem s s' hord hext hrun).2 m hstd

/-! ### Blocks -/

/-- Interpret several instructions. -/
def executeAll (instructions : List BlockInstruction) : FrameM Unit :=
  instructions.forM fun i => execute i.op i.arg i.operand

variable {instructions : List BlockInstruction} {s s' : Interpreter} {m : Machine}

theorem executeAll_cons {i : BlockInstruction} (h : executeAll (i :: instructions) s = .ok () s') :
    ∃ s₁, execute i.op i.arg i.operand s = .ok () s₁ ∧ executeAll instructions s₁ = .ok () s' := by
  obtain ⟨_, s₁, hfst, hrest⟩ := run_bind_ok.1 h
  exact ⟨s₁, hfst, hrest⟩

/-- The pool stays orderly, and nothing is lost from it. -/
theorem develops_execute {op : Opcode} {arg : Nat} {operand : Operand} (hord : s.pool.Orderly)
    (hrun : execute op arg operand s = .ok () s') : s'.pool.Orderly ∧ Extends 5 s.pool s'.pool :=
  ((cares_execute op arg operand).keeps _ (Pool.lasting_develops s.pool)).ok (.refl s.pool) hrun hord

theorem popped_le_executeAll (hrun : executeAll instructions s = .ok () s') : s.frame.popped ≤ s'.frame.popped := by
  induction instructions generalizing s with
  | nil =>
    cases hrun
    exact Nat.le_refl _
  | cons i instructions ih =>
    obtain ⟨s₁, hfst, hrest⟩ := executeAll_cons hrun
    exact (using_execute _ _ _ _ _ _ hfst).popped_le.trans (ih hrest)

theorem extends_executeAll (hord : s.pool.Orderly) (hrun : executeAll instructions s = .ok () s') :
    s'.pool.Orderly ∧ Extends 5 s.pool s'.pool := by
  induction instructions generalizing s with
  | nil =>
    cases hrun
    exact ⟨hord, .refl _ _⟩
  | cons i instructions ih =>
    obtain ⟨s₁, hfst, hrest⟩ := executeAll_cons hrun
    obtain ⟨hord₁, hext₁⟩ := develops_execute hord hfst
    obtain ⟨hord', hext'⟩ := ih hord₁ hrest
    exact ⟨hord', hext₁.trans hext'⟩

/-- What a block needs: locals, offsets of its own for its `new` instructions, and elements of one slot. -/
structure Admits (B : BlockEntry) (offsets : List Nat) (instructions : List BlockInstruction) (m : Machine) : Prop where
  locals : ∀ i ∈ instructions, i.localsNeeded ≤ B.input.locals.size
  fresh : ∀ offset ∈ instructions.flatMap BlockInstruction.newOffsets, offset ∈ B.fresh ∧ offset ∉ offsets
  nodup : (instructions.flatMap BlockInstruction.newOffsets).Nodup
  narrow : m.loadsNarrow B.thisClass instructions = true

namespace Admits

variable {i : BlockInstruction} {s₁ : Interpreter}

theorem first (h : Admits B offsets (i :: instructions) m) (hord : s.pool.Orderly) (hext : Extends 5 s₁.pool B.pool)
    (hrun : execute i.op i.arg i.operand s = .ok () s₁) (hstd : Stands B offsets s.frame m) :
    Follows B (offsets ++ i.newOffsets) s₁.frame (m.step B.thisClass i) := by
  have hfresh := h.fresh
  rw [List.flatMap_cons] at hfresh
  have hnar := h.narrow
  unfold Machine.loadsNarrow at hnar
  rw [Bool.and_eq_true] at hnar
  refine follows_execute hord hext hrun (h.locals i List.mem_cons_self)
    (fun offset ho => hfresh offset (List.mem_append_left _ ho)) (fun heff t ht => ?_) hstd
  have hfst := hnar.1
  rw [heff, ht] at hfst
  simpa using hfst

theorem rest (h : Admits B offsets (i :: instructions) m) {m₁ : Machine} (hstep : m.step B.thisClass i = some m₁) :
    Admits B (offsets ++ i.newOffsets) instructions m₁ := by
  have hfresh := h.fresh
  have hnd := h.nodup
  rw [List.flatMap_cons] at hfresh
  rw [List.flatMap_cons, List.nodup_append] at hnd
  refine ⟨fun i hi => h.locals i (List.mem_cons_of_mem _ hi), fun offset ho => ?_, hnd.2.1, ?_⟩
  · obtain ⟨hmem, hnot⟩ := hfresh offset (List.mem_append_right _ ho)
    refine ⟨hmem, fun hin => ?_⟩
    rcases List.mem_append.1 hin with hin | hin
    · exact hnot hin
    · exact hnd.2.2 offset hin offset ho rfl
  · have hnar := h.narrow
    unfold Machine.loadsNarrow at hnar
    rw [Bool.and_eq_true, hstep, Option.all_some] at hnar
    exact hnar.2

end Admits

/-- **A machine follows a block.** -/
theorem follows_executeAll (hord : s.pool.Orderly) (hext : Extends 5 s'.pool B.pool)
    (hrun : executeAll instructions s = .ok () s') (hadmits : Admits B offsets instructions m)
    (hstd : Stands B offsets s.frame m) :
    Follows B (offsets ++ instructions.flatMap BlockInstruction.newOffsets) s'.frame (m.run B.thisClass instructions) := by
  induction instructions generalizing offsets s m with
  | nil =>
    cases hrun
    rw [List.flatMap_nil, List.append_nil]
    exact hstd.follows
  | cons i instructions ih =>
    obtain ⟨s₁, hfst, hrest⟩ := executeAll_cons hrun
    obtain ⟨hord₁, -⟩ := develops_execute hord hfst
    have hext₁ := (extends_executeAll hord₁ hrest).2.trans hext
    rw [List.flatMap_cons, ← List.append_assoc]
    refine (hadmits.first hord hext₁ hfst hstd).bind (popped_le_executeAll hrest) fun m₁ hm₁ hstd₁ => ?_
    exact ih hord₁ hrest (hadmits.rest hm₁) hstd₁

/-- **How high the stack gets.** The largest height of the machine is that of the input and what the summary says on top. -/
theorem heights_executeAll (hord : s.pool.Orderly) (hext : Extends 5 s'.pool B.pool)
    (hrun : executeAll instructions s = .ok () s') (hadmits : Admits B offsets instructions m)
    (hstd : Stands B offsets s.frame m) (hpeak : s.frame.stack.size - s.frame.popped ≤ s.frame.peak)
    (henough : s'.frame.popped ≤ B.input.stack.size) :
    max (B.input.stack.size + s.frame.peak) ((m.heights B.thisClass instructions).foldr max 0) =
      B.input.stack.size + s'.frame.peak := by
  have hlen := hstd.length_stack
  have hpopped := hstd.popped
  induction instructions generalizing offsets s m with
  | nil =>
    cases hrun
    simp only [Machine.heights, List.foldr_cons, List.foldr_nil]
    omega
  | cons i instructions ih =>
    obtain ⟨s₁, hfst, hrest⟩ := executeAll_cons hrun
    obtain ⟨hord₁, -⟩ := develops_execute hord hfst
    have hext₁ := (extends_executeAll hord₁ hrest).2.trans hext
    obtain ⟨m₁, hm₁, hstd₁⟩ := (hadmits.first hord hext₁ hfst hstd).1
      ((popped_le_executeAll hrest).trans henough)
    obtain ⟨hpoppedStep, hsize, hpeakStep⟩ := using_execute _ _ _ _ _ _ hfst
    -- the height behind an instruction counts, also if nothing was pushed
    have hpeak₁ : s₁.frame.peak = max s.frame.peak (s₁.frame.stack.size - s₁.frame.popped) := by
      rw [hpeakStep]
      split <;> omega
    have hlen₁ := hstd₁.length_stack
    have hpopped₁ := hstd₁.popped
    have hrestPeak := ih hord₁ hrest (hadmits.rest hm₁) hstd₁ (by omega) hlen₁ hpopped₁
    have hhead := m₁.length_le_heights B.thisClass instructions
    simp only [Machine.heights, hm₁, Option.map_some, Option.getD_some, List.foldr_cons]
    omega

end Interpreter

end JvmAssembler
