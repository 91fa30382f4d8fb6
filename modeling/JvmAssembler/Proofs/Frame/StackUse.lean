import JvmAssembler.Proofs.Descriptor
import JvmAssembler.Proofs.Framing.View
import JvmAssembler.Proofs.Sizing.View
import JvmAssembler.Proofs.Typesetting.Writing

/-!
# JvmAssembler.Proofs.Frame.StackUse

How high the stack of a block gets while the block is interpreted.

`Frame.Uses` says that a block pops some slots and then pushes some. Every instruction does so, with the numbers that
`Instruction.use` gives (`uses_of_interpretation`).
-/

namespace JvmAssembler

open Success

namespace Frame

/-- The height of the stack, relative to that on entry of the block. -/
def height (f : Frame) : Int := f.stack.size - f.popped

/-- Some slots are popped, and then some are pushed. -/
structure Uses (pops pushes : Nat) (f f' : Frame) : Prop where
  popped : f'.popped = f.popped + (pops - f.stack.size)
  size : f'.stack.size = f.stack.size - pops + pushes
  peak : f'.peak = if pushes = 0 then f.peak else max f.peak (f'.stack.size - f'.popped)

theorem Uses.refl (f : Frame) : Uses 0 0 f f := ⟨by simp, by simp, rfl⟩

/-- Slots are popped before others are popped and pushed. -/
theorem Uses.after_pops {pops pops' pushes : Nat} {f g h : Frame} (hfg : Uses pops 0 f g) (hgh : Uses pops' pushes g h) :
    Uses (pops + pops') pushes f h := by
  obtain ⟨hpopped, hsize, hpeak⟩ := hfg
  obtain ⟨hpopped', hsize', hpeak'⟩ := hgh
  refine ⟨by omega, by omega, ?_⟩
  rw [if_pos rfl] at hpeak
  rw [hpeak', hpeak]

/-- More slots are pushed. -/
theorem Uses.then_pushes {pops pushes pushes' : Nat} {f g h : Frame} (hfg : Uses pops pushes f g) (hgh : Uses 0 pushes' g h) :
    Uses pops (pushes + pushes') f h := by
  obtain ⟨hpopped, hsize, hpeak⟩ := hfg
  obtain ⟨hpopped', hsize', hpeak'⟩ := hgh
  refine ⟨by omega, by omega, ?_⟩
  rw [hpeak', hpeak]
  split <;> split <;> split <;> omega

theorem Uses.popped_le {pops pushes : Nat} {f g : Frame} (h : Uses pops pushes f g) : f.popped ≤ g.popped :=
  h.popped ▸ Nat.le_add_right _ _

variable (f : Frame) (t : FrameType) (i n : Nat)

theorem uses_push : Uses 0 1 f (f.push t) := ⟨by simp [push], by simp [push], by simp [push]⟩

theorem uses_popN : Uses n 0 f (f.popN n) := by
  refine ⟨rfl, ?_, rfl⟩
  simp [popN]

theorem uses_pop : Uses 1 0 f f.pop.2 := by
  unfold pop
  cases hback : f.stack.back? with
  | none =>
    have hemp : f.stack.size = 0 := by simpa using hback
    exact ⟨by simp [hemp], by simp [hemp], rfl⟩
  | some t =>
    have hpos : 0 < f.stack.size := by
      rcases Nat.eq_zero_or_pos f.stack.size with hzero | hpos
      · simp [Array.eq_empty_of_size_eq_zero hzero] at hback
      · exact hpos
    refine ⟨?_, by simp, rfl⟩
    dsimp only
    omega

theorem uses_pushValue : Uses 0 (if t.isWide then 2 else 1) f (f.pushValue t) := by
  unfold pushValue
  split
  · exact (uses_push f t).then_pushes (uses_push _ _)
  · exact uses_push f t

theorem uses_popList : Uses n 0 f (popList n f).2 := by
  induction n generalizing f with
  | zero => exact .refl f
  | succ n ih =>
    have hboth := (uses_pop f).after_pops (ih f.pop.2)
    rw [Nat.add_comm] at hboth
    exact hboth

theorem uses_foldl {α : Type} {g : Frame → α → Frame} {width : α → Nat} (hg : ∀ f a, Uses 0 (width a) f (g f a))
    (as : List α) : Uses 0 ((as.map width).foldr (· + ·) 0) f (as.foldl g f) := by
  induction as generalizing f with
  | nil => exact .refl f
  | cons a as ih => exact (hg f a).then_pushes (ih (g f a))

theorem uses_shuffle (pops : Nat) (order : List Nat) : Uses pops order.length f (f.shuffle pops order) := by
  have hpushes := uses_foldl (popList pops f).2
    (fun g i => uses_push g ((popList pops f).1.getD (i - 1) .top)) order
  have hlen : (order.map fun _ => 1).foldr (· + ·) 0 = order.length := by
    clear hpushes
    induction order with
    | nil => rfl
    | cons _ order ih => rw [List.map_cons, List.foldr_cons, ih, List.length_cons, Nat.add_comm]
  rw [hlen] at hpushes
  exact (uses_popList f pops).after_pops hpushes

/-- The stack stays as it is. -/
theorem uses_of_eq {f' : Frame} (hstk : f'.stack = f.stack) (hpopped : f'.popped = f.popped) (hpeak : f'.peak = f.peak) :
    Uses 0 0 f f' := ⟨by simp [hpopped], by simp [hstk], by simp [hpeak]⟩

theorem uses_store : Uses 0 0 f (f.store i t) := uses_of_eq _ rfl rfl rfl

theorem uses_load : Uses 0 0 f (f.load i).2 := by
  unfold load
  split
  · exact .refl f
  · exact .refl f
  · exact uses_of_eq _ rfl rfl rfl

theorem uses_breakBefore : Uses 0 0 f (f.breakBefore i) := by
  unfold breakBefore
  split
  · exact .refl f
  · dsimp only
    split
    · exact (uses_load f _).after_pops (uses_store _ _ _)
    · split
      · exact (uses_load f _).after_pops (uses_store _ _ _)
      · exact uses_load f _

end Frame

namespace Interpreter

open Frame (Uses)

def Using {α : Type} (pops pushes : Nat) (m : FrameM α) : Prop :=
  ∀ s a s', m s = .ok a s' → Uses pops pushes s.frame s'.frame

namespace Using

variable {α β : Type} {pops pops' pushes pushes' : Nat}

theorem throw (e : Error) : Using pops pushes (MonadExcept.throw e : FrameM α) := fun _ _ _ h => nomatch h

theorem pure (a : α) : Using 0 0 (Pure.pure a : FrameM α) := by
  intro s b s' h
  cases h
  exact .refl _

variable {x : FrameM α} {k : α → FrameM β}

theorem after_pops (hx : Using pops 0 x) (hk : ∀ a, Using pops' pushes (k a)) :
    Using (pops + pops') pushes (x >>= k) := by
  intro s b s' h
  obtain ⟨a, t, hfst, h⟩ := run_bind_ok.1 h
  exact (hx s a t hfst).after_pops (hk a t b s' h)

theorem then_pushes (hx : Using pops pushes x) (hk : ∀ a, Using 0 pushes' (k a)) :
    Using pops (pushes + pushes') (x >>= k) := by
  intro s b s' h
  obtain ⟨a, t, hfst, h⟩ := run_bind_ok.1 h
  exact (hx s a t hfst).then_pushes (hk a t b s' h)

theorem ite {c : Prop} [Decidable c] {y : FrameM α} (hx : c → Using pops pushes x) (hy : ¬ c → Using pops pushes y) :
    Using pops pushes (if c then x else y) := by
  split
  · exact hx ‹_›
  · exact hy ‹_›

theorem congr {m : FrameM α} (h : Using pops pushes m) (hpops : pops = pops') (hpushes : pushes = pushes') :
    Using pops' pushes' m := hpops ▸ hpushes ▸ h

end Using

theorem using_update {f : Frame → Frame} {pops pushes : Nat} (h : ∀ frame, Uses pops pushes frame (f frame)) :
    Using pops pushes (update f) := by
  intro s a s' hrun
  cases hrun
  exact h s.frame

theorem using_pop : Using 1 0 pop := by
  intro s a s' hrun
  cases hrun
  exact Frame.uses_pop s.frame

variable {s s' : Interpreter} {op : Opcode} {arg : Nat} {desc : String}

theorem fromPool_ok {α : Type} {action : PoolM α} {a : α} (h : fromPool action s = .ok a s') :
    ∃ pool, action s.pool = .ok a pool ∧ s' = { s with pool := pool } := by
  unfold fromPool at h
  split at h
  · cases h
    exact ⟨_, ‹_›, rfl⟩
  · cases h

variable {type : FieldType} {width : Nat} {pool pool' : Pool} {d : MethodDescriptor}

/-- A value is pushed whose type takes so many slots. -/
theorem using_pushFrom {type : PoolM FrameType}
    (h : ∀ pool t pool', type pool = .ok t pool' → (if t.isWide then 2 else 1) = width) : Using 0 width (pushFrom type) := by
  intro s a s' hrun
  obtain ⟨t, s₁, hfst, hrun⟩ := run_bind_ok.1 hrun
  obtain ⟨pool, htype, rfl⟩ := fromPool_ok hfst
  cases hrun
  rw [← h _ _ _ htype]
  exact Frame.uses_pushValue _ _

theorem using_pushReference (type : PoolM FrameType) : Using 0 1 (pushReference type) := by
  intro s a s' hrun
  obtain ⟨t, s₁, hfst, hrun⟩ := run_bind_ok.1 hrun
  obtain ⟨pool, -, rfl⟩ := fromPool_ok hfst
  cases hrun
  exact Frame.uses_push _ _

/-- The type of a field takes as many slots as the field. -/
theorem width_ofFieldType (hvld : type.IsValid) {t : FrameType}
    (h : FrameType.ofFieldType type pool = .ok t pool') : (if t.isWide then 2 else 1) = type.width := by
  cases type with
  | base b =>
    cases h
    cases b <;> rfl
  | ref r =>
    cases r with
    | object c =>
      obtain ⟨row, pool₁, -, h⟩ := run_bind_ok.1 h
      cases h
      rfl
    | primitiveArray dims b =>
      cases h
      have hdims : 1 ≤ dims ∧ dims ≤ 255 := hvld
      simp [FrameType.isWide, FieldType.width]
      omega
    | objectArray dims c =>
      obtain ⟨row, pool₁, -, h⟩ := run_bind_ok.1 h
      cases h
      simp [FrameType.isWide, FieldType.width]

theorem width_ofLoadable {constant : Loadable} {t : FrameType}
    (h : FrameType.ofLoadable constant pool = .ok t pool') : (if t.isWide then 2 else 1) = constant.width := by
  cases constant with
  | int _ | float _ | long _ | double _ =>
    cases h
    rfl
  | string _ | cls _ | methodType _ | methodHandle _ =>
    obtain ⟨row, pool₁, -, h⟩ := run_bind_ok.1 h
    cases h
    rfl

theorem using_pushReturned (hvld : ∀ t, d.returnType = some t → t.IsValid) :
    Using 0 d.returnLength (pushReturned d.returnType) := by
  unfold pushReturned MethodDescriptor.returnLength
  cases hret : d.returnType with
  | none => exact .pure _
  | some t => exact using_pushFrom fun _ _ _ => width_ofFieldType (hvld t hret)

theorem using_call (op : Opcode) (receiver : Bool) (name : String) (hvld : ∀ t, d.returnType = some t → t.IsValid) :
    Using (d.parameterLength receiver) d.returnLength (call op receiver name d) := by
  have hpars : Using (d.parameterLength false) 0 (update (·.popN (d.parameterLength false))) :=
    using_update fun f => Frame.uses_popN f _
  cases receiver with
  | false => exact (hpars.after_pops fun _ => using_pushReturned hvld).congr (Nat.add_zero _) rfl
  | true =>
    have hmark : ∀ t, Using 0 0 (update fun f => { f with initialized := f.initialized.push t }) :=
      fun t => using_update fun f => Frame.uses_of_eq f rfl rfl rfl
    have hrecv : Using (1 + 0) d.returnLength (do
        let t ← pop
        if op == Opcode.invokespecial && name.toList.head? == some '<' then
          update fun f => { f with initialized := f.initialized.push t }
        pushReturned d.returnType) := by
      refine using_pop.after_pops fun t => .ite (fun _ => ?_) fun _ => using_pushReturned hvld
      exact ((hmark t).after_pops fun _ => using_pushReturned hvld).congr (Nat.add_zero _) rfl
    refine (hpars.after_pops fun _ => hrecv).congr ?_ rfl
    simp [MethodDescriptor.parameterLength]
    omega

theorem using_accessField (onObject writes : Bool) (hvld : type.IsValid) :
    Using (Effect.fieldUse type.width (.field onObject writes)).1 (Effect.fieldUse type.width (.field onObject writes)).2
      (accessField onObject writes type) := by
  unfold accessField
  refine .ite (fun hwrites => ?_) fun hwrites => ?_
  · subst hwrites
    refine (using_update fun f => Frame.uses_popN f _).congr ?_ (by simp [Effect.fieldUse])
    simp [Effect.fieldUse, Nat.add_comm]
  · obtain rfl : writes = false := by simpa using hwrites
    refine Using.congr ((using_update fun f => Frame.uses_popN f _).after_pops fun _ => using_pushFrom
      fun _ _ _ => width_ofFieldType hvld) ?_ rfl
    simp [Effect.fieldUse]

theorem using_fromPool {α : Type} (action : PoolM α) : Using 0 0 (fromPool action) := by
  intro s a s' hrun
  obtain ⟨pool, -, rfl⟩ := fromPool_ok hrun
  exact .refl _

theorem using_stack (pops : Nat) (pushes : List Value) : Using pops ((pushes.map Value.width).foldr (· + ·) 0)
    (update fun f => pushes.foldl (fun f v => f.pushValue (.ofValue v)) (f.popN pops)) := by
  have hwidth : ∀ (f : Frame) (v : Value), Frame.Uses 0 v.width f (f.pushValue (.ofValue v)) := by
    intro f v
    have huses := Frame.uses_pushValue f (.ofValue v)
    cases v <;> exact huses
  exact using_update fun f => (Frame.uses_popN f pops).after_pops (Frame.uses_foldl _ hwidth pushes)

/-- A value is stored to a local. -/
theorem using_keep (wide : Bool) (arg : Nat) (t : FrameType) : Using 0 0 (update fun f =>
    ((if wide then (f.store arg t).store (arg + 1) .top else f.store arg t).breakBefore arg)) := by
  refine using_update fun f => ?_
  have hstored : Frame.Uses 0 0 f (if wide then (f.store arg t).store (arg + 1) .top else f.store arg t) := by
    cases wide with
    | false => exact Frame.uses_store f t arg
    | true => exact (Frame.uses_store f t arg).after_pops (Frame.uses_store (f.store arg t) .top (arg + 1))
  exact hstored.after_pops (Frame.uses_breakBefore _ _)

/-- The slots that an instruction pops, and those that it pushes. -/
def useOf (op : Opcode) (arg : Nat) (operand : Operand) : Nat × Nat :=
  match op.effect, operand with
  | .constant _, .constant value => (0, value.width)
  | .field onObject writes, .field desc =>
    match FieldType.ofDescriptor desc with
    | .ok t => Effect.fieldUse t.width (.field onObject writes)
    | .error _ => (0, 0)
  | .invoke receiver, .method _ desc =>
    match MethodDescriptor.ofDescriptor desc with
    | .ok d => (d.parameterLength receiver, d.returnLength)
    | .error _ => (0, 0)
  | .invokeDynamic, .invokeDynamic desc =>
    match MethodDescriptor.ofDescriptor desc with
    | .ok d => (d.parameterLength false, d.returnLength)
    | .error _ => (0, 0)
  | .newMultiArray, .cls _ => (arg, 1)
  | effect, _ => effect.use

theorem using_execute (op : Opcode) (arg : Nat) (operand : Operand) :
    Using (useOf op arg operand).1 (useOf op arg operand).2 (execute op arg operand) := by
  have hone : ∀ t, Using 0 1 (update (·.push t)) := fun t => using_update fun f => Frame.uses_push f t
  have hpops : ∀ n, Using n 0 (update (·.popN n)) := fun n => using_update fun f => Frame.uses_popN f n
  unfold execute useOf
  refine .ite (fun _ => .throw _) fun _ => ?_
  cases op.effect with
  | stack pops pushes => exact using_stack pops pushes
  | shuffle pops order => exact using_update fun f => Frame.uses_shuffle f pops order
  | loadReference => exact using_update fun f => (Frame.uses_load f arg).then_pushes (Frame.uses_push _ _)
  | element => exact (hpops 1).after_pops fun _ => using_pop.after_pops fun t => hone t.element
  | store wide =>
    cases wide with
    | false => exact using_pop.after_pops fun t => using_keep false arg t
    | true => exact (hpops 1).after_pops fun _ => using_pop.after_pops fun t => using_keep true arg t
  | increment => exact using_update fun f => Frame.uses_store f _ _
  | subroutine | unknown => exact .throw _
  | newArray =>
    refine Using.congr ((hpops 1).after_pops (?_ : ∀ _, Using 0 1 _)) rfl rfl
    intro _
    cases BaseType.ofArrayCode? (arg % 256) with
    | none => exact .throw _
    | some b => exact hone _
  | constant width =>
    cases operand with
    | constant value => exact using_pushFrom fun _ _ _ => width_ofLoadable
    | _ => exact .throw _
  | field onObject writes =>
    cases operand with
    | field desc =>
      dsimp only
      cases htype : FieldType.ofDescriptor desc with
      | error e => exact .throw _
      | ok type => exact using_accessField onObject writes (FieldType.valid_of_ofDescriptor htype)
    | _ => exact .throw _
  | invoke receiver =>
    cases operand with
    | method name desc =>
      dsimp only
      cases hd : MethodDescriptor.ofDescriptor desc with
      | error e => exact .throw _
      | ok d => exact using_call op receiver name (MethodDescriptor.valid_of_ofDescriptor hd).returnType
    | _ => exact .throw _
  | invokeDynamic =>
    cases operand with
    | invokeDynamic desc =>
      dsimp only
      cases hd : MethodDescriptor.ofDescriptor desc with
      | error e => exact .throw _
      | ok d => exact using_call op false "" (MethodDescriptor.valid_of_ofDescriptor hd).returnType
    | _ => exact .throw _
  | newObject =>
    cases operand with
    | cls name => exact (using_fromPool _).then_pushes fun row => hone _
    | _ => exact .throw _
  | newReferenceArray | cast =>
    cases operand with
    | cls name => exact (hpops 1).after_pops fun _ => using_pushReference _
    | _ => exact .throw _
  | newMultiArray =>
    cases operand with
    | cls name => exact (hpops arg).after_pops fun _ => using_pushReference _
    | _ => exact .throw _

end Interpreter

/-! ### Instructions -/

namespace Instruction

variable {L : Type}

/-- The opcode of an instruction on a class or member is of that kind. -/
def IsApt : Instruction L → Prop
  | type op _ => op.shape = .type
  | field op _ => op.isFieldAccess = true
  | method op _ _ => op.isInvocation = true
  | _ => True

theorem isApt_map {M : Type} (f : L → M) (i : Instruction L) : (i.map f).IsApt ↔ i.IsApt := by cases i <;> rfl

set_option maxRecDepth 4000 in
theorem effect_named : Opcode.iinc.effect = .increment ∧ Opcode.lookupSwitch.effect = .stack 1 [] ∧
    Opcode.ldc.effect = .constant 1 ∧ Opcode.multianewarray.effect = .newMultiArray ∧
    Opcode.invokedynamic.effect = .invokeDynamic := by
  decide

/-- **Every instruction pops and pushes as many slots as it should.** -/
theorem uses_of_interpretation {i : Instruction L} (hi : i.IsApt) {pos : Nat} {s s' : Interpreter}
    (h : i.interpretation pos s = .ok () s') : Frame.Uses i.use.1 i.use.2 s.frame s'.frame := by
  obtain ⟨hiinc, hswitch, hldc, hmulti, hdynamic⟩ := effect_named
  have hnone : ∀ op arg, Interpreter.execute op arg .none s = .ok () s' →
      Frame.Uses op.effect.use.1 op.effect.use.2 s.frame s'.frame := by
    intro op arg hrun
    have huses := Interpreter.using_execute op arg .none s () s' hrun
    unfold Interpreter.useOf at huses
    cases heff : op.effect <;> simpa only [heff] using huses
  cases i with
  | plain op | jump op target => exact hnone op pos h
  | int op operand => exact hnone op operand.toInt.toNat h
  | var op index => exact hnone op index.toNat h
  | iinc index increment =>
    have huses := hnone Opcode.iinc index.toNat h
    rwa [hiinc] at huses
  | tableSwitch low high fallback targets | lookupSwitch fallback keys targets =>
    have huses := hnone Opcode.lookupSwitch 0 h
    rwa [hswitch] at huses
  | type op name =>
    have huses := Interpreter.using_execute op pos (.cls name) s () s' h
    have hne := op.of_kind.2.1.2.2.1 hi
    unfold Interpreter.useOf at huses
    unfold use
    cases heff : op.effect <;> simp_all
  | ldc constant =>
    have huses := Interpreter.using_execute Opcode.ldc pos (.constant constant) s () s' h
    unfold Interpreter.useOf at huses
    rwa [hldc] at huses
  | multiNewArray desc dimensions =>
    have huses := Interpreter.using_execute Opcode.multianewarray dimensions.toNat (.cls desc) s () s' h
    unfold Interpreter.useOf at huses
    rwa [hmulti] at huses
  | field op m =>
    obtain ⟨onObject, writes, heff⟩ := op.of_kind.2.1.1 hi
    have huses := Interpreter.using_execute op pos (.field m.descriptor) s () s' h
    unfold Interpreter.useOf at huses
    rw [heff] at huses
    rwa [use, heff]
  | method op m isInterface =>
    have huses := Interpreter.using_execute op pos (.method m.name m.descriptor) s () s' h
    unfold Interpreter.useOf at huses
    rwa [(op.of_kind.2.1.2.1 hi).1] at huses
  | invokeDynamic name text bootstrap arguments =>
    have huses := Interpreter.using_execute Opcode.invokedynamic pos (.invokeDynamic text) s () s' h
    unfold Interpreter.useOf at huses
    rwa [hdynamic] at huses

end Instruction

end JvmAssembler
