import JvmAssembler.Proofs.Frame.Interpreting
import JvmAssembler.Proofs.Script

/-!
# JvmAssembler.Proofs.Instructions

Instructions without labels.

There are ten kinds of them, and each is written in the same way (`amountsTo_write`): it may be refused; otherwise the pool
is asked for its constants, which gives its bytes (`plainBytes`), the current block takes account of it, the bytes are
written, and the block may end. What the writer does with such an instruction is proved from there, for all kinds at once.
-/

namespace JvmAssembler

open Success

/-- How an instruction is interpreted at a position: its opcode, and what comes with it. -/
def Instruction.reading {L : Type} (position : Nat) : Instruction L → Opcode × Nat × Operand
  | plain op | jump op _ => (op, position, .none)
  | int op operand => (op, operand.toInt.toNat, .none)
  | var op index => (op, index.toNat, .none)
  | iinc index _ => (Opcode.iinc, index.toNat, .none)
  | type op name => (op, position, .cls name)
  | field op m => (op, position, .field m.descriptor)
  | method op m _ => (op, position, .method m.name m.descriptor)
  | invokeDynamic _ text _ _ => (Opcode.invokedynamic, position, .invokeDynamic text)
  | ldc constant => (Opcode.ldc, position, .constant constant)
  | tableSwitch .. | lookupSwitch .. => (Opcode.lookupSwitch, 0, .none)
  | multiNewArray desc dims => (Opcode.multianewarray, dims.toNat, .cls desc)

/-- The summary of a block is changed by an instruction in this way. The position is that of the instruction. -/
def Instruction.interpretation {L : Type} (position : Nat) (i : Instruction L) : FrameM Unit :=
  Interpreter.execute (i.reading position).1 (i.reading position).2.1 (i.reading position).2.2

theorem Instruction.interpretation_map {L M : Type} (f : L → M) (position : Nat) (i : Instruction L) :
    (i.map f).interpretation position = i.interpretation position := by
  cases i <;> rfl

namespace MethodWriter

open Bytes

/-! ### Bytes -/

/-- The arguments of an interface method, with the receiver, as the instruction counts them. -/
def argumentCount (m : MemberRef) : Nat :=
  match MethodDescriptor.ofDescriptor m.descriptor with
  | .ok d => d.parameterLength true
  | .error _ => 0

/-- The bytes of an instruction that has no labels, with the rows of its constants. -/
def plainBytes {L : Type} : Instruction L → PoolM (List UInt8)
  | .plain op => return [op]
  | .int op operand => return op :: if op = Opcode.sipush then i2 operand.toInt else u1 (operand.toInt % 256).toNat
  | .var op index => return localForm op index.toNat
  | .iinc index inc =>
    return if 255 < index.toNat ∨ inc.toInt < -128 ∨ 127 < inc.toInt then
        Opcode.wide :: Opcode.iinc :: u2 index.toNat ++ i2 inc.toInt
      else Opcode.iinc :: u1 index.toNat ++ u1 (inc.toInt % 256).toNat
  | .type op name => do
    let row ← Pool.cls name
    return op :: u2 row
  | .field op m => do
    let row ← Pool.fieldRef m.owner m.name m.descriptor
    return op :: u2 row
  | .method op m isInterface => do
    let row ← Pool.methodRef m.owner m.name m.descriptor (isInterface || op == Opcode.invokeinterface)
    return op :: u2 row ++ if op == Opcode.invokeinterface then u1 (argumentCount m) ++ u1 0 else []
  | .invokeDynamic name text boot args => do
    let row ← Pool.invokeDynamic name text boot args
    return Opcode.invokedynamic :: u2 row ++ u2 0
  | .ldc constant => do
    let row ← Pool.loadable constant
    return if constant.isWide then Opcode.ldc2W :: u2 row
      else if 256 ≤ row then Opcode.ldcW :: u2 row
      else Opcode.ldc :: u1 row
  | .multiNewArray desc dims => do
    let row ← Pool.cls desc
    return Opcode.multianewarray :: u2 row ++ u1 dims.toNat
  | .jump .. | .tableSwitch .. | .lookupSwitch .. => return []

/-- Asking the pool again for the constants of an instruction gives the same bytes. -/
theorem settles_plainBytes {L : Type} (i : Instruction L) : Pool.Settles (plainBytes i) := by
  cases i with
  | type op name => exact .bind (Pool.interning_cls _).settles fun _ => .pure _
  | field op m => exact .bind (Pool.interning_fieldRef _ _ _).settles fun _ => .pure _
  | method op m isInterface => exact .bind (Pool.interning_methodRef _ _ _ _).settles fun _ => .pure _
  | invokeDynamic name text boot args => exact .bind (Pool.settles_invokeDynamic _ _ _ _) fun _ => .pure _
  | ldc constant => exact .bind (Pool.interning_loadable _).settles fun _ => .pure _
  | multiNewArray desc dims => exact .bind (Pool.interning_cls _).settles fun _ => .pure _
  | _ => exact .pure _

def hasLabels {L : Type} : Instruction L → Bool
  | .jump .. | .tableSwitch .. | .lookupSwitch .. => true
  | _ => false

theorem plainBytes_ne_nil {L : Type} {i : Instruction L} (hi : hasLabels i = false) {pool pool' : Pool} {bs : List UInt8}
    (h : plainBytes i pool = .ok bs pool') : bs ≠ [] := by
  cases i with
  | plain | int => cases h; simp
  | var op index =>
    cases h
    rw [localForm]
    split
    · simp
    · split <;> simp
  | iinc => cases h; split <;> simp
  | type | field | method | invokeDynamic | multiNewArray =>
    obtain ⟨_, _, -, h⟩ := run_bind_ok.1 h
    cases h
    simp
  | ldc =>
    obtain ⟨_, _, -, h⟩ := run_bind_ok.1 h
    cases h
    split
    · simp
    · split <;> simp
  | jump | tableSwitch | lookupSwitch => cases hi

/-- What is required of an instruction wherever it comes. -/
def Valid {L : Type} : Instruction L → Prop
  | .plain op => op.shape = .plain
  | .int op operand => ∃ low high, intRange? op = some (low, high) ∧ low ≤ operand.toInt ∧ operand.toInt ≤ high
  | .var op _ => (op.isLocalAccess || op = Opcode.ret) = true
  | .type op _ => op.shape = .type
  | .field op m => op.isFieldAccess = true ∧ ∃ t, FieldType.ofDescriptor m.descriptor = .ok t
  | .method op m _ => op.isInvocation = true ∧ ∃ d, MethodDescriptor.ofDescriptor m.descriptor = .ok d
  | .invokeDynamic _ text .. => ∃ d, MethodDescriptor.ofDescriptor text = .ok d
  | .jump op _ => jumpForm? op ≠ none
  | .tableSwitch low high _ targets =>
    low.toInt ≤ high.toInt ∧ high.toInt - low.toInt + 1 = targets.length
  | .lookupSwitch _ keys targets => keys.length = targets.length ∧ isIncreasing keys = true
  | .multiNewArray _ dims => dims.toNat ≠ 0
  | .iinc .. | .ldc _ => True

/-! ### Writing -/

/-- What an instruction without labels does to the current block. -/
def account : Instruction Label → MethodM Unit
  | i@(.var op index) => do
    let w ← get
    if op = Opcode.ret ∧ w.compute = .frames then throw (.unsupportedSubroutine op w.code.size)
    if op = Opcode.ret ∧ w.compute = .maxs ∧ w.current.isSome then
      let height := w.height
      updateCurrent fun labels block => labels.updateSized block fun b => { b with returnHeight := some height }
      endBlock
    else
      interpret op index.toNat .none
      growStack i.delta
    useLocals (index.toNat + if op.isWideAccess then 2 else 1)
  | .iinc index _ => do
    interpret Opcode.iinc index.toNat .none
    useLocals (index.toNat + 1)
  | i => do
    let reading := i.reading (← position)
    interpret reading.1 reading.2.1 reading.2.2
    growStack i.delta

/-- What follows once an instruction without labels is written. -/
def conclude : Instruction Label → MethodM Unit
  | .plain op => do if op.isExit && (← get).current.isSome then endBlock
  | .var op _ => do if Opcode.istore ≤ op ∧ (← get).compute = .frames then placeLabel (← newLabel)
  | _ => pure ()

/-- An instruction without labels is written, once its bytes are known. -/
def writeBytes (i : Instruction Label) (bs : List UInt8) : MethodM Unit := do
  account i
  emit bs
  conclude i

@[simp] theorem fromPool_map {α β : Type} (action : PoolM α) (f : α → β) : fromPool (f <$> action) = f <$> fromPool action := by
  funext w
  show fromPool (EStateM.map f action) w = EStateM.map f (fromPool action) w
  simp only [fromPool, EStateM.map]
  cases action w.pool <;> rfl

@[simp] theorem fromPool_pure {α : Type} (a : α) : fromPool (pure a) = pure a := rfl

theorem emit_emit (bs bs' : List UInt8) : (do emit bs; emit bs') = emit (bs ++ bs') := by
  funext w
  show EStateM.Result.ok () _ = EStateM.Result.ok () _
  simp [Bytes.write]

/-- What writing an instruction without labels comes to, unless it is refused. -/
def AmountsTo (i : Instruction Label) (m : MethodM Unit) : Prop :=
  Valid i ∧ m = (fromPool (plainBytes i) >>= writeBytes i) ∨ ∃ e : Error, e.IsPlain ∧ m = throw e

/-- Where control does not go on, nothing is pushed, and only calls push a return address. -/
theorem use_of_kind (op : Opcode) :
    (op.isExit = true ∨ op = Opcode.goto ∨ op = Opcode.gotoW ∨ op = Opcode.ret → op.effect.use.2 = 0) ∧
      (op = Opcode.jsr ∨ op = Opcode.jsrW → op.effect.use.2 = 0) ∧
      (op.effect.enters = true → op = Opcode.jsr ∨ op = Opcode.jsrW) := by
  revert op
  apply Opcode.forall_opcode
  decide +kernel

/-- The opcode decides how the height changes, except for calls. -/
theorem delta_eq_use (op : Opcode) (hjsr : op ≠ Opcode.jsr) (hjsrW : op ≠ Opcode.jsrW) :
    op.delta = (op.effect.use.2 : Int) - op.effect.use.1 :=
  Effect.delta_eq_use (Bool.eq_false_iff.2 fun h => ((use_of_kind op).2.2 h).elim hjsr hjsrW)

theorem delta_eq_use_of_shape {op : Opcode} {shape : Shape} (h : op.shape = shape) (hjump : shape ≠ .jump) (hwide : shape ≠ .wideJump) :
    op.delta = (op.effect.use.2 : Int) - op.effect.use.1 := by
  subst h
  refine delta_eq_use op ?_ ?_ <;> rintro rfl
  · exact hjump (Opcode.shape_of_isShortJump _ rfl)
  · exact hwide Opcode.shape_jsrW

theorem amountsTo_plain (op : Opcode) : AmountsTo (.plain op) (writePlain op) := by
  unfold writePlain
  split
  · exact .inr ⟨_, rfl, rfl⟩
  next hsh =>
    have hpln := Classical.not_not.1 hsh
    have hdel : op.delta = (Instruction.plain op : Instruction Label).delta :=
      delta_eq_use_of_shape hpln (by decide) (by decide)
    refine .inl ⟨hpln, ?_⟩
    simp [plainBytes, writeBytes, account, conclude, Instruction.reading, hdel]

theorem amountsTo_int (op : Opcode) (operand : Int32) : AmountsTo (.int op operand) (writeInt op operand.toInt) := by
  unfold writeInt
  cases hrng : intRange? op with
  | none => exact .inr ⟨_, rfl, rfl⟩
  | some range =>
    obtain ⟨low, high⟩ := range
    by_cases hbnd : operand.toInt < low ∨ high < operand.toInt
    · exact .inr ⟨_, rfl, if_pos hbnd⟩
    · have hdel : op.delta = (Instruction.int op operand : Instruction Label).delta := by
        refine delta_eq_use op ?_ ?_ <;> rintro rfl <;> cases hrng
      refine .inl ⟨⟨low, high, hrng, by omega, by omega⟩, (if_neg hbnd).trans ?_⟩
      simp [plainBytes, writeBytes, account, conclude, Instruction.reading, hdel]
      rfl

theorem amountsTo_var (op : Opcode) (index : UInt16) : AmountsTo (.var op index) (writeVar op index.toNat) := by
  unfold writeVar
  by_cases haccess : (op.isLocalAccess || op = Opcode.ret) = true
  · have hdel : op.delta = (Instruction.var op index : Instruction Label).delta := by
      refine delta_eq_use op ?_ ?_ <;> rintro rfl <;> cases haccess
    refine .inl ⟨haccess, (if_neg (by rw [haccess]; simp)).trans ?_⟩
    rw [hdel]
    funext w
    simp only [plainBytes, fromPool_pure, pure_bind, writeBytes, account, conclude, bind_assoc]
    rw [run_get_bind, run_get_bind]
    by_cases hfrs : op = Opcode.ret ∧ w.compute = .frames
    · rw [if_pos hfrs, if_pos hfrs]
      rfl
    · rw [if_neg hfrs, if_neg hfrs]
      split <;> simp only [bind_assoc]
  · exact .inr ⟨_, rfl, if_pos (by simpa using haccess)⟩

theorem amountsTo_iinc (index : UInt16) (inc : Int16) :
    AmountsTo (.iinc index inc) (writeIinc index.toNat inc.toInt) := by
  refine .inl ⟨trivial, ?_⟩
  rw [writeIinc, ← apply_ite emit]
  simp [plainBytes, writeBytes, account, conclude]

theorem amountsTo_type (op : Opcode) (name : String) : AmountsTo (.type op name) (writeType op name) := by
  unfold writeType
  split
  · exact .inr ⟨_, rfl, rfl⟩
  next hsh =>
    have htype := Classical.not_not.1 hsh
    have hdel : op.delta = (Instruction.type op name : Instruction Label).delta :=
      delta_eq_use_of_shape htype (by decide) (by decide)
    refine .inl ⟨htype, ?_⟩
    simp [plainBytes, writeBytes, account, conclude, emitShort, hdel, Instruction.reading]

theorem amountsTo_field (op : Opcode) (m : MemberRef) : AmountsTo (.field op m) (writeField op m) := by
  unfold writeField
  split
  · exact .inr ⟨_, rfl, rfl⟩
  next haccess =>
    have hop : op.isFieldAccess = true := by simpa using haccess
    cases htype : FieldType.ofDescriptor m.descriptor with
    | error e => exact .inr ⟨e, isPlain_of_badDescriptor htype, rfl⟩
    | ok type =>
      obtain ⟨onObject, writes, heff⟩ := op.of_kind.2.1.1 hop
      have hdel : fieldDelta op.effect type.width = (Instruction.field op m : Instruction Label).delta := by
        rw [Instruction.delta, Instruction.use_field htype, heff]
        cases writes <;> cases onObject <;> simp [fieldDelta, Effect.fieldUse] <;> omega
      refine .inl ⟨⟨hop, type, htype⟩, ?_⟩
      simp [checked, plainBytes, writeBytes, account, conclude, emitShort, hdel, Instruction.reading]

theorem amountsTo_method (op : Opcode) (m : MemberRef) (isInterface : Bool) :
    AmountsTo (.method op m isInterface) (writeMethod op m isInterface) := by
  unfold writeMethod
  split
  · exact .inr ⟨_, rfl, rfl⟩
  next hinvocation =>
    have hop : op.isInvocation = true := by simpa using hinvocation
    cases hd : MethodDescriptor.ofDescriptor m.descriptor with
    | error e => exact .inr ⟨e, isPlain_of_badDescriptor hd, rfl⟩
    | ok d =>
      have hdel : (d.returnLength : Int) - d.parameterLength (op != Opcode.invokestatic) =
          (Instruction.method op m isInterface : Instruction Label).delta := by
        rw [Instruction.delta, Instruction.use_method hd]
      have hcnt : argumentCount m = d.parameterLength true := by rw [argumentCount, hd]
      refine .inl ⟨⟨hop, d, hd⟩, ?_⟩
      cases honInterface : op == Opcode.invokeinterface <;>
        simp [checked, plainBytes, writeBytes, account, conclude, emitShort, hdel, Instruction.reading, honInterface,
          hcnt, emit_emit]

theorem amountsTo_invokeDynamic (name text : String) (boot : Handle) (args : List Loadable) :
    AmountsTo (.invokeDynamic name text boot args) (writeInvokeDynamic name text boot args) := by
  unfold writeInvokeDynamic
  cases hd : MethodDescriptor.ofDescriptor text with
  | error e => exact .inr ⟨e, isPlain_of_badDescriptor hd, rfl⟩
  | ok d =>
    have hdel : (d.returnLength : Int) - d.parameterLength false =
        (Instruction.invokeDynamic name text boot args : Instruction Label).delta := by
      rw [Instruction.delta, Instruction.use_invokeDynamic hd]
    refine .inl ⟨⟨d, hd⟩, ?_⟩
    simp [checked, plainBytes, writeBytes, account, conclude, emitShort, hdel, Instruction.reading, emit_emit]

theorem amountsTo_ldc (constant : Loadable) : AmountsTo (.ldc constant) (writeLdc constant) := by
  refine .inl ⟨trivial, ?_⟩
  simp [writeLdc, plainBytes, writeBytes, account, conclude, emitShort, Instruction.reading, Instruction.delta, apply_ite emit]

theorem amountsTo_multiNewArray (desc : String) (dims : UInt8) :
    AmountsTo (.multiNewArray desc dims) (writeMultiNewArray desc dims.toNat) := by
  unfold writeMultiNewArray
  split
  · exact .inr ⟨_, rfl, rfl⟩
  next hdimensions =>
    refine .inl ⟨hdimensions, ?_⟩
    simp [plainBytes, writeBytes, account, conclude, emitShort, Instruction.reading, Instruction.delta, Instruction.use, emit_emit]
    rfl

/-- **Every instruction without labels is written in the same way.** -/
theorem amountsTo_write {i : Instruction Label} (hi : hasLabels i = false) : AmountsTo i (write i) := by
  cases i with
  | plain op => exact amountsTo_plain op
  | int op operand => exact amountsTo_int op operand
  | var op index => exact amountsTo_var op index
  | iinc index inc => exact amountsTo_iinc index inc
  | type op name => exact amountsTo_type op name
  | field op m => exact amountsTo_field op m
  | method op m isInterface => exact amountsTo_method op m isInterface
  | invokeDynamic name text boot args => exact amountsTo_invokeDynamic name text boot args
  | ldc constant => exact amountsTo_ldc constant
  | multiNewArray desc dims => exact amountsTo_multiNewArray desc dims
  | jump | tableSwitch | lookupSwitch => cases hi

/-- What it takes to write an instruction without labels. -/
theorem write_plain_ok {i : Instruction Label} (hi : hasLabels i = false) {w w' : MethodWriter} {u : Unit}
    (h : write i w = .ok u w') : Valid i ∧ ∃ bs pool, plainBytes i w.pool = .ok bs pool ∧
      writeBytes i bs { w with pool := pool } = .ok u w' := by
  rcases amountsTo_write hi with ⟨hvld, heq⟩ | ⟨e, -, heq⟩
  · rw [heq] at h
    obtain ⟨bs, v, hbs, h⟩ := run_bind_ok.1 h
    obtain ⟨pool, hpool, rfl⟩ := fromPool_ok hbs
    exact ⟨hvld, bs, pool, hpool, h⟩
  · rw [heq] at h
    cases h

/-! ### Jumps -/

/-- The steps of a jump: it is recorded in the current block, it is encoded, and then its block ends or not. -/
theorem writeJump_ok {op : Opcode} {label : Label} {w w' : MethodWriter} {u : Unit} (h : writeJump op label w = .ok u w') :
    ∃ base isWide next w₁ w₂, label < w.labels.size ∧ jumpForm? op = some (base, isWide) ∧
      ¬ (base = Opcode.jsr ∧ w.compute = .frames) ∧ recordJump op base label w = .ok next w₁ ∧
      emitJump op base isWide label next w₁ = .ok () w₂ ∧
      (if w₂.current.isSome then do
        match next with
        | some next => placeLabel next
        | none => pure ()
        if base = Opcode.goto then endBlock
      else pure () : MethodM Unit) w₂ = .ok u w' := by
  obtain ⟨_, _, hchk, hbody⟩ := run_bind_ok.1 h
  obtain ⟨hlab, rfl⟩ := checkLabel_ok hchk
  cases hform : jumpForm? op with
  | none =>
    rw [hform] at hbody
    cases hbody
  | some form =>
    rw [hform] at hbody
    dsimp only at hbody
    rw [run_get_bind] at hbody
    split at hbody
    · cases hbody
    next hallowed =>
      obtain ⟨next, w₁, hrec, hwritten⟩ := run_bind_ok.1 hbody
      obtain ⟨_, w₂, hemit, hrest⟩ := run_bind_ok.1 hwritten
      exact ⟨_, _, next, w₁, w₂, hlab, rfl, hallowed, hrec, hemit, hrest⟩

end MethodWriter

end JvmAssembler
