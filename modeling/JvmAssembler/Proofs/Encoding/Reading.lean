import JvmAssembler.Proofs.ControlFlow
import JvmAssembler.Proofs.Typesetting.Log

/-!
# JvmAssembler.Proofs.Encoding.Reading

Reading instructions back from their chunks.

* `decoded` is what an instruction reads as once all labels are placed. Only two kinds of instructions differ from what
  was written: calls of interface methods are always marked as such, and backward jumps that are too far for 16 bits
  are made of wide jumps.
* `reads_line` says that the chunks of an instruction read as that, and `Reads.decode` goes on from instructions to all of
  the code.
-/

namespace JvmAssembler

open Success

namespace Encoding

open MethodWriter Bytes Typesetting
open Decoding (instruction member signedByte)
open Opcode (shape_named invokeinterface gotoW sipush)

/-- What an instruction at a position reads as, each part with its own position. -/
def decoded (place : Label → Nat) (position : Nat) : Instruction Label → List (Nat × Instruction Nat)
  | .method op m isInterface => [(position, .method op m (isInterface || op == invokeinterface))]
  | .jump op lbl =>
    if op.isShortJump ∧ (place lbl : Int) - position < -32768 then
      if op = Opcode.goto then [(position, .jump gotoW (place lbl))]
      else if op = Opcode.jsr then [(position, .jump Opcode.jsrW (place lbl))]
      else [(position, .jump op.invert (position + 8)), (position + 3, .jump gotoW (place lbl))]
    else [(position, .jump op (place lbl))]
  | i => [(position, i.map place)]

def methodEntry (m : MemberRef) (isInterface : Bool) : Entry :=
  if isInterface then .interfaceMethodRef m else .methodRef m

variable {pool : Pool} {code : Bytes} {position : Nat}

/-! ### Steps -/

variable {length i p next src : Nat} {name desc : String} {constant : Loadable} {op : Opcode} {m : MemberRef}
  {offset : Int} {operand : Int32} {index : UInt16} {inc : Int16} {entries : List (Nat × Instruction Nat)}
  {bs : List UInt8} {chunks : List Chunk} {lbl : Label}

theorem require_ok (h : position + length ≤ code.size) :
    Decoding.require code position length = .ok () := if_pos h

theorem entry_ok {e : Entry} (h : pool.entry? i = some e) : Decoding.entry pool position i = .ok e := by
  rw [Decoding.entry, h]

theorem cls_ok (h : pool.entry? i = some (.cls name)) :
    Decoding.cls pool position i = .ok name := by
  rw [Decoding.cls, bind_of_ok (entry_ok h)]
  rfl

theorem loadable_ok (h : pool.entry? i = some constant.entry) :
    Decoding.loadable pool position i = .ok constant := by
  rw [Decoding.loadable, bind_of_ok (entry_ok h)]
  cases constant <;> rfl

theorem member_method_ok (hop : op.isInvocation = true) {isInterface : Bool}
    (h : pool.entry? i = some (methodEntry m isInterface)) :
    member pool position op i = .ok (.method op m isInterface) := by
  rw [member, bind_of_ok (entry_ok h)]
  cases isInterface <;> exact if_pos hop

theorem member_field_ok (hop : op.isFieldAccess = true)
    (h : pool.entry? i = some (.fieldRef m)) : member pool position op i = .ok (.field op m) := by
  rw [member, bind_of_ok (entry_ok h)]
  exact if_pos hop

theorem callSite_ok {j : Nat} {b : BootstrapEntry}
    (h : pool.entry? i = some (.invokeDynamic j name desc)) (hb : pool.bootstrap? j = some b) :
    Decoding.callSite pool position i = .ok (.invokeDynamic name desc b.handle b.arguments) := by
  rw [Decoding.callSite, bind_of_ok (entry_ok h)]
  dsimp only
  rw [hb]
  rfl

theorem u16_ok {n : Nat} (hn : n < 65536) (h : code.HoldsAt position (u2 n)) :
    Decoding.u16 code position = .ok n := by
  have hsize : position + 2 ≤ code.size := h.le_size (by simp [u2])
  rw [Decoding.u16, bind_of_ok (require_ok hsize), h.u16At, Nat.mod_eq_of_lt hn]
  rfl

theorem i32_ok {x : Int} (hlow : -2147483648 ≤ x) (hhigh : x ≤ 2147483647) (h : code.HoldsAt position (i4 x)) :
    Decoding.i32 code position = .ok x := by
  have hsize : position + 4 ≤ code.size := h.le_size (by simp [i4, u4])
  rw [Decoding.i32, bind_of_ok (require_ok hsize), h.i32At hlow hhigh]
  rfl

/-- A position within the code is a target. -/
theorem target_ok (hp : p ≤ code.size) (hoff : (p : Int) = position + offset) :
    Decoding.target code position offset = .ok p := by
  unfold Decoding.target
  dsimp only
  rw [← hoff, if_neg (by omega)]
  rfl

/-! ### Instructions without labels -/

theorem read_plain (hop : op.shape = .plain) (h : code.HoldsAt position [op]) :
    instruction pool code position = .ok (.plain op, 1) := by
  delta instruction
  dsimp only
  rw [h.byteAt, hop]

theorem read_byte (hop : op = Opcode.bipush ∧ -128 ≤ operand.toInt ∧ operand.toInt ≤ 127 ∨
      op = Opcode.newarray ∧ 4 ≤ operand.toInt ∧ operand.toInt ≤ 11)
    (h : code.HoldsAt position (op :: u1 (operand.toInt % 256).toNat)) :
    instruction pool code position = .ok (.int op operand, 2) := by
  have hsize : position + 2 ≤ code.size := h.le_size (by simp)
  obtain ⟨hbyte, hnum⟩ := holdsAt_cons.1 h
  have hval : (if op == Opcode.bipush then signedByte code (position + 1)
      else ((code.byteAt (position + 1)).toNat : Int)) = operand.toInt := by
    rw [signedByte, hnum.byteAt]
    rcases hop with ⟨rfl, hlow, hhigh⟩ | ⟨rfl, hlow, hhigh⟩
    · exact toInt_toInt8_ofNat hlow hhigh
    · rw [if_neg (by decide), UInt8.toNat_ofNat']
      omega
  have hsh : op.shape = .byte := by
    rcases hop with ⟨rfl, -⟩ | ⟨rfl, -⟩
    · exact shape_named.1.1
    · exact shape_named.1.2.1
  delta instruction
  dsimp only
  rw [hbyte.byteAt, hsh]
  dsimp only
  rw [bind_of_ok (require_ok hsize), hval, Int32.ofInt_toInt]
  rfl

theorem read_short (hrng : -32768 ≤ operand.toInt ∧ operand.toInt ≤ 32767)
    (h : code.HoldsAt position (sipush :: i2 operand.toInt)) :
    instruction pool code position = .ok (.int sipush operand, 3) := by
  have hsize : position + 3 ≤ code.size := h.le_size (by simp)
  obtain ⟨hbyte, hnum⟩ := holdsAt_cons.1 h
  have hsh : sipush.shape = .short := shape_named.1.2.2
  delta instruction
  dsimp only
  rw [hbyte.byteAt, hsh]
  dsimp only
  rw [bind_of_ok (require_ok hsize), hnum.i16At hrng.1 hrng.2, Int32.ofInt_toInt]
  rfl

/-- A local that fits in a byte is read back. -/
theorem ofNat_toNat_ofNat (h : index.toNat ≤ 255) :
    UInt16.ofNat (UInt8.ofNat index.toNat).toNat = index := by
  rw [UInt8.toNat_ofNat', Nat.mod_eq_of_lt (by omega), UInt16.ofNat_toNat]

theorem read_var (hop : (op.isLocalAccess || op = Opcode.ret) = true) (h : code.HoldsAt position (localForm op index.toNat)) :
    instruction pool code position = .ok (.var op index, (localForm op index.toNat).length) := by
  have hsh := op.shape_of_isLocalAccess hop
  unfold localForm at h ⊢
  split at h
  · rename_i hshort
    have haccess : op.isLocalAccess = true := by simpa [hshort.2] using hop
    obtain ⟨himplicit, hexplicit⟩ := op.explicitForm_implicitForm haccess ⟨index.toNat, hshort.1⟩
    rw [if_pos hshort]
    delta instruction
    dsimp only
    rw [h.byteAt, himplicit]
    dsimp only
    rw [hexplicit]
    simp
  · rename_i hlong
    rw [if_neg hlong]
    split at h
    · rename_i hidx
      have hsize : position + 4 ≤ code.size := h.le_size (by simp)
      obtain ⟨hbyte, hrest⟩ := holdsAt_cons.1 h
      obtain ⟨hbyte', hnum⟩ := holdsAt_cons.1 hrest
      have hwide : Opcode.wide.shape = .wide := shape_named.2.1.1
      have hiinc : (op == Opcode.iinc) = false := by
        refine beq_eq_false_iff_ne.2 fun heq => ?_
        rw [heq, shape_named.2.1.2] at hsh
        cases hsh
      rw [if_pos hidx]
      delta instruction
      dsimp only
      rw [hbyte.byteAt, hwide]
      dsimp only
      rw [Decoding.wideForm, bind_of_ok (require_ok hsize), hbyte'.byteAt, hnum.u16At,
        Nat.mod_eq_of_lt index.toNat_lt, UInt16.ofNat_toNat]
      dsimp only
      rw [hiinc, hsh]
      rfl
    · rename_i hidx
      have hsize : position + 2 ≤ code.size := h.le_size (by simp)
      obtain ⟨hbyte, hnum⟩ := holdsAt_cons.1 h
      rw [if_neg hidx]
      delta instruction
      dsimp only
      rw [hbyte.byteAt, hsh]
      dsimp only
      rw [bind_of_ok (require_ok hsize), hnum.byteAt, ofNat_toNat_ofNat (by omega)]
      rfl

theorem read_iinc (hidx : index.toNat ≤ 255) (hrng : -128 ≤ inc.toInt ∧ inc.toInt ≤ 127)
    (h : code.HoldsAt position (Opcode.iinc :: u1 index.toNat ++ u1 (inc.toInt % 256).toNat)) :
    instruction pool code position = .ok (.iinc index inc, 3) := by
  have hsize : position + 3 ≤ code.size := h.le_size (by simp)
  obtain ⟨hbyte, hrest⟩ := holdsAt_cons.1 h
  obtain ⟨hvar, hnum⟩ := holdsAt_cons.1 hrest
  have hsh : Opcode.iinc.shape = .iinc := shape_named.2.1.2
  delta instruction
  dsimp only
  rw [hbyte.byteAt, hsh]
  dsimp only
  rw [bind_of_ok (require_ok hsize), hvar.byteAt, ofNat_toNat_ofNat hidx, signedByte,
    hnum.byteAt, toInt_toInt8_ofNat hrng.1 hrng.2, Int16.ofInt_toInt]
  rfl

theorem read_iincWide (h : code.HoldsAt position (Opcode.wide :: Opcode.iinc :: u2 index.toNat ++ i2 inc.toInt)) :
    instruction pool code position = .ok (.iinc index inc, 6) := by
  have hsize : position + 6 ≤ code.size := h.le_size (by simp)
  obtain ⟨hbyte, hrest⟩ := holdsAt_cons.1 h
  obtain ⟨hbyte', hopds⟩ := holdsAt_cons.1 hrest
  have hvar : code.HoldsAt (position + 2) (u2 index.toNat) := (holdsAt_append.1 hopds).1
  have hnum : code.HoldsAt (position + 4) (i2 inc.toInt) := (holdsAt_append.1 hopds).2
  have hsh : Opcode.wide.shape = .wide := shape_named.2.1.1
  delta instruction
  dsimp only
  rw [hbyte.byteAt, hsh]
  dsimp only
  rw [Decoding.wideForm, bind_of_ok (require_ok (by omega)), hbyte'.byteAt, hvar.u16At,
    Nat.mod_eq_of_lt index.toNat_lt, UInt16.ofNat_toNat]
  dsimp only
  rw [if_pos (by simp), bind_of_ok (require_ok hsize),
    hnum.i16At inc.le_toInt (Int.le_of_lt_add_one inc.toInt_lt), Int16.ofInt_toInt]
  rfl

/-! ### Instructions with a constant -/

theorem read_type (hop : op.shape = .type) (hi : i < 65536)
    (hent : pool.entry? i = some (.cls name)) (h : code.HoldsAt position (op :: u2 i)) :
    instruction pool code position = .ok (.type op name, 3) := by
  obtain ⟨hbyte, hnum⟩ := holdsAt_cons.1 h
  delta instruction
  dsimp only
  rw [hbyte.byteAt, hop]
  dsimp only
  rw [bind_of_ok (u16_ok hi hnum), bind_of_ok (cls_ok hent)]
  rfl

theorem read_member {instruction : Instruction Nat} (hop : op.shape = .fieldOrMethod)
    (hi : i < 65536) (hmb : member pool position op i = .ok instruction)
    (h : code.HoldsAt position (op :: u2 i)) :
    Decoding.instruction pool code position = .ok (instruction, 3) := by
  obtain ⟨hbyte, hnum⟩ := holdsAt_cons.1 h
  delta Decoding.instruction
  dsimp only
  rw [hbyte.byteAt, hop]
  dsimp only
  rw [bind_of_ok (u16_ok hi hnum), bind_of_ok hmb]
  rfl

theorem read_interfaceMethod {count : Nat} (hi : i < 65536) (hent : pool.entry? i = some (.interfaceMethodRef m))
    (h : code.HoldsAt position (invokeinterface :: u2 i ++ (u1 count ++ u1 0))) :
    instruction pool code position = .ok (.method invokeinterface m true, 5) := by
  have hsize : position + 5 ≤ code.size := h.le_size (by simp)
  obtain ⟨hbyte, hnum⟩ := holdsAt_cons.1 (holdsAt_append.1 h).1
  have hmb : member pool position invokeinterface i =
      .ok (.method invokeinterface m true) := member_method_ok (by decide) hent
  have hsh : invokeinterface.shape = .interfaceMethod := shape_named.2.2.2.1.1
  delta instruction
  dsimp only
  rw [hbyte.byteAt, hsh]
  dsimp only
  rw [bind_of_ok (require_ok hsize), hnum.u16At, Nat.mod_eq_of_lt hi, bind_of_ok hmb]
  rfl

theorem read_invokeDynamic {j : Nat} {b : BootstrapEntry} (hi : i < 65536)
    (hent : pool.entry? i = some (.invokeDynamic j name desc)) (hb : pool.bootstrap? j = some b)
    (h : code.HoldsAt position (Opcode.invokedynamic :: u2 i ++ u2 0)) :
    instruction pool code position =
      .ok (.invokeDynamic name desc b.handle b.arguments, 5) := by
  have hsize : position + 5 ≤ code.size := h.le_size (by simp)
  obtain ⟨hbyte, hnum⟩ := holdsAt_cons.1 (holdsAt_append.1 h).1
  have hsh : Opcode.invokedynamic.shape = .invokeDynamic := shape_named.2.2.2.1.2.1
  delta instruction
  dsimp only
  rw [hbyte.byteAt, hsh]
  dsimp only
  rw [bind_of_ok (require_ok hsize), hnum.u16At, Nat.mod_eq_of_lt hi,
    bind_of_ok (callSite_ok hent hb)]
  rfl

theorem read_ldc (hi : i < 256) (hent : pool.entry? i = some constant.entry)
    (h : code.HoldsAt position (Opcode.ldc :: u1 i)) :
    instruction pool code position = .ok (.ldc constant, 2) := by
  have hsize : position + 2 ≤ code.size := h.le_size (by simp)
  obtain ⟨hbyte, hnum⟩ := holdsAt_cons.1 h
  have hsh : Opcode.ldc.shape = .ldc := shape_named.2.2.1.1
  delta instruction
  dsimp only
  rw [hbyte.byteAt, hsh]
  dsimp only
  rw [bind_of_ok (require_ok hsize), hnum.byteAt, UInt8.toNat_ofNat', Nat.mod_eq_of_lt hi,
    bind_of_ok (loadable_ok hent)]
  rfl

theorem read_ldcWide (hop : op = Opcode.ldcW ∨ op = Opcode.ldc2W)
    (hi : i < 65536) (hent : pool.entry? i = some constant.entry) (h : code.HoldsAt position (op :: u2 i)) :
    instruction pool code position = .ok (.ldc constant, 3) := by
  obtain ⟨hbyte, hnum⟩ := holdsAt_cons.1 h
  have hsh : op.shape = .ldcWide := by
    rcases hop with rfl | rfl
    · exact shape_named.2.2.1.2.1
    · exact shape_named.2.2.1.2.2
  delta instruction
  dsimp only
  rw [hbyte.byteAt, hsh]
  dsimp only
  rw [bind_of_ok (u16_ok hi hnum), bind_of_ok (loadable_ok hent)]
  rfl

theorem read_multiNewArray {dimensions : UInt8} (hi : i < 65536) (hent : pool.entry? i = some (.cls desc))
    (h : code.HoldsAt position (Opcode.multianewarray :: u2 i ++ u1 dimensions.toNat)) :
    instruction pool code position = .ok (.multiNewArray desc dimensions, 4) := by
  have hsize : position + 4 ≤ code.size := h.le_size (by simp)
  obtain ⟨hbyte, hnum⟩ := holdsAt_cons.1 (holdsAt_append.1 h).1
  have hcnt : code.HoldsAt (position + 3) [UInt8.ofNat dimensions.toNat] := (holdsAt_append.1 h).2
  have hsh : Opcode.multianewarray.shape = .multiNewArray := shape_named.2.2.2.1.2.2
  delta instruction
  dsimp only
  rw [hbyte.byteAt, hsh]
  dsimp only
  rw [bind_of_ok (require_ok hsize), hnum.u16At, Nat.mod_eq_of_lt hi,
    bind_of_ok (cls_ok hent), hcnt.byteAt, UInt8.ofNat_toNat]
  rfl

/-! ### Jumps -/

theorem read_jump (hop : op.shape = .jump) (hp : p ≤ code.size)
    (hoff : (p : Int) = position + offset) (hrng : -32768 ≤ offset ∧ offset ≤ 32767)
    (h : code.HoldsAt position (op :: i2 offset)) :
    instruction pool code position = .ok (.jump op p, 3) := by
  have hsize : position + 3 ≤ code.size := h.le_size (by simp)
  obtain ⟨hbyte, hnum⟩ := holdsAt_cons.1 h
  delta instruction
  dsimp only
  rw [hbyte.byteAt, hop]
  dsimp only
  rw [bind_of_ok (require_ok hsize), hnum.i16At hrng.1 hrng.2,
    bind_of_ok (target_ok hp hoff)]
  rfl

theorem read_wideJump (hop : op = gotoW ∨ op = Opcode.jsrW)
    (hp : p ≤ code.size) (hoff : (p : Int) = position + offset)
    (hrng : -2147483648 ≤ offset ∧ offset ≤ 2147483647) (h : code.HoldsAt position (op :: i4 offset)) :
    instruction pool code position = .ok (.jump op p, 5) := by
  obtain ⟨hbyte, hnum⟩ := holdsAt_cons.1 h
  have hsh : op.shape = .wideJump := by
    rcases hop with rfl | rfl
    · exact Opcode.shape_gotoW
    · exact Opcode.shape_jsrW
  delta instruction
  dsimp only
  rw [hbyte.byteAt, hsh]
  dsimp only
  rw [bind_of_ok (i32_ok hrng.1 hrng.2 hnum), bind_of_ok (target_ok hp hoff)]
  rfl

/-! ### Switches -/

/-- The position of the operands of a switch. -/
theorem operands_eq (position : Nat) : position + 1 + (padding position).length = (position + 4) / 4 * 4 := by
  rw [padding, List.length_replicate]
  omega

/-- The offset of a position within the code fits in four bytes. -/
theorem offset_bounds (hsize : code.size < 2147483648) (hp : p ≤ code.size) (hpos : position ≤ code.size) :
    -2147483648 ≤ (p : Int) - position ∧ (p : Int) - position ≤ 2147483647 := by
  omega

theorem read_tableSwitch {low high : Int32} {f : Nat} {ps : List Nat} (hsize : code.size < 2147483648)
    (hf : f ≤ code.size) (hps : ∀ p ∈ ps, p ≤ code.size) (hcnt : high.toInt - low.toInt + 1 = ps.length)
    (hbnd : low.toInt ≤ high.toInt)
    (h : code.HoldsAt position (Opcode.tableSwitch :: (padding position ++ (i4 ((f : Int) - position) ++
      (i4 low.toInt ++ i4 high.toInt ++ ps.flatMap fun p : Nat => i4 (p - position)))))) :
    instruction pool code position =
      .ok (.tableSwitch low high f ps, (position + 4) / 4 * 4 + 12 + 4 * ps.length - position) := by
  have hpos : position ≤ code.size := Nat.le_of_add_right_le (h.le_size (by simp))
  obtain ⟨hbyte, hrest⟩ := holdsAt_cons.1 h
  have hopds := (holdsAt_append.1 hrest).2
  rw [operands_eq] at hopds
  generalize hst : (position + 4) / 4 * 4 = start at hopds ⊢
  obtain ⟨hfb, hopds⟩ := holdsAt_append.1 hopds
  have hlow : code.HoldsAt (start + 4) (i4 low.toInt) := (holdsAt_append.1 (holdsAt_append.1 hopds).1).1
  have hhigh : code.HoldsAt (start + 8) (i4 high.toInt) := (holdsAt_append.1 (holdsAt_append.1 hopds).1).2
  have htgts : code.HoldsAt (start + 12) (ps.flatMap fun p : Nat => i4 (p - position)) :=
    (holdsAt_append.1 hopds).2
  have hnum : (high.toInt - low.toInt + 1).toNat = ps.length := by omega
  have hroom : start + 12 + 4 * ps.length ≤ code.size := by
    have hend := h.le_size (by simp)
    have halign := operands_eq position
    simp only [List.length_cons, List.length_append, length_i4, length_flatMap_of_length (fun _ => length_i4 _)] at hend
    omega
  have hread : Decoding.targets code position (start + 12) ps.length = .ok ps := by
    refine mapM_range_ok fun i hi => ?_
    have hp := hps ps[i] (List.getElem_mem hi)
    have hrng := offset_bounds hsize hp hpos
    have hword := htgts.flatMap_getElem (fun _ => length_i4 _) hi
    rw [hword.i32At hrng.1 hrng.2]
    exact target_ok hp (by omega)
  have hsh : Opcode.tableSwitch.shape = .tableSwitch := shape_named.2.2.2.2.2.1
  have hrng := offset_bounds hsize hf hpos
  delta instruction
  dsimp only
  rw [hbyte.byteAt, hsh]
  dsimp only
  rw [Decoding.tableSwitch, hst, bind_of_ok (i32_ok hrng.1 hrng.2 hfb),
    bind_of_ok (target_ok hf (by omega)), bind_of_ok (i32_ok low.le_toInt
      (Int.le_of_lt_add_one low.toInt_lt) hlow), bind_of_ok (i32_ok high.le_toInt
      (Int.le_of_lt_add_one high.toInt_lt) hhigh), if_neg (by omega)]
  dsimp only
  rw [hnum, bind_of_ok (require_ok hroom), bind_of_ok hread, Int32.ofInt_toInt, Int32.ofInt_toInt]
  rfl

theorem length_pair (pair : Int32 × Nat) (position : Nat) :
    (i4 pair.1.toInt ++ i4 ((pair.2 : Int) - position)).length = 8 := rfl

theorem read_lookupSwitch {f : Nat} {pairs : List (Int32 × Nat)} (hsize : code.size < 2147483648)
    (hf : f ≤ code.size) (hps : ∀ pair ∈ pairs, pair.2 ≤ code.size)
    (h : code.HoldsAt position (Opcode.lookupSwitch :: (padding position ++ (i4 ((f : Int) - position) ++
      (i4 pairs.length ++ pairs.flatMap fun pair => i4 pair.1.toInt ++ i4 (pair.2 - position)))))) :
    instruction pool code position =
      .ok (.lookupSwitch f (pairs.map (·.1)) (pairs.map (·.2)),
        (position + 4) / 4 * 4 + 8 + 8 * pairs.length - position) := by
  have hpos : position ≤ code.size := Nat.le_of_add_right_le (h.le_size (by simp))
  have hend := h.le_size (by simp)
  simp only [List.length_cons, List.length_append, length_i4, length_flatMap_of_length (length_pair · position)] at hend
  have halign := operands_eq position
  obtain ⟨hbyte, hrest⟩ := holdsAt_cons.1 h
  have hopds := (holdsAt_append.1 hrest).2
  rw [operands_eq] at hopds
  generalize hst : (position + 4) / 4 * 4 = start at hopds halign ⊢
  obtain ⟨hfb, hopds⟩ := holdsAt_append.1 hopds
  have hcnt : code.HoldsAt (start + 4) (i4 pairs.length) := (holdsAt_append.1 hopds).1
  have hpairs : code.HoldsAt (start + 8) (pairs.flatMap fun pair => i4 pair.1.toInt ++ i4 (pair.2 - position)) :=
    (holdsAt_append.1 hopds).2
  have hread : Decoding.pairs code position (start + 8) pairs.length = .ok pairs := by
    refine mapM_range_ok fun i hi => ?_
    have hp := hps pairs[i] (List.getElem_mem hi)
    have hrng := offset_bounds hsize hp hpos
    obtain ⟨hkey, hword⟩ := holdsAt_append.1 (hpairs.flatMap_getElem (length_pair · position) hi)
    rw [length_i4] at hword
    rw [hkey.i32At pairs[i].1.le_toInt (Int.le_of_lt_add_one pairs[i].1.toInt_lt), hword.i32At hrng.1 hrng.2]
    dsimp only
    rw [bind_of_ok (target_ok hp (by omega)), Int32.ofInt_toInt]
    rfl
  have hsh : Opcode.lookupSwitch.shape = .lookupSwitch := shape_named.2.2.2.2.2.2
  have hrng := offset_bounds hsize hf hpos
  delta instruction
  dsimp only
  rw [hbyte.byteAt, hsh]
  dsimp only
  rw [Decoding.lookupSwitch, hst, bind_of_ok (i32_ok hrng.1 hrng.2 hfb),
    bind_of_ok (target_ok hf (by omega)), bind_of_ok (i32_ok (by omega) (by omega) hcnt),
    if_neg (by omega)]
  dsimp only
  rw [Int.toNat_natCast, bind_of_ok (require_ok (by omega)), bind_of_ok hread]
  rfl

/-! ### All instructions -/

/-- Instructions are read one after the other, from a position to another. -/
inductive Reads (pool : Pool) (code : Bytes) : Nat → List (Nat × Instruction Nat) → Nat → Prop
  | nil (position : Nat) : Reads pool code position [] position
  | cons {position length next : Nat} {i : Instruction Nat} {rest : List (Nat × Instruction Nat)}
      (hread : instruction pool code position = .ok (i, length)) (hlen : 0 < length)
      (hrest : Reads pool code (position + length) rest next) :
      Reads pool code position ((position, i) :: rest) next

theorem Reads.single {i : Instruction Nat}
    (hread : instruction pool code position = .ok (i, length)) (hlen : 0 < length) :
    Reads pool code position [(position, i)] (position + length) := .cons hread hlen (.nil _)

theorem Reads.append {stop : Nat} {entries' : List (Nat × Instruction Nat)}
    (h : Reads pool code position entries next) (h' : Reads pool code next entries' stop) :
    Reads pool code position (entries ++ entries') stop := by
  induction h with
  | nil => exact h'
  | cons hread hlen _ ih => exact .cons hread hlen (ih h')

theorem Reads.le (h : Reads pool code position entries next) : position ≤ next := by
  induction h with
  | nil => exact Nat.le_refl _
  | cons _ _ _ ih => exact Nat.le_of_add_right_le ih

theorem Reads.decodeFrom (h : Reads pool code position entries next) (hnext : next = code.size) {fuel : Nat}
    (hfuel : code.size ≤ position + fuel) (done : Array (Nat × Instruction Nat)) :
    Decoding.decodeFrom pool code fuel position done = .ok (done ++ entries.toArray) := by
  induction h generalizing fuel done with
  | nil position =>
    subst hnext
    cases fuel with
    | zero => simp [Decoding.decodeFrom]
    | succ fuel => simp [Decoding.decodeFrom]
  | cons hread hlen hrest ih =>
    have hle := hrest.le
    cases fuel with
    | zero => omega
    | succ fuel =>
      rw [Decoding.decodeFrom, if_pos (by omega), bind_of_ok hread]
      dsimp only
      rw [ih hnext (by omega)]
      simp

/-- Code that can be read to its end decodes to what is read. -/
theorem Reads.decode (h : Reads pool code 0 entries code.size) :
    Decoding.decode pool code = .ok entries := by
  rw [Decoding.decode, bind_of_ok (h.decodeFrom rfl (by omega) #[])]
  simp [pure, Except.pure]

/-! ### Instructions without labels, from their bytes -/

theorem Reads.ofLength {i : Instruction Nat}
    (hread : instruction pool code position = .ok (i, length)) (hlen : 0 < length)
    (hbs : bs.length = length) : Reads pool code position [(position, i)] (position + bs.length) := by
  rw [hbs]
  exact .single hread hlen

/-- A pool that has the row of a constant. -/
theorem row_of_bytes {m : PoolM Nat} {f : Nat → List UInt8}
    (h : (do return f (← m) : PoolM (List UInt8)) pool = .ok bs pool) : ∃ row, m pool = .ok row pool ∧ bs = f row := by
  obtain ⟨row, pool₁, hrow, h⟩ := run_bind_ok.1 h
  obtain ⟨rfl, rfl⟩ := run_pure_ok.1 h
  exact ⟨row, hrow, rfl⟩

theorem reads_int (hvld : Valid (.int op operand : Instruction Label))
    (h : code.HoldsAt position (op :: if op = sipush then i2 operand.toInt else u1 (operand.toInt % 256).toNat)) :
    Reads pool code position [(position, .int op operand)]
      (position + (op :: if op = sipush then i2 operand.toInt else u1 (operand.toInt % 256).toNat).length) := by
  obtain ⟨low, high, hrng, hlow, hhigh⟩ := hvld
  by_cases hshort : op = sipush
  · subst hshort
    cases hrng
    rw [if_pos rfl] at h ⊢
    exact .ofLength (read_short ⟨hlow, hhigh⟩ h) (by decide) rfl
  · rw [if_neg hshort] at h ⊢
    refine .ofLength (read_byte ?_ h) (by decide) rfl
    unfold intRange? at hrng
    rw [if_neg hshort] at hrng
    split at hrng
    · cases hrng
      exact .inl ⟨‹_›, hlow, hhigh⟩
    · split at hrng
      · cases hrng
        exact .inr ⟨‹_›, hlow, hhigh⟩
      · cases hrng

theorem reads_iinc (hbs : bs = if 255 < index.toNat ∨ inc.toInt < -128 ∨ 127 < inc.toInt then
        Opcode.wide :: Opcode.iinc :: u2 index.toNat ++ i2 inc.toInt
      else Opcode.iinc :: u1 index.toNat ++ u1 (inc.toInt % 256).toNat) (h : code.HoldsAt position bs) :
    Reads pool code position [(position, .iinc index inc)] (position + bs.length) := by
  split at hbs
  · subst hbs
    exact .ofLength (read_iincWide h) (by decide) rfl
  · subst hbs
    exact .ofLength (read_iinc (by omega) (by omega) h) (by decide) rfl

theorem reads_method {isInterface : Bool} {row : Nat} (hpool : pool.Sound) (hop : op.isInvocation = true)
    (hent : pool.entry? row = some (methodEntry m (isInterface || op == invokeinterface)))
    (hbs : bs = op :: u2 row ++ if op == invokeinterface then u1 (argumentCount m) ++ u1 0 else [])
    (h : code.HoldsAt position bs) :
    Reads pool code position [(position, .method op m (isInterface || op == invokeinterface))]
      (position + bs.length) := by
  subst hbs
  by_cases hcls : op = invokeinterface
  · subst hcls
    simp only [BEq.rfl, if_true, Bool.or_true] at h hent ⊢
    exact .ofLength (read_interfaceMethod (hpool.lt_of_entry hent) hent h) (by decide) rfl
  · have hfalse : (op == invokeinterface) = false := beq_eq_false_iff_ne.2 hcls
    simp only [hfalse, Bool.false_eq_true, if_false, List.append_nil] at h hent ⊢
    exact .ofLength (read_member (op.shape_of_isInvocation hop hcls) (hpool.lt_of_entry hent)
      (member_method_ok hop hent) h) (by decide) rfl

theorem reads_ldc {row : Nat} (hpool : pool.Sound) (hent : pool.entry? row = some constant.entry) (hbs : bs = if constant.isWide then Opcode.ldc2W :: u2 row
      else if 256 ≤ row then Opcode.ldcW :: u2 row else Opcode.ldc :: u1 row) (h : code.HoldsAt position bs) :
    Reads pool code position [(position, .ldc constant)] (position + bs.length) := by
  have hrow := hpool.lt_of_entry hent
  split at hbs
  · subst hbs
    exact .ofLength (read_ldcWide (.inr rfl) hrow hent h) (by decide) rfl
  · split at hbs
    · subst hbs
      exact .ofLength (read_ldcWide (.inl rfl) hrow hent h) (by decide) rfl
    · subst hbs
      exact .ofLength (read_ldc (by omega) hent h) (by decide) rfl

/-- **An instruction without labels** is read back from its bytes, if its constants are in the pool. -/
theorem reads_plain (place : Label → Nat) {i : Instruction Label} (hi : hasLabels i = false)
    (hpool : pool.Sound) (hvld : Valid i) (hbytes : plainBytes i pool = .ok bs pool) (h : code.HoldsAt position bs) :
    Reads pool code position (decoded place position i) (position + bs.length) := by
  cases i with
  | jump | tableSwitch | lookupSwitch => cases hi
  | plain op =>
    obtain ⟨rfl, -⟩ := run_pure_ok.1 hbytes
    exact .ofLength (read_plain hvld h) (by decide) rfl
  | int op operand =>
    obtain ⟨rfl, -⟩ := run_pure_ok.1 hbytes
    exact reads_int hvld h
  | var op index =>
    obtain ⟨rfl, -⟩ := run_pure_ok.1 hbytes
    refine .ofLength (read_var hvld h) ?_ rfl
    unfold localForm
    split
    · simp
    · split <;> simp
  | iinc index inc =>
    obtain ⟨rfl, -⟩ := run_pure_ok.1 hbytes
    exact reads_iinc rfl h
  | type op name =>
    obtain ⟨row, hrow, rfl⟩ := row_of_bytes hbytes
    have hent := (Pool.interning_cls _).stands hpool hrow
    exact .ofLength (read_type hvld (hpool.lt_of_entry hent) hent h) (by decide) rfl
  | field op m =>
    obtain ⟨row, hrow, rfl⟩ := row_of_bytes hbytes
    have hent := (Pool.interning_fieldRef _ _ _).stands hpool hrow
    exact .ofLength (read_member (Opcode.shape_of_isFieldAccess _ hvld.1) (hpool.lt_of_entry hent)
      (member_field_ok hvld.1 hent) h) (by decide) rfl
  | method op m isInterface =>
    obtain ⟨row, hrow, hbs⟩ := row_of_bytes hbytes
    have hent := (Pool.interning_methodRef _ _ _ _).stands hpool hrow
    exact reads_method hpool hvld.1 hent hbs h
  | invokeDynamic name text bootstrap arguments =>
    obtain ⟨row, hrow, rfl⟩ := row_of_bytes hbytes
    obtain ⟨j, b, hent, hboot, rfl, rfl⟩ := Pool.invokeDynamic_ok hpool hrow
    exact .ofLength (read_invokeDynamic (hpool.lt_of_entry hent) hent hboot h) (by decide) rfl
  | ldc constant =>
    obtain ⟨row, hrow, hbs⟩ := row_of_bytes hbytes
    have hent := (Pool.interning_loadable _).stands hpool hrow
    exact reads_ldc hpool hent hbs h
  | multiNewArray desc dimensions =>
    obtain ⟨row, hrow, rfl⟩ := row_of_bytes hbytes
    have hent := (Pool.interning_cls _).stands hpool hrow
    exact .ofLength (read_multiNewArray (hpool.lt_of_entry hent) hent h) (by decide) rfl

/-! ### Instructions with labels, from their chunks -/

variable {place : Label → Option Nat}

/-- All labels that chunks refer to are placed, and not too far behind short jumps. -/
structure Final (place : Label → Option Nat) (code : Bytes) (chunks : List Chunk) : Prop where
  placed : ∀ c ∈ chunks, ∀ l, c.label? = some l → ∃ p, place l = some p ∧ p ≤ code.size
  fits : ∀ op l, ∀ source p : Nat, .short op l source ∈ chunks → place l = some p → (p : Int) - source ≤ 32767

def positionIn (place : Label → Option Nat) (lbl : Label) : Nat := (place lbl).getD 0

theorem Final.positionIn (h : Final place code chunks) {c : Chunk} (hc : c ∈ chunks) {l : Label}
    (hl : c.label? = some l) : place l = some (positionIn place l) ∧ positionIn place l ≤ code.size := by
  obtain ⟨p, hp, hle⟩ := h.placed c hc l hl
  have hpos : Encoding.positionIn place l = p := by rw [Encoding.positionIn, hp, Option.getD_some]
  rw [hpos]
  exact ⟨hp, hle⟩

theorem render_targets {labels : List Label} (h : ∀ l ∈ labels, place l = some (positionIn place l)) :
    render place (labels.map (.wide · src)) =
      (labels.map (positionIn place)).flatMap fun p : Nat => i4 (p - src) := by
  induction labels with
  | nil => rfl
  | cons l labels ih =>
    obtain ⟨hl, hlabs⟩ := List.forall_mem_cons.1 h
    rw [List.map_cons, render_cons, Chunk.render, offsetTo_of_placed hl, ih hlabs, List.map_cons, List.flatMap_cons]

theorem render_pairs {pairs : List (Int32 × Label)} (h : ∀ pair ∈ pairs, place pair.2 = some (positionIn place pair.2)) :
    render place (pairs.flatMap fun pair => [.bytes (i4 pair.1.toInt), .wide pair.2 src]) =
      (pairs.map fun pair => (pair.1, positionIn place pair.2)).flatMap fun pair : Int32 × Nat =>
        i4 pair.1.toInt ++ i4 (pair.2 - src) := by
  induction pairs with
  | nil => rfl
  | cons pair pairs ih =>
    obtain ⟨hpair, hpairs⟩ := List.forall_mem_cons.1 h
    rw [List.flatMap_cons, render_append, ih hpairs, List.map_cons, List.flatMap_cons, render_cons, render_cons,
      Chunk.render, Chunk.render, offsetTo_of_placed hpair, render_nil, List.append_nil]

theorem reads_jump (hop : op.isShortJump = true) (hnear : ∀ p : Nat, place lbl = some p → -32768 ≤ (p : Int) - position)
    (hfinal : Final place code [.short op lbl position])
    (h : code.HoldsAt position (render place [.short op lbl position])) :
    Reads pool code position (decoded (positionIn place) position (.jump op lbl)) (position + 3) := by
  obtain ⟨hpl, hle⟩ := hfinal.positionIn List.mem_cons_self rfl
  have hlow := hnear _ hpl
  have hhigh := hfinal.fits op lbl position _ List.mem_cons_self hpl
  have hfits : Widening.fitsShort ((positionIn place lbl : Int) - position) = true := by
    simp only [Widening.fitsShort, Bool.and_eq_true, decide_eq_true_iff]
    exact ⟨hlow, hhigh⟩
  rw [decoded, if_neg (by omega)]
  refine .single (read_jump (op.shape_of_isShortJump hop) hle (by omega) ⟨hlow, hhigh⟩ ?_) (by omega)
  rw [render_cons, Chunk.render, offsetTo_of_placed hpl, Chunk.jump, if_pos hfits] at h
  simpa using h

theorem reads_wideJump (hop : op = gotoW ∨ op = Opcode.jsrW)
    (hsize : code.size < 2147483648) (hfinal : Final place code [.bytes [op], .wide lbl src])
    (h : code.HoldsAt src (render place [.bytes [op], .wide lbl src])) :
    Reads pool code src [(src, .jump op (positionIn place lbl))] (src + 5) := by
  obtain ⟨hpl, hle⟩ := hfinal.positionIn (c := .wide lbl src) (by simp) rfl
  have hsrc : src ≤ code.size := Nat.le_of_add_right_le (h.le_size (by simp [Chunk.render]))
  refine .single (read_wideJump hop hle (by omega) (offset_bounds hsize hle hsrc) ?_) (by omega)
  rw [render_cons, render_cons, Chunk.render, Chunk.render, offsetTo_of_placed hpl] at h
  simpa using h

theorem reads_farCondition (hop : op.isShortJump = true)
    (hcondition : op ≠ Opcode.goto ∧ op ≠ Opcode.jsr) (hsize : code.size < 2147483648)
    (hfinal : Final place code [.bytes (op.invert :: u2 8), .bytes [gotoW], .wide lbl (position + 3)])
    (h : code.HoldsAt position (render place
      [.bytes (op.invert :: u2 8), .bytes [gotoW], .wide lbl (position + 3)])) :
    Reads pool code position [(position, .jump op.invert (position + 8)),
      (position + 3, .jump gotoW (positionIn place lbl))] (position + 8) := by
  have hend : position + 8 ≤ code.size := h.le_size (by simp [Chunk.render])
  rw [render_cons] at h
  have hinvert : code.HoldsAt position (op.invert :: i2 8) := (holdsAt_append.1 h).1
  have hgoto := (holdsAt_append.1 h).2
  have hcond : ControlFlow.isConditional op = true := by
    simp [ControlFlow.isConditional, op.shape_of_isShortJump hop, hcondition]
  have hrest : Final place code [.bytes [gotoW], .wide lbl (position + 3)] :=
    ⟨fun c hc => hfinal.placed c (List.mem_cons_of_mem _ hc), fun op l src p hc =>
      hfinal.fits op l src p (List.mem_cons_of_mem _ hc)⟩
  exact .cons (read_jump (ControlFlow.shape_invert op hcond) hend (by omega) (by omega) hinvert)
    (Nat.succ_pos 2) (reads_wideJump (.inl rfl) hsize hrest hgoto)

theorem reads_tableSwitch {low high : Int32} {dflt : Label} {targets : List Label}
    (hvld : Valid (.tableSwitch low high dflt targets)) (hsize : code.size < 2147483648)
    (hchunks : chunks = [.bytes [Opcode.tableSwitch], .bytes (padding position), .wide dflt position,
      .bytes (i4 low.toInt ++ i4 high.toInt)] ++ targets.map (.wide · position))
    (hfinal : Final place code chunks) (h : code.HoldsAt position (render place chunks)) :
    Reads pool code position (decoded (positionIn place) position (.tableSwitch low high dflt targets))
      (position + size chunks) := by
  obtain ⟨hbnd, hcnt⟩ := hvld
  obtain ⟨hpl, hle⟩ := hfinal.positionIn (c := .wide dflt position) (l := dflt) (by simp [hchunks]) rfl
  have htgts : ∀ l ∈ targets, place l = some (positionIn place l) ∧ positionIn place l ≤ code.size :=
    fun l hl => hfinal.positionIn (c := .wide l position) (by simp [hchunks, hl]) rfl
  have hrender : render place chunks =
      Opcode.tableSwitch :: (padding position ++ (i4 ((positionIn place dflt : Int) - position) ++
        (i4 low.toInt ++ i4 high.toInt ++
          (targets.map (positionIn place)).flatMap fun p : Nat => i4 (p - position)))) := by
    rw [hchunks, render_append, render_targets fun l hl => (htgts l hl).1]
    simp [Chunk.render, offsetTo_of_placed hpl]
  have hread := @read_tableSwitch pool code position low high _ _ hsize hle
    (by simpa using fun l hl => (htgts l hl).2) (by simpa using hcnt) hbnd (hrender ▸ h)
  have halign := operands_eq position
  have hlen := length_render place chunks
  rw [hrender] at hlen
  simp only [List.length_cons, List.length_append, length_i4, length_flatMap_of_length (fun _ => length_i4 _),
    List.length_map] at hlen
  have hnext : position + size chunks =
      position + ((position + 4) / 4 * 4 + 12 + 4 * (targets.map (positionIn place)).length - position) := by
    rw [List.length_map]
    omega
  rw [hnext]
  exact .single hread (by omega)

theorem reads_lookupSwitch {dflt : Label} {keys : List Int32} {targets : List Label}
    (hcnt : keys.length = targets.length) (hsize : code.size < 2147483648)
    (hchunks : chunks = [.bytes [Opcode.lookupSwitch], .bytes (padding position), .wide dflt position,
      .bytes (i4 keys.length)] ++
      (keys.zip targets).flatMap fun pair => [.bytes (i4 pair.1.toInt), .wide pair.2 position])
    (hfinal : Final place code chunks) (h : code.HoldsAt position (render place chunks)) :
    Reads pool code position (decoded (positionIn place) position (.lookupSwitch dflt keys targets))
      (position + size chunks) := by
  obtain ⟨hpl, hle⟩ := hfinal.positionIn (c := .wide dflt position) (l := dflt) (by simp [hchunks]) rfl
  have hpairs : ∀ pair ∈ keys.zip targets,
      place pair.2 = some (positionIn place pair.2) ∧ positionIn place pair.2 ≤ code.size := by
    intro pair hpair
    refine hfinal.positionIn (c := .wide pair.2 position) ?_ rfl
    rw [hchunks]
    exact List.mem_append_right _ (List.mem_flatMap.2 ⟨pair, hpair, by simp⟩)
  have hzip : keys.length = (keys.zip targets).length := by rw [List.length_zip, hcnt, Nat.min_self]
  have hrender : render place chunks =
      Opcode.lookupSwitch :: (padding position ++ (i4 ((positionIn place dflt : Int) - position) ++
        (i4 ((keys.zip targets).map fun pair => (pair.1, positionIn place pair.2)).length ++
          ((keys.zip targets).map fun pair => (pair.1, positionIn place pair.2)).flatMap
            fun pair : Int32 × Nat => i4 pair.1.toInt ++ i4 (pair.2 - position)))) := by
    rw [hchunks, render_append, render_pairs fun pair hpair => (hpairs pair hpair).1, List.length_map, ← hzip]
    simp [Chunk.render, offsetTo_of_placed hpl]
  have hread := @read_lookupSwitch pool code position _ _ hsize hle (by
    intro pair hpair
    obtain ⟨pair', hpair', rfl⟩ := List.mem_map.1 hpair
    exact (hpairs pair' hpair').2) (hrender ▸ h)
  have halign := operands_eq position
  have hlen := length_render place chunks
  rw [hrender] at hlen
  simp only [List.length_cons, List.length_append, length_i4,
    length_flatMap_of_length (length_pair · position), List.length_map] at hlen
  have hnext : position + size chunks = position +
      ((position + 4) / 4 * 4 + 8 + 8 * ((keys.zip targets).map fun pair => (pair.1, positionIn place pair.2)).length -
        position) := by
    rw [List.length_map]
    omega
  have hkeys : ((keys.zip targets).map fun pair => (pair.1, positionIn place pair.2)).map (·.1) = keys := by
    rw [List.map_map]
    exact List.map_fst_zip (Nat.le_of_eq hcnt)
  have htgts : ((keys.zip targets).map fun pair => (pair.1, positionIn place pair.2)).map (·.2) =
      targets.map (positionIn place) := by
    rw [List.map_map]
    have hsec := congrArg (List.map (positionIn place)) (List.map_snd_zip (Nat.le_of_eq hcnt.symm))
    rwa [List.map_map] at hsec
  rw [hkeys, htgts] at hread
  rw [hnext]
  exact .single hread (by omega)

/-- **Every line reads as its instruction.** -/
theorem reads_line {line : Line} (hpool : pool.Sound) (hsize : code.size < 2147483648)
    (h : line.Sound place pool position) (hfinal : Final place code line.chunks)
    (hhold : code.HoldsAt position (render place line.chunks)) :
    Reads pool code position (decoded (positionIn place) position line.instruction) (position + size line.chunks) := by
  obtain ⟨i, bs, chunks⟩ := line
  obtain ⟨hvld, hform, hset⟩ := h
  dsimp only at hvld hform hset hfinal hhold ⊢
  cases hform with
  | plain hi =>
    have hread := reads_plain (positionIn place) hi hpool hvld (hset pool (Std.Refl.refl _))
      (by simpa [Chunk.render] using hhold)
    simpa [Chunk.length] using hread
  | jump hop hnear => exact reads_jump hop hnear hfinal hhold
  | @wideJump op lbl hop =>
    have hwide : op.isShortJump = false := by rcases hop with rfl | rfl <;> decide
    rw [decoded, if_neg (by simp [hwide])]
    exact reads_wideJump hop hsize hfinal hhold
  | @farJump op op' lbl p hop hp hfar =>
    have hpos : positionIn place lbl = p := by rw [positionIn, hp, Option.getD_some]
    rcases hop with ⟨rfl, rfl⟩ | ⟨rfl, rfl⟩
    · rw [decoded, if_pos ⟨by decide, by omega⟩, if_pos rfl]
      exact reads_wideJump (.inl rfl) hsize hfinal hhold
    · rw [decoded, if_pos ⟨by decide, by omega⟩, if_neg (by decide), if_pos rfl]
      exact reads_wideJump (.inr rfl) hsize hfinal hhold
  | @farCondition op lbl p hop hcondition hp hfar =>
    have hpos : positionIn place lbl = p := by rw [positionIn, hp, Option.getD_some]
    rw [decoded, if_pos ⟨hop, by omega⟩, if_neg hcondition.1, if_neg hcondition.2]
    exact reads_farCondition hop hcondition hsize hfinal hhold
  | tableSwitch => exact reads_tableSwitch hvld hsize rfl hfinal hhold
  | lookupSwitch => exact reads_lookupSwitch hvld.1 hsize rfl hfinal hhold

end Encoding

end JvmAssembler
