import JvmAssembler.Opcode

/-!
# JvmAssembler.Proofs.Opcode

Facts about the instruction set that are decided by going through all opcodes.
-/

namespace JvmAssembler

namespace Opcode

theorem forall_opcode {P : Opcode → Prop} (h : ∀ n : Fin 256, P (UInt8.ofNat n.val)) (op : Opcode) :
    P op := by
  simpa using h ⟨op.toNat, op.toNat_lt⟩

/-! ### Opcodes by name -/

/-- The layouts of the opcodes that have a name and an operand. -/
theorem shape_named :
    (bipush.shape = .byte ∧ newarray.shape = .byte ∧ sipush.shape = .short) ∧
      (wide.shape = .wide ∧ iinc.shape = .iinc) ∧
      (ldc.shape = .ldc ∧ ldcW.shape = .ldcWide ∧ ldc2W.shape = .ldcWide) ∧
      (invokeinterface.shape = .interfaceMethod ∧ invokedynamic.shape = .invokeDynamic ∧
        multianewarray.shape = .multiNewArray) ∧
      (gotoW.shape = .wideJump ∧ jsrW.shape = .wideJump) ∧
      (tableSwitch.shape = .tableSwitch ∧ lookupSwitch.shape = .lookupSwitch) := by
  decide +kernel

theorem shape_gotoW : gotoW.shape = .wideJump := shape_named.2.2.2.2.1.1

theorem shape_jsrW : jsrW.shape = .wideJump := shape_named.2.2.2.2.1.2

/-! ### Kinds of opcodes -/

/-- The layouts and effects of the opcodes of each kind, what becomes of markers, and what inverting a condition does. -/
theorem of_kind (op : Opcode) :
    ((op.shape = .oversizedJump → op.unmark.shape = .jump) ∧ (op.shape ≠ .oversizedJump → op.isMarker = false) ∧
      (op.isShortJump = true → op.shape = .jump) ∧ (op.isFieldAccess = true → op.shape = .fieldOrMethod) ∧
      (op.isInvocation = true → op ≠ invokeinterface → op.shape = .fieldOrMethod) ∧
      ((op.isLocalAccess || op = ret) = true → op.shape = .var) ∧
      (op.isLocalAccess = true → ∀ var : Fin 4, (op.implicitForm var).shape = .implicitVar ∧
        (op.implicitForm var).explicitForm = (op, UInt16.ofNat var.val))) ∧
    ((op.isFieldAccess = true → ∃ onObject writes, op.effect = .field onObject writes) ∧
      (op.isInvocation = true → op.effect = .invoke (op != invokestatic) ∧ op.isFieldAccess = false) ∧
      (op.shape = .type → op.effect ≠ .newMultiArray) ∧
      (op.shape = .tableSwitch → op = tableSwitch) ∧ (op.shape = .lookupSwitch → op = lookupSwitch)) ∧
    (op.shape = .jump → op ≠ goto → op ≠ jsr →
      op.invert.shape = .jump ∧ op.invert ≠ goto ∧ op.invert ≠ jsr ∧ op.invert.invert = op) := by
  revert op
  refine forall_opcode fun n => ⟨?_, ?_, ?_⟩ <;> revert n <;> decide +kernel

theorem shape_unmark (op : Opcode) : op.shape = .oversizedJump → op.unmark.shape = .jump := op.of_kind.1.1

theorem isMarker_eq_false (op : Opcode) : op.shape ≠ .oversizedJump → op.isMarker = false := op.of_kind.1.2.1

theorem shape_of_isShortJump (op : Opcode) : op.isShortJump = true → op.shape = .jump := op.of_kind.1.2.2.1

theorem shape_of_isFieldAccess (op : Opcode) : op.isFieldAccess = true → op.shape = .fieldOrMethod :=
  op.of_kind.1.2.2.2.1

theorem shape_of_isInvocation (op : Opcode) :
    op.isInvocation = true → op ≠ invokeinterface → op.shape = .fieldOrMethod := op.of_kind.1.2.2.2.2.1

theorem shape_of_isLocalAccess (op : Opcode) : (op.isLocalAccess || op = ret) = true → op.shape = .var :=
  op.of_kind.1.2.2.2.2.2.1

/-- The opcode that holds a local in itself stands for the access to that local. -/
theorem explicitForm_implicitForm (op : Opcode) : op.isLocalAccess = true → ∀ var : Fin 4,
    (op.implicitForm var).shape = .implicitVar ∧
      (op.implicitForm var).explicitForm = (op, UInt16.ofNat var.val) := op.of_kind.1.2.2.2.2.2.2

end Opcode

end JvmAssembler
