import JvmAssembler.Proofs.Widening.Carried

/-!
# JvmAssembler.Proofs.Widening.Simulation

Widening preserves the program.

Every instruction is carried over to where the layout says (`Carried`), so the two control flow graphs have the same
edges. Only the inverted form of a conditional jump makes an edge longer: it ends in a wide jump from where
control can go nowhere else (`Forwards`).
-/

namespace JvmAssembler

namespace Widening

open ControlFlow

/-- From `m`, control goes on to `q` and nowhere else. -/
def Forwards (code : Bytes) (m q : Nat) : Prop :=
  Step code m .goto q ∧ ∀ a q', Step code m a q' → a = .goto ∧ q' = q

/-- The new position of `q` has been reached, or will be. -/
def Arrived (new : Bytes) (move : Nat → Nat) (m q : Nat) : Prop := m = move q ∨ Forwards new m (move q)

/-- The edges from an old position and those from its new position correspond. -/
structure Simulates (old new : Bytes) (move : Nat → Nat) : Prop where
  forward : ∀ p a q, Boundary old p → Step old p a q →
    ∃ m, Step new (move p) a m ∧ Arrived new move m q
  backward : ∀ p a m, Boundary old p → Step new (move p) a m →
    ∃ q, Step old p a q ∧ Arrived new move m q

/-- What it means that widened code is the same program. -/
structure Preserves (old : Bytes) (r : Widened) : Prop where
  /-- The new code is read without a gap, up to its end. -/
  readable : Boundary r.code r.code.size
  unmarked : ∀ q, Boundary r.code q → q < r.code.size → Opcode.isMarker (r.code.byteAt q) = false
  carried : ∀ p stop node, Boundary old p → vertexAt? old p = some (node, stop) →
    Carried r.code r.layout.newPosition p stop node
  simulates : Simulates old r.code r.layout.newPosition
  length : r.code.size = r.layout.newPosition old.size

section Graphs

variable {old new : Bytes} {move : Nat → Nat} {p stop : Nat} {node : Vertex}

/-- Only the conditional jumps have a condition. -/
theorem isConditional_unconditional :
    ∀ op ∈ [Opcode.goto, Opcode.jsr, Opcode.gotoW, Opcode.jsrW], isConditional op = false := by
  decide +kernel

variable {a : Action} {q : Nat}

/-- The edges from a jump. -/
theorem step_of_jump {code : Bytes} {op : Opcode} {t : Int}
    (hnode : vertexAt? code p = some (.jump op t, stop)) (hstep : Step code p a q) :
    (a = .goto ∧ (op = Opcode.goto ∨ op = Opcode.gotoW) ∧ t = q) ∨
      (a = .call ∧ (op = Opcode.jsr ∨ op = Opcode.jsrW) ∧ t = q) ∨
      (isConditional op = true ∧ ((a = .holds op ∧ t = q) ∨ (a = .holds op.invert ∧ q = stop))) := by
  cases hstep with
  | goto hnode' hop => cases hnode.symm.trans hnode'; exact .inl ⟨rfl, hop, rfl⟩
  | call hnode' hop => cases hnode.symm.trans hnode'; exact .inr (.inl ⟨rfl, hop, rfl⟩)
  | taken hnode' hop => cases hnode.symm.trans hnode'; exact .inr (.inr ⟨hop, .inl ⟨rfl, rfl⟩⟩)
  | passed hnode' hop => cases hnode.symm.trans hnode'; exact .inr (.inr ⟨hop, .inr ⟨rfl, rfl⟩⟩)
  | execute hnode' | arm hnode' | fallback hnode' => cases hnode.symm.trans hnode'

/-- From a wide jump control goes to its target only. -/
theorem Finished.forwards {m stop : Nat} (h : Finished new m (.jump Opcode.gotoW q) stop) :
    Forwards new m q := by
  refine ⟨.goto h.1 (.inr rfl), fun a q' hstep => ?_⟩
  rcases step_of_jump h.1 hstep with ⟨rfl, _, heq⟩ | ⟨_, hop, _⟩ | ⟨hop, _⟩
  · exact ⟨rfl, (Int.natCast_inj.1 heq).symm⟩
  · exact absurd hop (by decide)
  · rw [isConditional_unconditional _ (by simp)] at hop
    cases hop

/-- An edge of the old graph is an edge of the new one. -/
theorem Carried.forward (hnode : vertexAt? old p = some (node, stop)) (h : Carried new move p stop node) (hstep : Step old p a q) : ∃ m, Step new (move p) a m ∧ Arrived new move m q := by
  cases hstep with
  | execute hnode' hfalls =>
    cases hnode.symm.trans hnode'
    cases h with
    | kept hnew => exact ⟨_, .execute hnew.1 hfalls, .inl rfl⟩
  | goto hnode' hop =>
    cases hnode.symm.trans hnode'
    cases h with
    | kept hnew => exact ⟨_, .goto hnew.1 hop, .inl rfl⟩
    | wideGoto hnew => exact ⟨_, .goto hnew.1 (.inr rfl), .inl rfl⟩
    | wideCall hnew => exact absurd hop (by decide)
    | inverted hcond _ _ =>
      rw [isConditional_unconditional _ (by rcases hop with rfl | rfl <;> simp)] at hcond
      cases hcond
  | call hnode' hop =>
    cases hnode.symm.trans hnode'
    cases h with
    | kept hnew => exact ⟨_, .call hnew.1 hop, .inl rfl⟩
    | wideGoto hnew => exact absurd hop (by decide)
    | wideCall hnew => exact ⟨_, .call hnew.1 (.inr rfl), .inl rfl⟩
    | inverted hcond _ _ =>
      rw [isConditional_unconditional _ (by rcases hop with rfl | rfl <;> simp)] at hcond
      cases hcond
  | @taken _ q op hnode' hop =>
    cases hnode.symm.trans hnode'
    cases h with
    | kept hnew => exact ⟨_, .taken hnew.1 hop, .inl rfl⟩
    | wideGoto _ | wideCall _ => rw [isConditional_unconditional _ (by simp)] at hop; cases hop
    | inverted _ hover hwide =>
      -- the condition holds, so the inverted jump is not taken
      have hpassed := Step.passed hover.1 (isConditional_invert op hop)
      rw [invert_invert op hop] at hpassed
      exact ⟨_, hpassed, .inr hwide.forwards⟩
  | @passed _ op _ hnode' hop =>
    cases hnode.symm.trans hnode'
    cases h with
    | kept hnew => exact ⟨_, .passed hnew.1 hop, .inl rfl⟩
    | wideGoto _ | wideCall _ => rw [isConditional_unconditional _ (by simp)] at hop; cases hop
    | inverted _ hover _ => exact ⟨_, .taken hover.1 (isConditional_invert op hop), .inl rfl⟩
  | arm hnode' hmem =>
    cases hnode.symm.trans hnode'
    cases h with
    | kept hnew => exact ⟨_, .arm hnew.1 (List.mem_map.2 ⟨_, hmem, rfl⟩), .inl rfl⟩
  | fallback hnode' =>
    cases hnode.symm.trans hnode'
    cases h with
    | kept hnew => exact ⟨_, .fallback hnew.1, .inl rfl⟩

/-- An edge of the new graph is an edge of the old one. -/
theorem Carried.backward (hnode : vertexAt? old p = some (node, stop)) (h : Carried new move p stop node)
    (htgts : ∀ t ∈ node.targets, ∃ q : Nat, t = q) {m : Nat} (hstep : Step new (move p) a m) :
    ∃ q, Step old p a q ∧ Arrived new move m q := by
  cases h with
  | kept hnew =>
    cases node with
    | straight bytes =>
      cases hstep with
      | execute hnode' hfalls =>
        cases hnew.1.symm.trans hnode'
        exact ⟨_, .execute hnode hfalls, .inl rfl⟩
      | goto hnode' | call hnode' | taken hnode' | passed hnode' | arm hnode' | fallback hnode' =>
        cases hnew.1.symm.trans hnode'
    | jump op t =>
      obtain ⟨q, rfl⟩ := htgts t (by simp [Vertex.targets])
      rcases step_of_jump hnew.1 hstep with
        ⟨rfl, hop, heq⟩ | ⟨rfl, hop, heq⟩ | ⟨hop, ⟨rfl, heq⟩ | ⟨rfl, rfl⟩⟩
      · exact ⟨q, .goto hnode hop, .inl (Int.natCast_inj.1 heq).symm⟩
      · exact ⟨q, .call hnode hop, .inl (Int.natCast_inj.1 heq).symm⟩
      · exact ⟨q, .taken hnode hop, .inl (Int.natCast_inj.1 heq).symm⟩
      · exact ⟨stop, .passed hnode hop, .inl rfl⟩
    | switch op fallback arms =>
      cases hstep with
      | arm hnode' hmem =>
        cases hnew.1.symm.trans hnode'
        obtain ⟨⟨key', t⟩, harm, heq⟩ := List.mem_map.1 hmem
        obtain ⟨q, rfl⟩ := htgts t (List.mem_cons_of_mem _ (List.mem_map.2 ⟨_, harm, rfl⟩))
        simp only [Int.toNat_natCast, Prod.mk.injEq, Int.natCast_inj] at heq
        obtain ⟨rfl, rfl⟩ := heq
        exact ⟨q, .arm hnode harm, .inl rfl⟩
      | fallback hnode' =>
        obtain ⟨q, rfl⟩ := htgts fallback List.mem_cons_self
        cases hnew.1.symm.trans hnode'
        exact ⟨q, .fallback hnode, .inl rfl⟩
      | execute hnode' | goto hnode' | call hnode' | taken hnode' | passed hnode' =>
        cases hnew.1.symm.trans hnode'
  | @wideGoto t hnew =>
    rcases step_of_jump hnew.1 hstep with ⟨rfl, _, heq⟩ | ⟨_, hop, _⟩ | ⟨hop, _⟩
    · exact ⟨t, .goto hnode (.inl rfl), .inl (Int.natCast_inj.1 heq).symm⟩
    · exact absurd hop (by decide)
    · rw [isConditional_unconditional _ (by simp)] at hop
      cases hop
  | @wideCall t hnew =>
    rcases step_of_jump hnew.1 hstep with ⟨_, hop, _⟩ | ⟨rfl, _, heq⟩ | ⟨hop, _⟩
    · exact absurd hop (by decide)
    · exact ⟨t, .call hnode (.inl rfl), .inl (Int.natCast_inj.1 heq).symm⟩
    · rw [isConditional_unconditional _ (by simp)] at hop
      cases hop
  | @inverted op t hcond hover hwide =>
    have hinverse := isConditional_invert op hcond
    rcases step_of_jump hover.1 hstep with ⟨_, hop, _⟩ | ⟨_, hop, _⟩ | ⟨_, ⟨rfl, heq⟩ | ⟨rfl, rfl⟩⟩
    · rw [isConditional_unconditional _ (by rcases hop with hop | hop <;> simp [hop])] at hinverse
      cases hinverse
    · rw [isConditional_unconditional _ (by rcases hop with hop | hop <;> simp [hop])] at hinverse
      cases hinverse
    · exact ⟨stop, .passed hnode hcond, .inl (Int.natCast_inj.1 heq).symm⟩
    · rw [invert_invert op hcond]
      exact ⟨t, .taken hnode hcond, .inr hwide.forwards⟩

/-! ### Boundaries -/

/-- Reading the new code, one comes to the new position of each instruction. -/
theorem boundary_move (hst : move 0 = 0) (hcar : ∀ p stop node, Boundary old p → vertexAt? old p = some (node, stop) →
      Carried new move p stop node)
    (h : Boundary old p) : Boundary new (move p) := by
  induction h with
  | start => rw [hst]; exact .start
  | next hp hnode ih =>
    cases hcar _ _ _ hp hnode with
    | kept hnew | wideGoto hnew | wideCall hnew => exact .next ih hnew.1
    | inverted _ hover hwide => exact .next (.next ih hover.1) hwide.1

/-- Reading the new code, one comes to the new position of an instruction, or to the wide jump of an inverted one. -/
theorem boundary_moved (hst : move 0 = 0) (hlen : new.size = move old.size)
    (hcovers : ∀ p, Boundary old p → p = old.size ∨
      ∃ stop node, vertexAt? old p = some (node, stop) ∧ Carried new move p stop node) (h : Boundary new q) :
    (∃ p, Boundary old p ∧ q = move p) ∨
      ∃ (t : Nat) (stop : Nat), Boundary old stop ∧ Finished new q (.jump Opcode.gotoW t) (move stop) := by
  induction h with
  | start => exact .inl ⟨0, .start, hst.symm⟩
  | next hq hnode ih =>
    rcases ih with ⟨p, hp, rfl⟩ | ⟨t, stop, hstop, hwide⟩
    · rcases hcovers p hp with rfl | ⟨stop, node, hold, hcar⟩
      · have := vertexAt?_bounds hnode
        omega
      · cases hcar with
        | kept hnew | wideGoto hnew | wideCall hnew =>
          cases hnew.1.symm.trans hnode
          exact .inl ⟨stop, .next hp hold, rfl⟩
        | @inverted op t _ hover hwide =>
          cases hover.1.symm.trans hnode
          exact .inr ⟨move t, stop, .next hp hold, hwide⟩
    · cases hwide.1.symm.trans hnode
      exact .inl ⟨stop, hstop, rfl⟩

theorem unmarked_of_carried (hst : move 0 = 0) (hlen : new.size = move old.size)
    (hcovers : ∀ p, Boundary old p → p = old.size ∨
      ∃ stop node, vertexAt? old p = some (node, stop) ∧ Carried new move p stop node) (h : Boundary new q) (hq : q < new.size) : Opcode.isMarker (new.byteAt q) = false := by
  rcases boundary_moved hst hlen hcovers h with ⟨p, hp, rfl⟩ | ⟨t, stop, _, hwide⟩
  · rcases hcovers p hp with rfl | ⟨stop, node, _, hcar⟩
    · omega
    · cases hcar with
      | kept hnew | wideGoto hnew | wideCall hnew => exact hnew.2
      | inverted _ hover _ => exact hover.2
  · exact hwide.2

end Graphs

/-! ### The whole of widening -/

/-- **Widening preserves the program.** -/
theorem widen_preserves {code : Bytes} {r : Widened} (hsize : code.size ≤ 65535)
    (htargets : WellTargeted code) (h : widen code = .ok r) : Preserves code r := by
  obtain ⟨pieces, hscan, h⟩ := Success.bind_ok.1 h
  obtain ⟨new, hwrite, h⟩ := Success.bind_ok.1 h
  rw [Success.pure_ok] at h
  subst h
  have hsettled := plan_settled hscan
  generalize plan code.size pieces = plan at hwrite hsettled
  have hstart : plan.layout.newPosition 0 = 0 := by simp [Layout.newPosition, hsettled.fits.start]
  have hlength : new.size = plan.layout.newPosition code.size := (hsettled.standing hwrite).1
  have hcarried : ∀ p stop node, Boundary code p → vertexAt? code p = some (node, stop) →
      Carried new plan.layout.newPosition p stop node :=
    fun p stop node hp hnode => hsettled.carried hsize htargets hwrite hp hnode
  have hcovers : ∀ p, Boundary code p → p = code.size ∨ ∃ stop node,
      vertexAt? code p = some (node, stop) ∧ Carried new plan.layout.newPosition p stop node := by
    intro p hp
    rcases boundary_piece hsettled.chain hsettled.valid hp with hend | ⟨piece, hmem, rfl⟩
    · exact .inl hend
    · obtain ⟨node, hnode⟩ := (hsettled.valid piece hmem).vertexAt
      exact .inr ⟨piece.stop, node, hnode, hcarried _ _ _ hp hnode⟩
  have hend : Boundary code code.size := (hsettled.chain.boundary hsettled.valid .start).1
  refine ⟨?_, ?_, hcarried, ⟨?_, ?_⟩, hlength⟩
  · exact hlength ▸ boundary_move hstart hcarried hend
  · exact fun q hq hlt => unmarked_of_carried hstart hlength hcovers hq hlt
  · intro p a q hp hstep
    rcases hcovers p hp with rfl | ⟨stop, node, hnode, hnew⟩
    · obtain ⟨node, stop, hnode⟩ := hstep.vertexAt
      have := vertexAt?_bounds hnode
      omega
    · exact hnew.forward hnode hstep
  · intro p a m hp hstep
    rcases hcovers p hp with rfl | ⟨stop, node, hnode, hnew⟩
    · obtain ⟨node, stop, hnode⟩ := hstep.vertexAt
      have := vertexAt?_bounds hnode
      dsimp only at this
      omega
    · refine hnew.backward hnode (fun t ht => ?_) hstep
      obtain ⟨q, hq, _⟩ := htargets p stop node hp hnode t ht
      exact ⟨q, hq⟩

/-- A marked `ifeq` over a switch that leads back to it. -/
theorem widen_preserves_marked_jump :
    ∃ r, widen #[202, 0, 20, 171, 0, 0, 0, 17, 0, 0, 0, 1, 0, 0, 0, 5, 255, 255, 255, 253, 177] = .ok r ∧
      Preserves #[202, 0, 20, 171, 0, 0, 0, 17, 0, 0, 0, 1, 0, 0, 0, 5, 255, 255, 255, 253, 177] r := by
  have hok : (widen #[202, 0, 20, 171, 0, 0, 0, 17, 0, 0, 0, 1, 0, 0, 0, 5, 255, 255, 255, 253,
      177]).toBool = true := by decide +kernel
  obtain ⟨r, hr⟩ := Success.ok_of_toBool hok
  exact ⟨r, hr, widen_preserves (by decide) (by decide +kernel) hr⟩

end Widening

end JvmAssembler
