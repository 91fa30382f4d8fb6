import JvmAssembler.Proofs.Faults
import JvmAssembler.Proofs.Widening.Acceptance
import JvmAssembler.Proofs.Widening.Simulation

/-!
# JvmAssembler.Proofs.Widening.Stability

Where widening comes to rest: the planner ends with one exact sweep, which lets nothing grow and leaves each switch the
padding that is written (`plan_converges`).
-/

namespace JvmAssembler

namespace Widening

open Bytes ControlFlow

/-! ### The last sweep -/

section Converging

variable {code : Bytes} {plan : Plan} {piece : Piece}

theorem Stable.grown_sweep (h : Stable code plan) :
    (plan.sweep true).pieces.map (·.grown) = plan.pieces.map (·.grown) := by
  rw [(@sweep_spec true _ _ h.chain h.pos h.fits).2.2.1, List.map_map]
  refine List.map_congr_left fun piece hmem => ?_
  cases hform : piece.form with
  | jump op target => simp [sweptPiece, h.outcome_jump hmem hform]
  | _ => simp [sweptPiece, outcome, hform]

theorem Settled.boundary (h : Settled code plan) (hmem : piece ∈ plan.pieces) : Boundary code piece.position :=
  (h.chain.boundary h.valid .start).2 piece hmem

/-- The old padding of a switch and what is inserted behind it make up the padding at its new position. -/
theorem Settled.padding (h : Settled code plan) (hmem : piece ∈ plan.pieces) {op : Opcode} {words : List SwitchWord}
    (hform : piece.form = .switch op words) : ((3 - piece.position % 4 : Nat) : Int) + plan.layout.behind piece =
      (3 - plan.layout.newPosition piece.position % 4 : Nat) := by
  have hpos := (h.newPosition_eq (h.boundary hmem)).1
  rw [h.behind piece hmem]
  simp only [room, hform, ← hpos]
  omega

end Converging

theorem widen_ok {code : Bytes} {r : Widened} (h : widen code = .ok r) :
    ∃ pieces, scan code = .ok pieces ∧ r.layout = (plan code.size pieces).layout ∧
      writePieces code (plan code.size pieces).layout (plan code.size pieces).pieces #[] = .ok r.code := by
  obtain ⟨pieces, hscan, h⟩ := Success.bind_ok.1 h
  obtain ⟨new, hwr, h⟩ := Success.bind_ok.1 h
  rw [Success.pure_ok] at h
  subst h
  exact ⟨pieces, hscan, rfl, hwr⟩

/-- **Planning converges.** Of any bytes, either the scanner complains about the code, or it divides all of it and the planner
ends: sweeps that are not exact are followed by a single exact one, in which nothing grows. Then the padding of every switch
is what is written, and every jump that has not grown is in range. -/
theorem plan_converges (code : Bytes) :
    (∀ e, scan code = .error e → ∃ position fault, e = .malformedCode position fault) ∧
    ∀ pieces, scan code = .ok pieces → Chain 0 pieces code.size ∧
      ∃ (n : Nat) (estimate : Plan), Plan.Sweeps false { pieces := pieces, layout := .initial code.size }
          (List.replicate n false ++ [true]) (plan code.size pieces) ∧
        plan code.size pieces = estimate.sweep true ∧
        (plan code.size pieces).pieces.map (·.grown) = estimate.pieces.map (·.grown) ∧
        ∀ piece ∈ (plan code.size pieces).pieces,
          (∀ op words, piece.form = .switch op words →
            ((3 - piece.position % 4 : Nat) : Int) + (plan code.size pieces).layout.behind piece =
              (3 - (plan code.size pieces).layout.newPosition piece.position % 4 : Nat) ∧
            ∀ r, widen code = .ok r → r.code.HoldsAt (r.layout.newPosition piece.position)
              (op :: (List.replicate (3 - r.layout.newPosition piece.position % 4) 0 ++
                words.flatMap (wordBytes r.layout piece.position)))) ∧
          ∀ op target, piece.form = .jump op target → piece.grown = false →
            -32768 ≤ (plan code.size pieces).layout.newOffset piece.position target ∧
              (plan code.size pieces).layout.newOffset piece.position target ≤ 32767 := by
  refine ⟨reports_scan code, fun pieces hscan => ⟨(scan_ok hscan).1, ?_⟩⟩
  obtain ⟨n, estimate, hsweeps, hstable, heq⟩ := plan_spec hscan
  have hsettled := plan_settled hscan
  refine ⟨n, estimate, hsweeps, heq, by rw [heq, hstable.grown_sweep], fun piece hmem =>
    ⟨fun op words hform => ⟨hsettled.padding hmem hform, fun r hr => ?_⟩, fun op target hform hgrown =>
      fitsShort_iff.1 (hsettled.short piece hmem op target hform hgrown)⟩⟩
  obtain ⟨pieces', hscan', hlayout, hwrite⟩ := widen_ok hr
  cases hscan.symm.trans hscan'
  have hbytes := ((hsettled.standing hwrite).2 piece hmem).bytes
  rw [← hlayout] at hbytes
  have hpadding : ∀ q, (4 - (q + 1) % 4) % 4 = 3 - q % 4 := by omega
  simpa only [pieceBytes, hform, hpadding] using hbytes

end Widening

end JvmAssembler
