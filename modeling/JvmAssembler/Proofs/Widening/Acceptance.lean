import JvmAssembler.Decoding
import JvmAssembler.Proofs.Widening.Carried

/-!
# JvmAssembler.Proofs.Widening.Acceptance

Which code can be widened.

Decoding and scanning read code in the same way, and agree on where its instructions start (`Follows`). The scanner asks
for one word too many of a switch without arms, so it rejects code in which less than a word follows such a switch
(`Cramped`), and nothing else that can be decoded.
-/

namespace JvmAssembler

open Success

namespace Widening

open ControlFlow

/-- From a position to its end, code reads as instructions at these positions. None of them leads to before the
start. -/
inductive Follows (code : Bytes) : Nat → List Nat → Prop
  | done : Follows code code.size []
  | next {p stop : Nat} {node : Vertex} {rest : List Nat} :
      vertexAt? code p = some (node, stop) → (∀ t ∈ node.targets, 0 ≤ t) → Follows code stop rest →
      Follows code p (p :: rest)

/-- A switch without arms stands at a position, and less than a word follows it. -/
def Cramped (code : Bytes) (p : Nat) : Prop :=
  ∃ op dflt stop, vertexAt? code p = some (.switch op dflt [], stop) ∧ code.size < stop + 4

/-! ### Decoding -/

section Decoding

variable {pool : Pool} {code : Bytes} {p n : Nat} {i : Instruction Nat}

theorem require_ok {length : Nat} {u : Unit} (h : Decoding.require code p length = .ok u) :
    p + length ≤ code.size := by
  unfold Decoding.require at h
  split at h
  · assumption
  · cases h

theorem u16_ok {value : Nat} (h : Decoding.u16 code p = .ok value) : p + 2 ≤ code.size :=
  let ⟨_, hreq, _⟩ := bind_ok.1 h
  require_ok hreq

theorem i32_ok {value : Int} (h : Decoding.i32 code p = .ok value) : p + 4 ≤ code.size ∧ value = code.i32At p := by
  obtain ⟨_, hreq, h⟩ := bind_ok.1 h
  exact ⟨require_ok hreq, (pure_ok.1 h).symm⟩

theorem target_ok {offset : Int} {target : Nat} (h : Decoding.target code p offset = .ok target) :
    p + offset = target := by
  unfold Decoding.target at h
  dsimp only at h
  split at h
  · cases h
  · cases h
    omega

theorem operandsAt_eq (p : Nat) : (p + 4) / 4 * 4 = operandsAt p := by
  unfold operandsAt
  omega

theorem le_operandsAt (p : Nat) : p ≤ operandsAt p := by
  unfold operandsAt
  omega

theorem mapM_ok {α β : Type} {f : α → Except Error β} {xs : List α} {ys : List β} (h : xs.mapM f = .ok ys) :
    ys.length = xs.length ∧ ∀ x ∈ xs, ∃ y, f x = .ok y := by
  induction xs generalizing ys with
  | nil =>
    obtain rfl : [] = ys := by simpa [pure, Except.pure] using h
    exact ⟨rfl, by simp⟩
  | cons x xs ih =>
    rw [List.mapM_cons] at h
    obtain ⟨y, hy, h⟩ := bind_ok.1 h
    obtain ⟨rest, hrest, h⟩ := bind_ok.1 h
    obtain rfl := pure_ok.1 h
    obtain ⟨hlen, hall⟩ := ih hrest
    exact ⟨by simp [hlen], List.forall_mem_cons.2 ⟨⟨y, hy⟩, hall⟩⟩

/-- A table switch that can be decoded has an arm, and leads nowhere before the start. -/
theorem tableSwitch_vertex (hop : code.byteAt p = Opcode.tableSwitch) (h : Decoding.tableSwitch code p = .ok (i, n)) :
    ∃ dflt arms, vertexAt? code p = some (.switch Opcode.tableSwitch dflt arms, p + n) ∧ arms ≠ [] ∧
      0 ≤ dflt ∧ (∀ arm ∈ arms, 0 ≤ arm.2) ∧ ∀ dflt', i ≠ .lookupSwitch dflt' [] [] := by
  unfold Decoding.tableSwitch at h
  simp only [operandsAt_eq] at h
  obtain ⟨_, hfst, h⟩ := bind_ok.1 h
  obtain ⟨dflt, hfb, h⟩ := bind_ok.1 h
  obtain ⟨_, hlow, h⟩ := bind_ok.1 h
  obtain ⟨_, hhigh, h⟩ := bind_ok.1 h
  obtain ⟨-, rfl⟩ := i32_ok hfst
  obtain ⟨-, rfl⟩ := i32_ok hlow
  obtain ⟨-, rfl⟩ := i32_ok hhigh
  split at h
  · cases h
  · rename_i hbnd
    obtain ⟨_, hreq, h⟩ := bind_ok.1 h
    obtain ⟨targets, htgts, h⟩ := bind_ok.1 h
    have hfits := require_ok hreq
    obtain ⟨rfl, rfl⟩ := Prod.mk.inj (pure_ok.1 h)
    have hsh : Opcode.shape (code.byteAt p) = .tableSwitch := by rw [hop]; exact Opcode.shape_named.2.2.2.2.2.1
    have hnode : switchVertex? (code.byteAt p) p (fun j => code.i32At (operandsAt p + 4 * j)) =
        some (.switch Opcode.tableSwitch (p + code.i32At (operandsAt p))
          ((List.range (code.i32At (operandsAt p + 8) - code.i32At (operandsAt p + 4) + 1).toNat).map
            fun (j : Nat) => (code.i32At (operandsAt p + 4) + j, p + code.i32At (operandsAt p + 4 * (3 + j)))),
          3 + (code.i32At (operandsAt p + 8) - code.i32At (operandsAt p + 4) + 1).toNat) := by
      rw [switchVertex?, if_pos hop, if_neg hbnd, hop]
      rfl
    have hle := le_operandsAt p
    have hvtx := vertexAt?_switch (.inl hsh) hnode (by omega)
    rw [show operandsAt p + 4 * (3 + (code.i32At (operandsAt p + 8) - code.i32At (operandsAt p + 4) + 1).toNat) =
      p + (operandsAt p + 12 + 4 * (code.i32At (operandsAt p + 8) - code.i32At (operandsAt p + 4) + 1).toNat - p) by
        omega] at hvtx
    refine ⟨_, _, hvtx, ?_, ?_, ?_, by simp⟩
    · simp only [ne_eq, List.map_eq_nil_iff, List.range_eq_nil]
      omega
    · have := target_ok hfb
      omega
    · intro arm harm
      obtain ⟨j, hj, rfl⟩ := List.mem_map.1 harm
      obtain ⟨t, ht⟩ := (mapM_ok htgts).2 j hj
      have := target_ok ht
      rw [show operandsAt p + 4 * (3 + j) = operandsAt p + 12 + 4 * j by omega]
      dsimp only
      omega

/-- A lookup switch that can be decoded leads nowhere before the start. -/
theorem lookupSwitch_vertex (hop : code.byteAt p = Opcode.lookupSwitch) (h : Decoding.lookupSwitch code p = .ok (i, n)) :
    ∃ dflt keys targets arms, vertexAt? code p = some (.switch Opcode.lookupSwitch dflt arms, p + n) ∧
      i = .lookupSwitch dflt.toNat keys targets ∧ (arms = [] ↔ keys = [] ∧ targets = []) ∧
      (arms = [] → p + n = operandsAt p + 8) ∧ 0 ≤ dflt ∧ ∀ arm ∈ arms, 0 ≤ arm.2 := by
  unfold Decoding.lookupSwitch at h
  simp only [operandsAt_eq] at h
  obtain ⟨_, hfst, h⟩ := bind_ok.1 h
  obtain ⟨dflt, hfb, h⟩ := bind_ok.1 h
  obtain ⟨_, hcnt, h⟩ := bind_ok.1 h
  obtain ⟨-, rfl⟩ := i32_ok hfst
  obtain ⟨-, rfl⟩ := i32_ok hcnt
  split at h
  · cases h
  · rename_i hcnt
    obtain ⟨_, hreq, h⟩ := bind_ok.1 h
    obtain ⟨pairs, hpairs, h⟩ := bind_ok.1 h
    have hfits := require_ok hreq
    obtain ⟨rfl, rfl⟩ := Prod.mk.inj (pure_ok.1 h)
    obtain ⟨hlen, hall⟩ := mapM_ok hpairs
    have hsh : Opcode.shape (code.byteAt p) = .lookupSwitch := by rw [hop]; exact Opcode.shape_named.2.2.2.2.2.2
    have hne : code.byteAt p ≠ Opcode.tableSwitch := by rw [hop]; decide
    have hnode : switchVertex? (code.byteAt p) p (fun j => code.i32At (operandsAt p + 4 * j)) =
        some (.switch Opcode.lookupSwitch (p + code.i32At (operandsAt p))
          ((List.range (code.i32At (operandsAt p + 4)).toNat).map fun (j : Nat) =>
            (code.i32At (operandsAt p + 4 * (2 + 2 * j)), p + code.i32At (operandsAt p + 4 * (3 + 2 * j)))),
          2 + 2 * (code.i32At (operandsAt p + 4)).toNat) := by
      rw [switchVertex?, if_neg hne, if_neg hcnt, hop]
      rfl
    have hle := le_operandsAt p
    have hvtx := vertexAt?_switch (.inr hsh) hnode (by omega)
    have hfb := target_ok hfb
    rw [hfb, show operandsAt p + 4 * (2 + 2 * (code.i32At (operandsAt p + 4)).toNat) =
      p + (operandsAt p + 8 + 8 * (code.i32At (operandsAt p + 4)).toNat - p) by omega] at hvtx
    refine ⟨dflt, _, _, _, hvtx, rfl, ?_, ?_, by omega, ?_⟩
    · rw [List.length_range] at hlen
      simp only [List.map_eq_nil_iff, List.range_eq_nil, and_self]
      rw [← List.length_eq_zero_iff, hlen]
    · simp only [List.map_eq_nil_iff, List.range_eq_nil]
      omega
    · intro arm harm
      obtain ⟨j, hj, rfl⟩ := List.mem_map.1 harm
      obtain ⟨_, hpair⟩ := hall j hj
      obtain ⟨t, ht, -⟩ := bind_ok.1 hpair
      have := target_ok ht
      rw [show operandsAt p + 4 * (3 + 2 * j) = operandsAt p + 8 + 8 * j + 4 by omega]
      dsimp only
      omega

theorem member_ne {op : Opcode} {index : Nat} (h : Decoding.member pool p op index = .ok i) (dflt : Nat) :
    i ≠ .lookupSwitch dflt [] [] := by
  obtain ⟨found, -, h⟩ := bind_ok.1 h
  rintro rfl
  dsimp only at h
  split at h
  · split at h <;> cases h
  · split at h <;> cases h
  · split at h <;> cases h
  · cases h

theorem callSite_ne {index : Nat} (h : Decoding.callSite pool p index = .ok i) (dflt : Nat) :
    i ≠ .lookupSwitch dflt [] [] := by
  obtain ⟨found, -, h⟩ := bind_ok.1 h
  rintro rfl
  split at h
  · split at h <;> cases h
  · cases h

/-- An instruction that is no switch. -/
theorem unswitched_vertex {node : Vertex} {stop : Nat} (hvtx : vertexAt? code p = some (node, stop))
    (hnode : ∀ op dflt arms, node ≠ .switch op dflt arms) (htgts : ∀ t ∈ node.targets, 0 ≤ t)
    (hi : ∀ dflt, i ≠ .lookupSwitch dflt [] []) :
    ∃ node, vertexAt? code p = some (node, stop) ∧ (∀ t ∈ node.targets, 0 ≤ t) ∧
      (Cramped code p ↔ ∃ dflt, i = .lookupSwitch dflt [] [] ∧ code.size < operandsAt p + 12) := by
  refine ⟨_, hvtx, htgts, ?_, by rintro ⟨dflt, heq, -⟩; exact absurd heq (hi dflt)⟩
  rintro ⟨op, dflt, stop, heq, -⟩
  rw [hvtx] at heq
  cases heq
  exact absurd rfl (hnode _ _ _)

/-- An instruction that is neither a jump nor a switch. -/
theorem straight_vertex {length : Nat}
    (hlen : straightLength? code p (Opcode.shape (code.byteAt p)) = some length) (hfits : p + length ≤ code.size)
    (hi : ∀ dflt, i ≠ .lookupSwitch dflt [] []) :
    ∃ node, vertexAt? code p = some (node, p + length) ∧ (∀ t ∈ node.targets, 0 ≤ t) ∧
      (Cramped code p ↔ ∃ dflt, i = .lookupSwitch dflt [] [] ∧ code.size < operandsAt p + 12) :=
  unswitched_vertex (vertexAt?_straight hlen hfits) (by simp) (by simp [Vertex.targets]) hi

/-- **What can be decoded can be read as a vertex** of the same length, which leads nowhere before the start. -/
theorem instruction_vertex (hp : p < code.size) (h : Decoding.instruction pool code p = .ok (i, n)) :
    ∃ node, vertexAt? code p = some (node, p + n) ∧ (∀ t ∈ node.targets, 0 ≤ t) ∧
      (Cramped code p ↔ ∃ dflt, i = .lookupSwitch dflt [] [] ∧ code.size < operandsAt p + 12) := by
  have hswitch := (Opcode.of_kind (code.byteAt p)).2.1.2.2.2
  unfold Decoding.instruction at h
  cases hsh : Opcode.shape (code.byteAt p) with
  | plain | implicitVar =>
    simp only [hsh, Except.ok.injEq, Prod.mk.injEq] at h
    obtain ⟨rfl, rfl⟩ := h
    exact straight_vertex (by rw [hsh]; rfl) hp (by simp)
  | var | byte | short | iinc =>
    simp only [hsh] at h
    obtain ⟨_, hreq, h⟩ := bind_ok.1 h
    obtain ⟨rfl, rfl⟩ := Prod.mk.inj (pure_ok.1 h)
    exact straight_vertex (by rw [hsh]; rfl) (require_ok hreq) (by simp)
  | ldc | multiNewArray =>
    simp only [hsh] at h
    obtain ⟨_, hreq, h⟩ := bind_ok.1 h
    obtain ⟨_, -, h⟩ := bind_ok.1 h
    obtain ⟨rfl, rfl⟩ := Prod.mk.inj (pure_ok.1 h)
    exact straight_vertex (by rw [hsh]; rfl) (require_ok hreq) (by simp)
  | ldcWide | type =>
    simp only [hsh] at h
    obtain ⟨_, hidx, h⟩ := bind_ok.1 h
    obtain ⟨_, -, h⟩ := bind_ok.1 h
    obtain ⟨rfl, rfl⟩ := Prod.mk.inj (pure_ok.1 h)
    exact straight_vertex (by rw [hsh]; rfl) (by have := u16_ok hidx; omega) (by simp)
  | fieldOrMethod =>
    simp only [hsh] at h
    obtain ⟨_, hidx, h⟩ := bind_ok.1 h
    obtain ⟨_, hmb, h⟩ := bind_ok.1 h
    obtain ⟨rfl, rfl⟩ := Prod.mk.inj (pure_ok.1 h)
    exact straight_vertex (by rw [hsh]; rfl) (by have := u16_ok hidx; omega) (member_ne hmb)
  | interfaceMethod =>
    simp only [hsh] at h
    obtain ⟨_, hreq, h⟩ := bind_ok.1 h
    obtain ⟨_, hmb, h⟩ := bind_ok.1 h
    obtain ⟨rfl, rfl⟩ := Prod.mk.inj (pure_ok.1 h)
    exact straight_vertex (by rw [hsh]; rfl) (require_ok hreq) (member_ne hmb)
  | invokeDynamic =>
    simp only [hsh] at h
    obtain ⟨_, hreq, h⟩ := bind_ok.1 h
    obtain ⟨_, hsite, h⟩ := bind_ok.1 h
    obtain ⟨rfl, rfl⟩ := Prod.mk.inj (pure_ok.1 h)
    exact straight_vertex (by rw [hsh]; rfl) (require_ok hreq) (callSite_ne hsite)
  | wide =>
    simp only [hsh] at h
    obtain ⟨_, hreq, h⟩ := bind_ok.1 h
    dsimp only at h
    split at h
    · rename_i hiinc
      obtain ⟨_, hreq, h⟩ := bind_ok.1 h
      obtain ⟨rfl, rfl⟩ := Prod.mk.inj (pure_ok.1 h)
      refine straight_vertex ?_ (require_ok hreq) (by simp)
      rw [hsh, straightLength?, if_pos (by simpa using hiinc)]
    · rename_i hiinc
      split at h
      · obtain ⟨rfl, rfl⟩ := Prod.mk.inj (pure_ok.1 h)
        refine straight_vertex ?_ (require_ok hreq) (by simp)
        rw [hsh, straightLength?, if_neg (by simpa using hiinc)]
      · cases h
  | jump =>
    simp only [hsh] at h
    obtain ⟨_, hreq, h⟩ := bind_ok.1 h
    obtain ⟨target, htgt, h⟩ := bind_ok.1 h
    obtain ⟨rfl, rfl⟩ := Prod.mk.inj (pure_ok.1 h)
    have hvtx := vertexAt?_jump hsh (require_ok hreq)
    rw [target_ok htgt] at hvtx
    exact unswitched_vertex hvtx (by simp) (by simp [Vertex.targets]) (by simp)
  | wideJump =>
    simp only [hsh] at h
    obtain ⟨_, hoff, h⟩ := bind_ok.1 h
    obtain ⟨target, htgt, h⟩ := bind_ok.1 h
    obtain ⟨rfl, rfl⟩ := Prod.mk.inj (pure_ok.1 h)
    obtain ⟨hfits, rfl⟩ := i32_ok hoff
    have hvtx := vertexAt?_wideJump hsh (by omega)
    rw [target_ok htgt] at hvtx
    exact unswitched_vertex hvtx (by simp) (by simp [Vertex.targets]) (by simp)
  | tableSwitch =>
    simp only [hsh] at h
    obtain ⟨dflt, arms, hvtx, hne, hfb, harms, hi⟩ := tableSwitch_vertex (hswitch.1 hsh) h
    refine ⟨_, hvtx, ?_, ?_, by rintro ⟨dflt, heq, -⟩; exact absurd heq (hi dflt)⟩
    · simpa [Vertex.targets] using ⟨hfb, fun t key => harms (key, t)⟩
    · rintro ⟨op, dflt, stop, heq, -⟩
      rw [hvtx] at heq
      cases heq
      exact absurd rfl hne
  | lookupSwitch =>
    simp only [hsh] at h
    obtain ⟨dflt, keys, targets, arms, hvtx, rfl, hemp, hstop, hfb, harms⟩ :=
      lookupSwitch_vertex (hswitch.2 hsh) h
    refine ⟨_, hvtx, ?_, ?_, ?_⟩
    · simpa [Vertex.targets] using ⟨hfb, fun t key => harms (key, t)⟩
    · rintro ⟨op, dflt, stop, heq, hcrmp⟩
      rw [hvtx] at heq
      cases heq
      obtain ⟨rfl, rfl⟩ := hemp.1 rfl
      exact ⟨_, rfl, by have := hstop rfl; omega⟩
    · rintro ⟨dflt', heq, hcrmp⟩
      cases heq
      obtain rfl := hemp.2 ⟨rfl, rfl⟩
      exact ⟨_, _, _, hvtx, by have := hstop rfl; omega⟩
  | oversizedJump | invalid =>
    simp only [hsh] at h
    cases h

/-- Decoded code reads to its end, through the instructions that were decoded. -/
theorem decodeFrom_follows {fuel : Nat} {done result : Array (Nat × Instruction Nat)}
    (hfuel : code.size ≤ p + fuel) (hp : p ≤ code.size) (h : Decoding.decodeFrom pool code fuel p done = .ok result) :
    ∃ rest, result.toList = done.toList ++ rest ∧ Follows code p (rest.map (·.1)) ∧
      ∀ q i, (q, i) ∈ rest →
        (Cramped code q ↔ ∃ dflt, i = .lookupSwitch dflt [] [] ∧ code.size < operandsAt q + 12) := by
  induction fuel generalizing p done with
  | zero =>
    simp only [Decoding.decodeFrom, Except.ok.injEq] at h
    obtain rfl : p = code.size := by omega
    exact ⟨[], by simp [h], .done, by simp⟩
  | succ fuel ih =>
    unfold Decoding.decodeFrom at h
    by_cases hlt : p < code.size
    · rw [if_pos hlt] at h
      obtain ⟨⟨i, n⟩, hi, h⟩ := bind_ok.1 h
      obtain ⟨node, hvtx, htgts, hcrmp⟩ := instruction_vertex hlt hi
      have hbnd := vertexAt?_bounds hvtx
      obtain ⟨rest, heq, hfol, hall⟩ := ih (by omega) hbnd.2 h
      refine ⟨(p, i) :: rest, by simp [heq], .next hvtx htgts hfol, ?_⟩
      intro q j hmem
      rcases List.mem_cons.1 hmem with heq | hmem
      · cases heq
        exact hcrmp
      · exact hall q j hmem
    · rw [if_neg hlt] at h
      simp only [Except.ok.injEq] at h
      obtain rfl : p = code.size := by omega
      exact ⟨[], by simp [h], .done, by simp⟩

end Decoding

/-! ### Scanning -/

section Scanning

variable {code : Bytes} {p : Nat}

theorem within_eq_some {node node' : Vertex} {stop stop' : Nat} (h : within code node stop = some (node', stop')) :
    stop ≤ code.size ∧ node = node' ∧ stop = stop' := by
  unfold within at h
  split at h
  · cases h
    exact ⟨‹_›, rfl, rfl⟩
  · cases h

theorem need_of_le {n : Nat} (h : p + n ≤ code.size) : need code p n = .ok () := if_pos h

theorem fixedLength_of_straightLength? {n : Nat} {shape : Shape} (h : straightLength? code p shape = some n)
    (hfits : p + n ≤ code.size) : fixedLength code p shape = .ok n := by
  cases shape with
  | wide =>
    simp only [straightLength?, Option.some.injEq] at h
    rw [fixedLength, bind_of_ok (need_of_le (by split at h <;> omega)), ← h]
    simp only [beq_iff_eq]
    rfl
  | _ => simp_all [fixedLength, straightLength?]

/-- Of a switch with arms, the scanner finds all words; without arms it needs a word behind them. -/
theorem switchWords_of_vertex {op : Opcode} {node : Vertex} {words : Nat}
    (hnode : switchVertex? op p (wordAt code p) = some (node, words)) (hfits : operandsAt p + 4 * words ≤ code.size)
    (hroom : operandsAt p + 12 ≤ code.size) : ∃ found, switchWords code p op = .ok found := by
  have hword1 : wordAt code p 1 = code.i32At (operandsAt p + 4) := rfl
  have hword2 : wordAt code p 2 = code.i32At (operandsAt p + 8) := rfl
  unfold switchVertex? at hnode
  simp only [switchWords, show switchOperands p = operandsAt p from rfl]
  rw [bind_of_ok (need_of_le hroom)]
  by_cases hop : op = Opcode.tableSwitch
  · rw [if_pos hop] at hnode
    rw [if_pos (by simpa using hop), ← hword1, ← hword2]
    split at hnode
    · cases hnode
    · rename_i hbnd
      simp only [Option.some.injEq, Prod.mk.injEq] at hnode
      rw [if_neg hbnd, bind_of_ok (need_of_le (by rw [hnode.2]; exact hfits))]
      exact ⟨_, rfl⟩
  · rw [if_neg hop] at hnode
    rw [if_neg (by simpa using hop), ← hword1]
    split at hnode
    · cases hnode
    · rename_i hcnt
      simp only [Option.some.injEq, Prod.mk.injEq] at hnode
      rw [if_neg hcnt, bind_of_ok (need_of_le (by rw [hnode.2]; exact hfits))]
      exact ⟨_, rfl⟩

theorem switchVertex?_arms {op : Opcode} {word : Nat → Int} {node : Vertex} {words : Nat}
    (h : switchVertex? op p word = some (node, words)) :
    3 ≤ words ∧ (∀ op' dflt, node ≠ .switch op' dflt []) ∨
      words = 2 ∧ ∃ dflt, node = .switch op dflt [] := by
  unfold switchVertex? at h
  split at h
  · split at h
    · cases h
    · simp only [Option.some.injEq, Prod.mk.injEq] at h
      obtain ⟨rfl, rfl⟩ := h
      refine .inl ⟨by omega, fun op' dflt heq => ?_⟩
      have harms := (Vertex.switch.inj heq).2.2
      simp only [List.map_eq_nil_iff, List.range_eq_nil] at harms
      omega
  · split at h
    · cases h
    · simp only [Option.some.injEq, Prod.mk.injEq] at h
      obtain ⟨rfl, rfl⟩ := h
      by_cases hcnt : (word 1).toNat = 0
      · rw [hcnt]
        exact .inr ⟨rfl, _, rfl⟩
      · refine .inl ⟨by omega, fun op' dflt heq => hcnt ?_⟩
        have harms := (Vertex.switch.inj heq).2.2
        simpa only [List.map_eq_nil_iff, List.range_eq_nil] using harms

/-- What reads as a switch has its words, and either room behind them or no arms. -/
theorem switch_of_vertex {stop : Nat} {node : Vertex}
    (hsh : Opcode.shape (code.byteAt p) = .tableSwitch ∨ Opcode.shape (code.byteAt p) = .lookupSwitch)
    (hvtx : vertexAt? code p = some (node, stop)) :
    ∃ words, switchVertex? (code.byteAt p) p (wordAt code p) = some (node, words) ∧
      stop = operandsAt p + 4 * words ∧ stop ≤ code.size := by
  have hbind : (switchVertex? (code.byteAt p) p (wordAt code p)).bind (fun found =>
      within code found.1 (operandsAt p + 4 * found.2)) = some (node, stop) := by
    rw [← hvtx, vertexAt?]
    rcases hsh with hsh | hsh
    · rw [hsh]
      rfl
    · rw [hsh]
      rfl
  obtain ⟨⟨node', words⟩, hnode, hwithin⟩ := Option.bind_eq_some_iff.1 hbind
  obtain ⟨hfits, rfl, rfl⟩ := within_eq_some hwithin
  exact ⟨words, hnode, rfl, hfits⟩

theorem switchWords_of_room {stop : Nat} {node : Vertex}
    (hsh : Opcode.shape (code.byteAt p) = .tableSwitch ∨ Opcode.shape (code.byteAt p) = .lookupSwitch)
    (hvtx : vertexAt? code p = some (node, stop)) (hcrmp : ¬ Cramped code p) :
    ∃ found, switchWords code p (code.byteAt p) = .ok found := by
  obtain ⟨words, hnode, rfl, hfits⟩ := switch_of_vertex hsh hvtx
  refine switchWords_of_vertex hnode hfits ?_
  rcases switchVertex?_arms hnode with ⟨hwords, -⟩ | ⟨rfl, dflt, rfl⟩
  · omega
  · refine Nat.le_of_not_lt fun hroom => hcrmp ⟨_, _, _, hvtx, by omega⟩

/-- **What reads as a vertex can be scanned,** if it leads nowhere before the start and has enough room. -/
theorem pieceAt_of_vertex {node : Vertex} {stop : Nat} (hvtx : vertexAt? code p = some (node, stop))
    (htgts : ∀ t ∈ node.targets, 0 ≤ t) (hcrmp : ¬ Cramped code p) :
    ∃ piece, pieceAt code p = .ok piece := by
  have hread := hvtx
  simp only [vertexAt?] at hread
  unfold pieceAt
  cases hsh : Opcode.shape (code.byteAt p) with
  | jump =>
    simp only [hsh, vertexOf?] at hread ⊢
    obtain ⟨hfits, rfl, -⟩ := within_eq_some hread
    rw [bind_of_ok (need_of_le hfits), if_neg (Int.not_lt.2 (htgts _ List.mem_cons_self))]
    exact ⟨_, rfl⟩
  | oversizedJump | wideJump =>
    simp only [hsh, vertexOf?] at hread ⊢
    obtain ⟨hfits, -⟩ := within_eq_some hread
    rw [bind_of_ok (need_of_le hfits)]
    exact ⟨_, rfl⟩
  | tableSwitch =>
    obtain ⟨found, hfnd⟩ := switchWords_of_room (.inl hsh) hvtx hcrmp
    simp only [hsh]
    rw [bind_of_ok hfnd]
    exact ⟨_, rfl⟩
  | lookupSwitch =>
    obtain ⟨found, hfnd⟩ := switchWords_of_room (.inr hsh) hvtx hcrmp
    simp only [hsh]
    rw [bind_of_ok hfnd]
    exact ⟨_, rfl⟩
  | _ =>
    simp only [hsh, vertexOf?] at hread ⊢
    obtain ⟨length, hlen, hwithin⟩ := Option.bind_eq_some_iff.1 hread
    obtain ⟨hfits, -⟩ := within_eq_some hwithin
    rw [bind_of_ok (fixedLength_of_straightLength? hlen hfits), bind_of_ok (need_of_le hfits)]
    exact ⟨_, rfl⟩

/-- A cramped switch ends eight bytes behind its padding. -/
theorem Cramped.room (h : Cramped code p) :
    (Opcode.shape (code.byteAt p) = .tableSwitch ∨ Opcode.shape (code.byteAt p) = .lookupSwitch) ∧
      operandsAt p + 8 ≤ code.size ∧ code.size < operandsAt p + 12 := by
  obtain ⟨op, dflt, stop, hvtx, hroom⟩ := h
  have hsh : Opcode.shape (code.byteAt p) = .tableSwitch ∨ Opcode.shape (code.byteAt p) = .lookupSwitch := by
    have hread := hvtx
    simp only [vertexAt?] at hread
    cases hsh : Opcode.shape (code.byteAt p) with
    | tableSwitch => exact .inl rfl
    | lookupSwitch => exact .inr rfl
    | jump | oversizedJump | wideJump =>
      simp only [hsh, vertexOf?] at hread
      obtain ⟨-, hnode, -⟩ := within_eq_some hread
      cases hnode
    | _ =>
      simp only [hsh, vertexOf?] at hread
      obtain ⟨length, -, hwithin⟩ := Option.bind_eq_some_iff.1 hread
      obtain ⟨-, hnode, -⟩ := within_eq_some hwithin
      cases hnode
  obtain ⟨words, hnode, rfl, hfits⟩ := switch_of_vertex hsh hvtx
  rcases switchVertex?_arms hnode with ⟨-, harms⟩ | ⟨rfl, -⟩
  · exact absurd rfl (harms op dflt)
  · exact ⟨hsh, hfits, by omega⟩

theorem pieceAt_of_cramped (h : Cramped code p) :
    pieceAt code p = .error (.malformedCode (operandsAt p) .pastEnd) := by
  obtain ⟨hsh, -, hroom⟩ := h.room
  have hneed : need code (operandsAt p) 12 = .error (.malformedCode (operandsAt p) .pastEnd) := if_neg (by omega)
  have hwords : switchWords code p (code.byteAt p) = .error (.malformedCode (operandsAt p) .pastEnd) := by
    unfold switchWords
    exact bind_error.2 (.inl hneed)
  unfold pieceAt
  rcases hsh with hsh | hsh
  · simp only [hsh]
    exact bind_error.2 (.inl hwords)
  · simp only [hsh]
    exact bind_error.2 (.inl hwords)

theorem Follows.le {rest : List Nat} (h : Follows code p rest) : ∀ q ∈ rest, p ≤ q := by
  induction h with
  | done => simp
  | next hvtx _ _ ih =>
    have hbnd := vertexAt?_bounds hvtx
    intro q hq
    rcases List.mem_cons.1 hq with rfl | hq
    · exact Nat.le_refl q
    · have := ih q hq
      omega

/-- What follows a cramped switch is too short for another one. -/
theorem Follows.not_cramped {rest : List Nat} {stop : Nat} {node : Vertex} (h : Follows code stop rest)
    (hvtx : vertexAt? code p = some (node, stop)) (hcrmp : Cramped code p) : ∀ q ∈ rest, ¬ Cramped code q := by
  intro q hq hcrmp'
  obtain ⟨op, dflt, stop', hvtx', hroom⟩ := hcrmp
  obtain ⟨-, rfl⟩ := Prod.mk.inj (Option.some.inj (hvtx.symm.trans hvtx'))
  have hle := h.le q hq
  have hopds := le_operandsAt q
  have := hcrmp'.room
  omega

/-- The scanner meets the instructions of code that reads to its end, until one of them is cramped. -/
theorem scanFrom_of_follows {fuel : Nat} {rest : List Nat} {done : Array Piece} (hfuel : code.size ≤ p + fuel)
    (h : Follows code p rest) :
    ((∀ q ∈ rest, ¬ Cramped code q) → ∃ pieces : List Piece, scanFrom code fuel p done = .ok (done ++ pieces.toArray) ∧
        pieces.map (·.position) = rest) ∧
      ∀ q ∈ rest, Cramped code q → scanFrom code fuel p done = .error (.malformedCode (operandsAt q) .pastEnd) := by
  induction h generalizing fuel done with
  | done =>
    refine ⟨fun _ => ⟨[], ?_, rfl⟩, by simp⟩
    cases fuel with
    | zero => simp [scanFrom]
    | succ fuel => simp [scanFrom]
  | @next p stop node rest hvtx htgts hrest ih =>
    have hbnd := vertexAt?_bounds hvtx
    cases fuel with
    | zero => omega
    | succ fuel =>
      rw [scanFrom, if_pos (by omega)]
      by_cases hcrmp : Cramped code p
      · -- nothing behind a cramped switch is long enough to be another one
        have herr := pieceAt_of_cramped hcrmp
        refine ⟨fun hnone => absurd hcrmp (hnone p List.mem_cons_self), fun q hq hcrmp' => ?_⟩
        rcases List.mem_cons.1 hq with rfl | hq
        · exact bind_error.2 (.inl herr)
        · exact absurd hcrmp' (hrest.not_cramped hvtx hcrmp q hq)
      · obtain ⟨piece, hpc⟩ := pieceAt_of_vertex hvtx htgts hcrmp
        obtain ⟨hvld, hpos, -⟩ := pieceAt_valid hpc
        obtain ⟨node', hnode'⟩ := hvld.vertexAt
        rw [hpos, hvtx] at hnode'
        obtain ⟨-, rfl⟩ := Prod.mk.inj (Option.some.inj hnode')
        rw [bind_of_ok hpc]
        obtain ⟨hok, herr⟩ := @ih fuel (done.push piece) (by omega)
        refine ⟨fun hnone => ?_, fun q hq hcrmp' => ?_⟩
        · obtain ⟨pieces, hscan, hposs⟩ := hok fun q hq => hnone q (List.mem_cons_of_mem _ hq)
          exact ⟨piece :: pieces, by simpa using hscan, by simp [hpos, hposs]⟩
        · rcases List.mem_cons.1 hq with rfl | hq
          · exact absurd hcrmp' hcrmp
          · exact herr q hq hcrmp'

/-- **Scanning code that reads to its end** succeeds unless one of its instructions is cramped. -/
theorem scan_of_follows {positions : List Nat} (h : Follows code 0 positions) :
    ((∀ q ∈ positions, ¬ Cramped code q) → ∃ pieces, scan code = .ok pieces ∧ pieces.map (·.position) = positions) ∧
      ∀ q ∈ positions, Cramped code q → scan code = .error (.malformedCode (operandsAt q) .pastEnd) := by
  obtain ⟨hok, herr⟩ := @scanFrom_of_follows code 0 code.size positions #[] (by omega) h
  refine ⟨fun hnone => ?_, fun q hq hcrmp => ?_⟩
  · obtain ⟨pieces, hscan, hposs⟩ := hok hnone
    refine ⟨pieces, ?_, hposs⟩
    rw [scan, bind_of_ok hscan]
    simp
    rfl
  · exact bind_error.2 (.inl (herr q hq hcrmp))

end Scanning

/-! ### Writing -/

section Writing

variable {old : Bytes} {layout : Layout}

theorem mappedOffset_of_nonneg {pos : Nat} {offset : Int} (h : 0 ≤ pos + offset) :
    ∃ mapped, mappedOffset layout pos offset = .ok mapped :=
  ⟨_, if_neg (Int.not_lt.2 h)⟩

theorem mappedWords_of_nonneg {pos : Nat} {words : List SwitchWord}
    (h : ∀ value : Int, .offset value ∈ words → 0 ≤ pos + value) (code : Bytes) :
    ∃ new, mappedWords layout pos words code = .ok new := by
  induction words generalizing code with
  | nil => exact ⟨code, rfl⟩
  | cons word words ih =>
    have hrest := ih fun value hval => h value (List.mem_cons_of_mem _ hval)
    cases word with
    | number value => exact hrest _
    | offset value =>
      obtain ⟨mapped, hmapped⟩ := @mappedOffset_of_nonneg layout pos value (h value List.mem_cons_self)
      obtain ⟨new, hnew⟩ := hrest (code.write (Bytes.i4 mapped))
      exact ⟨new, (bind_of_ok hmapped).trans hnew⟩

/-- A piece that leads nowhere before the start can be written. -/
theorem writePiece_of_valid {piece : Piece} (hvld : piece.Valid old)
    (htgts : ∀ node, vertexAt? old piece.position = some (node, piece.stop) → ∀ t ∈ node.targets, 0 ≤ t)
    (code : Bytes) : ∃ new, writePiece old layout code piece = .ok new := by
  cases hvld with
  | fixed _ _ => exact ⟨_, rfl⟩
  | jump _ _ _ => exact ⟨_, rfl⟩
  | wideJump hop hoff hfits =>
    have hnonneg := htgts _ (vertexAt?_wideJump hop hfits) _ List.mem_cons_self
    rw [← hoff] at hnonneg
    obtain ⟨mapped, hmapped⟩ := @mappedOffset_of_nonneg layout _ _ hnonneg
    exact ⟨_, bind_of_ok hmapped⟩
  | @switch p words node grown hop hnode hwords hfits =>
    refine mappedWords_of_nonneg (fun value hval => ?_) _
    have htgts := htgts _ (vertexAt?_switch hop hnode hfits)
    rw [hwords] at hval
    obtain ⟨j, hj, hword⟩ := List.mem_map.1 hval
    unfold switchWord at hword
    split at hword
    · cases hword
      exact htgts _ (switchVertex?_target hnode (List.mem_range.1 hj) ‹_›)
    · cases hword

theorem writePieces_of_valid {pieces : List Piece} (h : ∀ piece ∈ pieces, piece.Valid old ∧
      ∀ node, vertexAt? old piece.position = some (node, piece.stop) → ∀ t ∈ node.targets, 0 ≤ t) (code : Bytes) :
    ∃ new, writePieces old layout pieces code = .ok new := by
  induction pieces generalizing code with
  | nil => exact ⟨code, rfl⟩
  | cons piece rest ih =>
    obtain ⟨hvld, htgts⟩ := h piece List.mem_cons_self
    obtain ⟨next, hnext⟩ := @writePiece_of_valid old layout piece hvld htgts code
    obtain ⟨new, hnew⟩ := ih (fun q hq => h q (List.mem_cons_of_mem _ hq)) next
    exact ⟨new, (bind_of_ok hnext).trans hnew⟩

end Writing

theorem Follows.of_boundary {code : Bytes} {positions : List Nat} (h : Follows code 0 positions) {p : Nat}
    (hp : Boundary code p) : ∃ rest, Follows code p rest := by
  induction hp with
  | start => exact ⟨positions, h⟩
  | next _ hvtx ih =>
    obtain ⟨rest, hrest⟩ := ih
    have hbnd := vertexAt?_bounds hvtx
    cases hrest with
    | done => omega
    | next hvtx' _ hrest =>
      obtain ⟨-, rfl⟩ := Prod.mk.inj (Option.some.inj (hvtx.symm.trans hvtx'))
      exact ⟨_, hrest⟩

theorem Follows.targets {code : Bytes} {p stop : Nat} {rest : List Nat} {node : Vertex} (h : Follows code p rest)
    (hvtx : vertexAt? code p = some (node, stop)) : ∀ t ∈ node.targets, 0 ≤ t := by
  have hbnd := vertexAt?_bounds hvtx
  cases h with
  | done => omega
  | next hvtx' htgts _ =>
    obtain ⟨rfl, -⟩ := Prod.mk.inj (Option.some.inj (hvtx.symm.trans hvtx'))
    exact htgts

/-- **Widening code that reads to its end** succeeds unless one of its instructions is cramped. -/
theorem widen_of_follows {code : Bytes} {positions : List Nat} (h : Follows code 0 positions) :
    ((∀ q ∈ positions, ¬ Cramped code q) → ∃ r, widen code = .ok r) ∧
      ∀ q ∈ positions, Cramped code q → widen code = .error (.malformedCode (operandsAt q) .pastEnd) := by
  obtain ⟨hok, herr⟩ := scan_of_follows h
  refine ⟨fun hnone => ?_, fun q hq hcrmp => bind_error.2 (.inl (herr q hq hcrmp))⟩
  obtain ⟨pieces, hscan, hposs⟩ := hok hnone
  have hset := plan_settled hscan
  obtain ⟨-, hbdy⟩ := hset.chain.boundary hset.valid .start
  have hpcs : ∀ piece ∈ (plan code.size pieces).pieces, piece.Valid code ∧
      ∀ node, vertexAt? code piece.position = some (node, piece.stop) → ∀ t ∈ node.targets, 0 ≤ t := by
    intro piece hpc
    obtain ⟨rest, hrest⟩ := h.of_boundary (hbdy piece hpc)
    exact ⟨hset.valid piece hpc, fun node hvtx => hrest.targets hvtx⟩
  obtain ⟨new, hwr⟩ := @writePieces_of_valid code (plan code.size pieces).layout _ hpcs #[]
  exact ⟨_, (bind_of_ok hscan).trans (bind_of_ok hwr)⟩

/-- **Widening accepts what can be decoded,** unless fewer than four bytes follow a lookup switch without keys. It
meets the same instructions. -/
theorem widen_decoded {pool : Pool} {code : Bytes} {instructions : List (Nat × Instruction Nat)}
    (h : Decoding.decode pool code = .ok instructions) :
    (∀ pieces, scan code = .ok pieces → pieces.map (·.position) = instructions.map (·.1)) ∧
      ((∃ r, widen code = .ok r) ↔ ∀ p fallback, (p, .lookupSwitch fallback [] []) ∈ instructions →
        operandsAt p + 12 ≤ code.size) ∧
      ∀ e, widen code = .error e → ∃ p fallback, (p, .lookupSwitch fallback [] []) ∈ instructions ∧
        code.size < operandsAt p + 12 ∧ e = .malformedCode (operandsAt p) .pastEnd := by
  obtain ⟨result, hresult, h⟩ := bind_ok.1 h
  obtain rfl := pure_ok.1 h
  obtain ⟨rest, heq, hfollows, hcramped⟩ := decodeFrom_follows (by omega) (Nat.zero_le _) hresult
  obtain rfl : rest = result.toList := by simpa using heq.symm
  obtain ⟨hscan, hscan'⟩ := scan_of_follows hfollows
  obtain ⟨hwiden, hwiden'⟩ := widen_of_follows hfollows
  -- either no instruction is cramped, and both succeed, or both fail at the one that is
  by_cases hnone : ∀ q ∈ result.toList.map (·.1), ¬ Cramped code q
  · obtain ⟨pieces, hok, hpositions⟩ := hscan hnone
    obtain ⟨r, hr⟩ := hwiden hnone
    refine ⟨fun pieces' hpieces' => ?_, ⟨fun _ p fallback hmem => ?_, fun _ => ⟨r, hr⟩⟩, fun e he => ?_⟩
    · cases hok.symm.trans hpieces'
      exact hpositions
    · refine Nat.le_of_not_lt fun hroom => ?_
      exact hnone p (List.mem_map_of_mem hmem) ((hcramped p _ hmem).2 ⟨fallback, rfl, hroom⟩)
    · cases hr.symm.trans he
  · obtain ⟨q, hq⟩ := Classical.not_forall.1 hnone
    obtain ⟨hmem, hq⟩ := Classical.not_imp.1 hq
    have hq := Classical.not_not.1 hq
    obtain ⟨⟨q, i⟩, hmem', rfl⟩ := List.mem_map.1 hmem
    obtain ⟨fallback, rfl, hroom⟩ := (hcramped _ _ hmem').1 hq
    refine ⟨fun pieces hpieces => ?_, ⟨fun ⟨r, hr⟩ => ?_, fun hall => ?_⟩, fun e he => ?_⟩
    · cases (hscan' _ hmem hq).symm.trans hpieces
    · cases (hwiden' _ hmem hq).symm.trans hr
    · have := hall q fallback hmem'
      omega
    · cases (hwiden' _ hmem hq).symm.trans he
      exact ⟨q, fallback, hmem', hroom, rfl⟩

/-- A lookup switch without keys, one byte before the end of the code: it is decoded, and widening refuses it. -/
theorem widen_decoded_keyless_switch :
    Decoding.decode .empty #[0xab, 0, 0, 0, 0, 0, 0, 12, 0, 0, 0, 0, 0xb1] =
        .ok [(0, .lookupSwitch 12 [] []), (12, .plain 0xb1)] ∧
      ∀ r, widen #[0xab, 0, 0, 0, 0, 0, 0, 12, 0, 0, 0, 0, 0xb1] ≠ .ok r := by
  have hdecode : Decoding.decode .empty #[0xab, 0, 0, 0, 0, 0, 0, 12, 0, 0, 0, 0, 0xb1] =
      .ok [(0, .lookupSwitch 12 [] []), (12, .plain 0xb1)] := ok_of_toOption (by decide +kernel)
  refine ⟨hdecode, fun r hr => ?_⟩
  have hroom := (widen_decoded hdecode).2.1.1 ⟨r, hr⟩ 0 12 List.mem_cons_self
  revert hroom
  decide

end Widening

end JvmAssembler
