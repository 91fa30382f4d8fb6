import JvmAssembler.Proofs.Bytes
import JvmAssembler.Proofs.Opcode

/-!
# JvmAssembler.Proofs.ControlFlow

Finished code as a graph: which instruction stands at a position, and where control goes from there.

* `vertexAt?` reads one instruction as far as control flow is concerned. Jumps and switches carry absolute
  targets; the marker of an oversized jump reads as the jump that it stands for.
* `Boundary` holds of the positions that are met when code is read from the start without a gap. In code that is
  read to its end, the end is one of them.
* `Step` is the control flow graph, with what is executed or decided on each edge. A condition is named by the
  jump that it would let be taken, so the two ways out of a conditional jump carry opposite names.

Nothing here refers to how code is scanned or laid out by the rest of the library.
-/

namespace JvmAssembler

namespace ControlFlow

/-- An instruction, as far as control flow is concerned. -/
inductive Vertex
  /-- Neither a jump nor a switch. -/
  | straight (bytes : List UInt8)
  /-- A jump to an absolute position, which in malformed code may lie before the start. -/
  | jump (op : Opcode) (target : Int)
  /-- A switch with its keys, each with an absolute position. -/
  | switch (op : Opcode) (fallback : Int) (arms : List (Int × Int))
  deriving DecidableEq

/-- The positions that an instruction can jump to. -/
def Vertex.targets : Vertex → List Int
  | straight _ => []
  | jump _ target => [target]
  | switch _ fallback arms => fallback :: arms.map (·.2)

/-- The same instruction with its targets replaced. -/
def Vertex.retarget (f : Int → Int) : Vertex → Vertex
  | straight bytes => straight bytes
  | jump op target => jump op (f target)
  | switch op fallback arms => switch op (f fallback) (arms.map fun arm => (arm.1, f arm.2))

/-! ### Reading an instruction -/

/-- The length of an instruction that is neither a jump nor a switch. -/
def straightLength? (code : Bytes) (p : Nat) : Shape → Option Nat
  | .plain | .implicitVar => some 1
  | .var | .byte | .ldc => some 2
  | .short | .ldcWide | .fieldOrMethod | .type | .iinc => some 3
  | .multiNewArray => some 4
  | .interfaceMethod | .invokeDynamic => some 5
  | .wide => some (if code.byteAt (p + 1) = Opcode.iinc then 6 else 4)
  | _ => none

/-- The position of the words of a switch: the next multiple of four behind its opcode. -/
def operandsAt (p : Nat) : Nat := p + 4 - p % 4

/-- A switch at `p` with the given words, and how many of them it has. -/
def switchVertex? (op : Opcode) (p : Nat) (word : Nat → Int) : Option (Vertex × Nat) :=
  if op = Opcode.tableSwitch then
    if word 2 < word 1 then none
    else
      let count := (word 2 - word 1 + 1).toNat
      let arms := (List.range count).map fun (i : Nat) => (word 1 + i, p + word (3 + i))
      some (.switch op (p + word 0) arms, 3 + count)
  else
    if word 1 < 0 then none
    else
      let count := (word 1).toNat
      let arms := (List.range count).map fun (i : Nat) => (word (2 + 2 * i), p + word (3 + 2 * i))
      some (.switch op (p + word 0) arms, 2 + 2 * count)

def within (code : Bytes) (node : Vertex) (stop : Nat) : Option (Vertex × Nat) :=
  if stop ≤ code.size then some (node, stop) else none

/-- The instruction at a position, whose opcode has the given operand layout, and the position behind it. -/
def vertexOf? (code : Bytes) (p : Nat) (op : Opcode) : Shape → Option (Vertex × Nat)
  | .jump => within code (.jump op (p + code.i16At (p + 1))) (p + 3)
  | .oversizedJump => within code (.jump op.unmark (p + code.u16At (p + 1))) (p + 3)
  | .wideJump => within code (.jump op (p + code.i32At (p + 1))) (p + 5)
  | .tableSwitch | .lookupSwitch =>
    (switchVertex? op p fun i => code.i32At (operandsAt p + 4 * i)).bind fun (node, words) =>
      within code node (operandsAt p + 4 * words)
  | shape =>
    (straightLength? code p shape).bind fun length =>
      within code (.straight (code.extract p (p + length)).toList) (p + length)

/-- The instruction at a position and the position behind it. -/
def vertexAt? (code : Bytes) (p : Nat) : Option (Vertex × Nat) :=
  vertexOf? code p (code.byteAt p) (Opcode.shape (code.byteAt p))

section Reading

variable {code : Bytes} {p : Nat}

theorem vertexAt?_straight {length : Nat} (hlen : straightLength? code p (Opcode.shape (code.byteAt p)) = some length)
    (hfits : p + length ≤ code.size) :
    vertexAt? code p = some (.straight (code.extract p (p + length)).toList, p + length) := by
  unfold vertexAt?
  generalize Opcode.shape (code.byteAt p) = shape at hlen
  cases shape with
  | jump | oversizedJump | wideJump | tableSwitch | lookupSwitch => simp [straightLength?] at hlen
  | _ => simp only [vertexOf?, hlen, Option.bind_some, within, if_pos hfits]

theorem vertexAt?_jump (hop : Opcode.shape (code.byteAt p) = .jump) (hfits : p + 3 ≤ code.size) :
    vertexAt? code p = some (.jump (code.byteAt p) (p + code.i16At (p + 1)), p + 3) := by
  simp only [vertexAt?, hop, vertexOf?, within, if_pos hfits]

theorem vertexAt?_oversizedJump (hop : Opcode.shape (code.byteAt p) = .oversizedJump) (hfits : p + 3 ≤ code.size) :
    vertexAt? code p = some (.jump (Opcode.unmark (code.byteAt p)) (p + code.u16At (p + 1)), p + 3) := by
  simp only [vertexAt?, hop, vertexOf?, within, if_pos hfits]

theorem vertexAt?_wideJump (hop : Opcode.shape (code.byteAt p) = .wideJump) (hfits : p + 5 ≤ code.size) :
    vertexAt? code p = some (.jump (code.byteAt p) (p + code.i32At (p + 1)), p + 5) := by
  simp only [vertexAt?, hop, vertexOf?, within, if_pos hfits]

theorem vertexAt?_switch {node : Vertex} {words : Nat}
    (hop : Opcode.shape (code.byteAt p) = .tableSwitch ∨ Opcode.shape (code.byteAt p) = .lookupSwitch)
    (hnode : switchVertex? (code.byteAt p) p (fun i => code.i32At (operandsAt p + 4 * i)) =
      some (node, words))
    (hfits : operandsAt p + 4 * words ≤ code.size) :
    vertexAt? code p = some (node, operandsAt p + 4 * words) := by
  rcases hop with hop | hop <;>
    simp only [vertexAt?, hop, vertexOf?, hnode, Option.bind_some, within, if_pos hfits]

theorem straightLength?_pos {length : Nat} {shape : Shape} (h : straightLength? code p shape = some length) : 0 < length := by
  cases shape <;> simp only [straightLength?, Option.some.injEq, reduceCtorEq] at h <;> grind

/-- An instruction takes at least a byte, and ends within the code. -/
theorem vertexAt?_bounds {node : Vertex} {stop : Nat} (h : vertexAt? code p = some (node, stop)) :
    p < stop ∧ stop ≤ code.size := by
  have hwithin : ∀ {node' : Vertex} {stop' : Nat}, p < stop' →
      within code node' stop' = some (node, stop) → p < stop ∧ stop ≤ code.size := by
    intro node' stop' hlt h
    unfold within at h
    split at h
    · obtain ⟨_, rfl⟩ : node' = node ∧ stop' = stop := by simpa using h
      exact ⟨hlt, ‹_›⟩
    · simp at h
  unfold vertexAt? at h
  generalize Opcode.shape (code.byteAt p) = shape at h
  cases shape with
  | jump | oversizedJump | wideJump => exact hwithin (by omega) h
  | tableSwitch | lookupSwitch =>
    obtain ⟨⟨_, words⟩, _, h⟩ := Option.bind_eq_some_iff.1 h
    exact hwithin (by simp only [operandsAt]; omega) h
  | _ =>
    simp only [vertexOf?] at h
    obtain ⟨length, hlen, h⟩ := Option.bind_eq_some_iff.1 h
    have := straightLength?_pos hlen
    exact hwithin (by omega) h

/-- The length of an instruction is determined by its first two bytes. -/
theorem straightLength?_congr {code' : Bytes} {p' : Nat} {shape : Shape} {length : Nat}
    (h : straightLength? code p shape = some length)
    (hbyte : 1 < length → code'.byteAt (p' + 1) = code.byteAt (p + 1)) :
    straightLength? code' p' shape = some length := by
  cases shape with
  | wide =>
    have hlong : 1 < length := by
      simp only [straightLength?, Option.some.injEq] at h
      split at h <;> omega
    simpa [straightLength?, hbyte hlong] using h
  | _ => exact h

end Reading

-- from here on an instruction is read by the lemmas above only; unfolding it would open the table of opcodes
attribute [irreducible] vertexAt?

section Switches

variable {op : Opcode} {p : Nat} {word : Nat → Int} {node : Vertex} {words : Nat}

/-- Whether a word of a switch is the offset of a target, by its number. -/
def isTarget (op : Opcode) (i : Nat) : Bool :=
  if op = Opcode.tableSwitch then i = 0 ∨ 3 ≤ i else i = 0 ∨ (3 ≤ i ∧ i % 2 = 1)

theorem switchVertex?_target (h : switchVertex? op p word = some (node, words)) {i : Nat} (hi : i < words)
    (htgt : isTarget op i = true) : p + word i ∈ node.targets := by
  unfold switchVertex? at h
  by_cases hop : op = Opcode.tableSwitch
  · rw [if_pos hop] at h
    split at h
    · simp at h
    · simp only [Option.some.injEq, Prod.mk.injEq] at h
      obtain ⟨rfl, rfl⟩ := h
      simp only [isTarget, if_pos hop, decide_eq_true_eq] at htgt
      rcases htgt with rfl | hge
      · exact List.mem_cons_self
      · refine List.mem_cons_of_mem _ (List.mem_map.2 ⟨_, List.mem_map.2 ⟨i - 3, ?_, rfl⟩, ?_⟩)
        · exact List.mem_range.2 (by omega)
        · dsimp only
          rw [show 3 + (i - 3) = i by omega]
  · rw [if_neg hop] at h
    split at h
    · simp at h
    · simp only [Option.some.injEq, Prod.mk.injEq] at h
      obtain ⟨rfl, rfl⟩ := h
      simp only [isTarget, if_neg hop, decide_eq_true_eq] at htgt
      rcases htgt with rfl | ⟨hge, hodd⟩
      · exact List.mem_cons_self
      · refine List.mem_cons_of_mem _ (List.mem_map.2 ⟨_, List.mem_map.2 ⟨(i - 3) / 2, ?_, rfl⟩, ?_⟩)
        · exact List.mem_range.2 (by omega)
        · dsimp only
          rw [show 3 + 2 * ((i - 3) / 2) = i by omega]

/-- A switch with the same numbers and other offsets is the same switch with other targets. -/
theorem switchVertex?_retarget {q : Nat} {word' : Nat → Int} {f : Int → Int} (h : switchVertex? op p word = some (node, words))
    (hword : ∀ i < words, word' i = if isTarget op i then f (p + word i) - q else word i) :
    switchVertex? op q word' = some (node.retarget f, words) := by
  have hsub : ∀ x : Int, q + (x - q) = x := by omega
  unfold switchVertex? at h ⊢
  by_cases hop : op = Opcode.tableSwitch
  · rw [if_pos hop] at h ⊢
    split at h
    · simp at h
    · simp only [Option.some.injEq, Prod.mk.injEq] at h
      obtain ⟨rfl, rfl⟩ := h
      have h0 : word' 0 = f (p + word 0) - q := by simpa [isTarget] using hword 0 (by omega)
      have h1 : word' 1 = word 1 := by simpa [isTarget] using hword 1 (by omega)
      have h2 : word' 2 = word 2 := by simpa [isTarget] using hword 2 (by omega)
      rw [h0, h1, h2, if_neg ‹_›, hsub]
      have harms : ∀ i ∈ List.range (word 2 - word 1 + 1).toNat,
          (word 1 + (i : Int), q + word' (3 + i)) = (word 1 + (i : Int), f (p + word (3 + i))) := by
        intro i hi
        have htgt : isTarget op (3 + i) = true := by simp [isTarget, hop]
        rw [hword (3 + i) (by have := List.mem_range.1 hi; omega), if_pos htgt, hsub]
      dsimp only
      rw [List.map_congr_left harms]
      simp [Vertex.retarget]
  · rw [if_neg hop] at h ⊢
    split at h
    · simp at h
    · simp only [Option.some.injEq, Prod.mk.injEq] at h
      obtain ⟨rfl, rfl⟩ := h
      have h0 : word' 0 = f (p + word 0) - q := by simpa [isTarget] using hword 0 (by omega)
      have h1 : word' 1 = word 1 := by simpa [isTarget, hop] using hword 1 (by omega)
      rw [h0, h1, if_neg ‹_›, hsub]
      have harms : ∀ i ∈ List.range (word 1).toNat,
          (word' (2 + 2 * i), q + word' (3 + 2 * i)) = (word (2 + 2 * i), f (p + word (3 + 2 * i))) := by
        intro i hi
        have hi := List.mem_range.1 hi
        have hkey : isTarget op (2 + 2 * i) = false := by simp [isTarget, hop]
        have htgt : isTarget op (3 + 2 * i) = true := by simp [isTarget, hop]
        rw [hword (2 + 2 * i) (by omega), hword (3 + 2 * i) (by omega), if_pos htgt, hsub,
          if_neg (by simp [hkey])]
      dsimp only
      rw [List.map_congr_left harms]
      simp [Vertex.retarget]

end Switches

/-! ### The graph -/

/-- The positions at which an instruction starts when code is read from its start without a gap, and the one
behind the last instruction. -/
inductive Boundary (code : Bytes) : Nat → Prop
  | start : Boundary code 0
  | next {p stop : Nat} {node : Vertex} :
      Boundary code p → vertexAt? code p = some (node, stop) → Boundary code stop

/-- Every jump and every switch leads to an instruction or to the end of the code. -/
def WellTargeted (code : Bytes) : Prop :=
  ∀ p stop node, Boundary code p → vertexAt? code p = some (node, stop) →
    ∀ t ∈ node.targets, ∃ q : Nat, t = q ∧ Boundary code q

/-- The boundaries from a position on, in order. -/
def boundariesFrom (code : Bytes) : Nat → Nat → List Nat
  | 0, p => [p]
  | fuel + 1, p =>
    p :: match vertexAt? code p with
      | some (_, stop) => boundariesFrom code fuel stop
      | none => []

theorem mem_boundariesFrom_self (code : Bytes) (fuel p : Nat) : p ∈ boundariesFrom code fuel p := by
  cases fuel <;> simp [boundariesFrom]

theorem mem_boundariesFrom_next {code : Bytes} {fuel start p stop : Nat} {node : Vertex}
    (hfuel : code.size ≤ start + fuel) (hnode : vertexAt? code p = some (node, stop))
    (h : p ∈ boundariesFrom code fuel start) : stop ∈ boundariesFrom code fuel start := by
  have hbnd := vertexAt?_bounds hnode
  induction fuel generalizing start with
  | zero =>
    obtain rfl : p = start := by simpa [boundariesFrom] using h
    omega
  | succ fuel ih =>
    rw [boundariesFrom, List.mem_cons] at h ⊢
    rcases h with rfl | h
    · simp only [hnode]
      exact .inr (mem_boundariesFrom_self _ _ _)
    · split at h
      · rename_i next hnext
        have := vertexAt?_bounds hnext
        exact .inr (ih (by omega) h)
      · simp at h

theorem boundary_of_mem {code : Bytes} {fuel start p : Nat} (hst : Boundary code start)
    (h : p ∈ boundariesFrom code fuel start) : Boundary code p := by
  induction fuel generalizing start with
  | zero =>
    obtain rfl : p = start := by simpa [boundariesFrom] using h
    exact hst
  | succ fuel ih =>
    rw [boundariesFrom, List.mem_cons] at h
    rcases h with rfl | h
    · exact hst
    · split at h
      · exact ih (.next hst ‹_›) h
      · simp at h

theorem boundary_iff {code : Bytes} {p : Nat} : Boundary code p ↔ p ∈ boundariesFrom code code.size 0 := by
  refine ⟨fun h => ?_, boundary_of_mem .start⟩
  induction h with
  | start => exact mem_boundariesFrom_self _ _ _
  | next _ hnode ih => exact mem_boundariesFrom_next (by omega) hnode ih

instance (code : Bytes) (p : Nat) : Decidable (Boundary code p) := decidable_of_iff _ boundary_iff.symm

/-- `WellTargeted`, as a test on each boundary. -/
def wellTargetedAt (code : Bytes) (p : Nat) : Bool :=
  match vertexAt? code p with
  | none => true
  | some (node, _) => node.targets.all fun t => 0 ≤ t && Boundary code t.toNat

theorem wellTargeted_iff {code : Bytes} :
    WellTargeted code ↔ ∀ p ∈ boundariesFrom code code.size 0, wellTargetedAt code p = true := by
  constructor
  · intro h p hp
    unfold wellTargetedAt
    split
    · rfl
    · rename_i node stop hnode
      rw [List.all_eq_true]
      intro t ht
      obtain ⟨q, rfl, hq⟩ := h p stop node (boundary_iff.2 hp) hnode t ht
      simpa using hq
  · intro h p stop node hp hnode t ht
    have hp := h p (boundary_iff.1 hp)
    simp only [wellTargetedAt, hnode, List.all_eq_true, Bool.and_eq_true, decide_eq_true_eq] at hp
    obtain ⟨hnonneg, hbdy⟩ := hp t ht
    exact ⟨t.toNat, (Int.toNat_of_nonneg hnonneg).symm, hbdy⟩

instance (code : Bytes) : Decidable (WellTargeted code) := decidable_of_iff _ wellTargeted_iff.symm

def isConditional (op : Opcode) : Bool :=
  op.shape = .jump && op != Opcode.goto && op != Opcode.jsr

/-- Inverting a condition gives a condition, and inverting it again the one it was. -/
theorem invert_conditional (op : Opcode) (h : isConditional op = true) :
    isConditional op.invert = true ∧ op.invert.invert = op := by
  simp only [isConditional, Bool.and_eq_true, decide_eq_true_eq, bne_iff_ne, and_assoc] at h ⊢
  exact op.of_kind.2.2 h.1 h.2.1 h.2.2

theorem isConditional_invert (op : Opcode) (h : isConditional op = true) : isConditional op.invert = true :=
  (invert_conditional op h).1

theorem shape_invert (op : Opcode) (h : isConditional op = true) : op.invert.shape = .jump := by
  have hinverse := isConditional_invert op h
  simp only [isConditional, Bool.and_eq_true, decide_eq_true_eq] at hinverse
  exact hinverse.1.1

theorem invert_invert (op : Opcode) (h : isConditional op = true) : op.invert.invert = op := (invert_conditional op h).2

/-- Whether control goes on behind an instruction that is neither a jump nor a switch. -/
def fallsThrough : List UInt8 → Bool
  | [] => false
  | op :: rest =>
    !(Opcode.isExit op || op == Opcode.ret || (op == Opcode.wide && rest.head? == some Opcode.ret))

/-- What happens on an edge of the graph. -/
inductive Action
  /-- An instruction is executed. -/
  | execute (bytes : List UInt8)
  /-- Control goes elsewhere without a condition. -/
  | goto
  /-- A subroutine is entered. -/
  | call
  /-- The condition holds on which this opcode jumps. -/
  | holds (condition : Opcode)
  /-- A switch picks one of its keys, or none of them. -/
  | select (key : Option Int)
  deriving DecidableEq

/-- The edges of the control flow graph. -/
inductive Step (code : Bytes) : Nat → Action → Nat → Prop
  | execute {p stop : Nat} {bytes : List UInt8} :
      vertexAt? code p = some (.straight bytes, stop) → fallsThrough bytes = true →
      Step code p (.execute bytes) stop
  | goto {p stop q : Nat} {op : Opcode} :
      vertexAt? code p = some (.jump op q, stop) → op = Opcode.goto ∨ op = Opcode.gotoW →
      Step code p .goto q
  | call {p stop q : Nat} {op : Opcode} :
      vertexAt? code p = some (.jump op q, stop) → op = Opcode.jsr ∨ op = Opcode.jsrW →
      Step code p .call q
  /-- A conditional jump is taken. -/
  | taken {p stop q : Nat} {op : Opcode} :
      vertexAt? code p = some (.jump op q, stop) → isConditional op = true →
      Step code p (.holds op) q
  /-- A conditional jump is not taken. -/
  | passed {p stop : Nat} {op : Opcode} {target : Int} :
      vertexAt? code p = some (.jump op target, stop) → isConditional op = true →
      Step code p (.holds op.invert) stop
  | arm {p stop q : Nat} {op : Opcode} {fallback key : Int} {arms : List (Int × Int)} :
      vertexAt? code p = some (.switch op fallback arms, stop) → (key, (q : Int)) ∈ arms →
      Step code p (.select (some key)) q
  | fallback {p stop q : Nat} {op : Opcode} {arms : List (Int × Int)} :
      vertexAt? code p = some (.switch op q arms, stop) → Step code p (.select none) q

theorem Step.vertexAt {code : Bytes} {p q : Nat} {a : Action} (h : Step code p a q) :
    ∃ node stop, vertexAt? code p = some (node, stop) := by
  cases h with
  | execute h | goto h | call h | taken h | passed h | arm h | fallback h => exact ⟨_, _, h⟩

end ControlFlow

end JvmAssembler
