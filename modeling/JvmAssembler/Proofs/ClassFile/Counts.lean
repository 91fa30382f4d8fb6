import JvmAssembler.Proofs.ClassFile.Closing

/-!
# JvmAssembler.Proofs.ClassFile.Counts

The counts in a class file.

A list is written behind the number of its rows, of which the file has room for sixteen bits. Nothing keeps lists from
growing beyond that: all their rows are written, and the count is what is left of their number modulo `65536`
(`counts_modulo`). The rows of the pool and of the bootstrap table are counted while they are added, and there are only a
few kinds of attributes, so those counts are always right.
-/

namespace JvmAssembler

open Pool

/-- What is read where a list starts. -/
theorem Parser.u2_counted (rows : List (List UInt8)) (rest : List UInt8) :
    Parser.u2.run (counted rows ++ rest) = some (rows.length % 65536, rows.flatten ++ rest) := by
  have hnar : Bytes.u2 rows.length = Bytes.u2 (rows.length % 65536) := by
    have hhigh : UInt8.ofNat (rows.length >>> 8) = UInt8.ofNat ((rows.length % 65536) >>> 8) := by
      refine UInt8.toNat_inj.1 ?_
      simp only [UInt8.toNat_ofNat', Nat.shiftRight_eq_div_pow]
      omega
    have hlow : UInt8.ofNat rows.length = UInt8.ofNat (rows.length % 65536) := by
      refine UInt8.toNat_inj.1 ?_
      simp only [UInt8.toNat_ofNat']
      omega
    rw [Bytes.u2, Bytes.u2, hhigh, hlow]
  rw [counted, hnar, List.append_assoc]
  exact Parser.parses_u2 (Nat.mod_lt _ (by decide)) _

variable {β : Type} {pool : Pool} {i : Nat}

variable {bodies : List β} {parts : List (Nat × β)} {b : β} {r : Record} {m : MemberLayout .ofMethod} {d : Declaration}
  {body : Option CodeLayout} {c : CodeLayout} {inner : List InnerClassRow}

theorem Titled.mem [Part β] (h : Titled pool bodies parts) (hb : (i, b) ∈ parts) : b ∈ bodies := by
  obtain ⟨_, hmem, -, rfl⟩ := exists_of_forall₂ h hb
  exact hmem

theorem Titled.exists_mem [Part β] (h : Titled pool bodies parts) (hb : b ∈ bodies) : ∃ i, (i, b) ∈ parts := by
  obtain ⟨⟨i, _⟩, hmem, -, rfl⟩ := exists_of_forall₂ h.flip hb
  exact ⟨i, hmem⟩

/-! ### Attributes -/

theorem length_toList_le {α : Type} (f : α → β) (a : Option α) : (a.toList.map f).length ≤ 1 := by
  cases a <;> simp

theorem ClassWriter.FieldStands.length_parts {r : FieldRecord} {m : MemberLayout .ofField}
    (h : FieldStands pool r m) : m.parts.length ≤ 2 := by
  obtain ⟨constant, sig, -, -, htitled⟩ := h.parts
  rw [htitled.length_eq, List.length_append]
  exact Nat.add_le_add (length_toList_le _ _) (length_toList_le _ _)

theorem MethodWriter.MethodStands.length_parts (h : MethodStands pool d body m) : m.parts.length ≤ 3 := by
  obtain ⟨excs, sig, -, -, htitled⟩ := h.parts
  rw [htitled.length_eq, List.length_append, List.length_append]
  exact Nat.add_le_add (Nat.add_le_add (length_toList_le _ _) (length_nonempty_le _ _)) (length_toList_le _ _)

/-- The body of a method is the one that stands for its code. -/
theorem MethodWriter.MethodStands.body_of_mem (h : MethodStands pool d body m) (hc : (i, .code c) ∈ m.parts) :
    body = some c := by
  obtain ⟨excs, sig, -, -, htitled⟩ := h.parts
  have hmem := htitled.mem hc
  simpa [nonempty] using hmem

theorem MethodWriter.CodeStands.length_parts {w : MethodWriter} (h : CodeStands w pool c) :
    c.parts.length ≤ 4 := by
  obtain ⟨locals, lines, -, -, htitled⟩ := h.parts
  have hfrs : w.storedFrames.length ≤ 1 := by
    rcases w.storedFrames_cases with hnone | ⟨map, -, hsome⟩
    · simp [hnone]
    · simp [hsome]
  have hscopes := length_nonempty_le CodePart.scopes (locals.map (·.1))
  have htypes := length_nonempty_le CodePart.scopeTypes (locals.filterMap (·.2))
  have hlines := length_nonempty_le CodePart.lines lines
  rw [htitled.length_eq, List.length_append, List.length_append, List.length_append]
  omega

theorem ClassWriter.AttributesStand.length_parts
    {parts : List (Nat × ClassPart)} (h : AttributesStand pool r inner parts) : parts.length ≤ 6 := by
  obtain ⟨source, sig, host, members, -, -, -, -, htitled⟩ := h
  have hsrc := length_toList_le ClassPart.sourceFile source
  have hsig := length_toList_le ClassPart.signature sig
  have hhost := length_toList_le ClassPart.nestHost host
  have hinner := length_nonempty_le ClassPart.innerClasses inner
  have hmembers := length_nonempty_le ClassPart.nestMembers members
  have hboots := length_nonempty_le ClassPart.bootstrapMethods (pool.bootstraps.toList.map (·.row))
  rw [htitled.length_eq]
  simp only [List.length_append]
  omega

theorem ClassWriter.AttributesStand.bootstraps_of_mem
    {parts : List (Nat × ClassPart)} (h : AttributesStand pool r inner parts) {rows : List BootstrapRow}
    (hrows : (i, .bootstrapMethods rows) ∈ parts) : rows = pool.bootstraps.toList.map (·.row) := by
  obtain ⟨source, sig, host, members, -, -, -, -, htitled⟩ := h
  have hmem : pool.bootstraps ≠ #[] ∧ rows = pool.bootstraps.toList.map (·.row) := by
    simpa [nonempty] using htitled.mem hrows
  exact hmem.2

/-! ### The counts of a class -/

namespace ClassWriter

/-- The counts that are right in every class. -/
structure SmallCounts (c : ClassLayout) : Prop where
  pool : c.poolCount ≤ 65535
  attributes : c.parts.length ≤ 6
  ofFields : ∀ m ∈ c.fields, m.parts.length ≤ 2
  ofMethods : ∀ m ∈ c.methods, m.parts.length ≤ 3
  ofCode : ∀ m ∈ c.methods, ∀ i body, (i, .code body) ∈ m.parts → body.parts.length ≤ 4
  bootstraps : ∀ i rows, (i, .bootstrapMethods rows) ∈ c.parts → rows.length ≤ 65535

theorem ClassStands.smallCounts {w : ClassWriter} {r : Record} {pool : Pool} {c : ClassLayout} (h : ClassStands w r pool c) :
    SmallCounts c where
  pool := h.poolCount ▸ h.orderly.count
  attributes := h.attributes.length_parts
  ofFields m hm := by
    obtain ⟨f, -, hf⟩ := exists_of_forall₂ h.fields hm
    exact hf.length_parts
  ofMethods m hm := by
    obtain ⟨f, -, _, _, _, _, _, _, _, _, _, _, _, hstd, -⟩ := exists_of_forall₂ h.methods hm
    exact hstd.length_parts
  ofCode m hm i body hbody := by
    obtain ⟨f, -, _, _, _, _, _, _, _, _, _, _, _, hstd, hcode⟩ := exists_of_forall₂ h.methods hm
    exact (hcode.2 body (hstd.body_of_mem hbody)).length_parts
  bootstraps i rows hrows := by
    rw [h.attributes.bootstraps_of_mem hrows, List.length_map, Array.length_toList]
    exact h.orderly.bootstrapCount

/-- Whatever is written, a class has all rows of all its lists, and before each list a reader finds the number of its rows
modulo `65536`. That number is right if the list has at most `65535` rows. -/
theorem counts_modulo {compute : Compute} {hierarchy : Hierarchy} {steps : List ClassStep} {bytes : List UInt8}
    (h : (afterAll compute hierarchy steps).1.bytes = .ok bytes) :
    ∃ pool c, ClassStands (afterAll compute hierarchy steps).1 (afterAll compute hierarchy steps).2 pool c ∧
      c.encoded.bytes = bytes ∧ SmallCounts c ∧
      ∀ rows ∈ c.tables, ∃ before count rest, bytes = before ++ (counted rows ++ rest) ∧
        Parser.u2.run (counted rows ++ rest) = some (count, rows.flatten ++ rest) ∧
        count = rows.length % 65536 ∧ (count = rows.length ↔ rows.length ≤ 65535) := by
  obtain ⟨pool, c, hstands, hbytes⟩ := layout_of_bytes (holds_afterAll compute hierarchy steps) h
  refine ⟨pool, c, hstands, hbytes, hstands.smallCounts, fun rows hrows => ?_⟩
  obtain ⟨before, rest, heq⟩ := c.counted_infix hrows
  refine ⟨before, rows.length % 65536, rest, ?_, Parser.u2_counted rows rest, rfl, ?_⟩
  · rw [← hbytes, ← heq, List.append_assoc]
  · constructor
    · intro hcount
      have hlt := rows.length.mod_lt (by decide : 65536 > 0)
      omega
    · intro hle
      exact Nat.mod_eq_of_lt (by omega)

def twoLines : List ClassStep :=
  [.event (.visit .default ⟨1⟩ "A" (some "java/lang/Object") []),
   .event (.field ⟨8⟩ "n" "I" none (some (.int 7))),
   .method ⟨⟨9⟩, "m", "()V", none, []⟩
    [.event .code, .newLabel, .event (.label 0), .event (.instruction (.plain Opcode.voidReturn)), .event (.lineNumber 1 0),
     .event (.lineNumber 2 0), .event (.maxs 0 0), .event .finish],
   .event .finish]

theorem counts_modulo_twoLines : ∃ bytes, (afterAll .maxs .empty twoLines).1.bytes = .ok bytes ∧
    ∃ pool c, ClassStands (afterAll .maxs .empty twoLines).1 (afterAll .maxs .empty twoLines).2 pool c ∧
      c.encoded.bytes = bytes ∧ SmallCounts c ∧
      ∀ rows ∈ c.tables, ∃ before count rest, bytes = before ++ (counted rows ++ rest) ∧
        Parser.u2.run (counted rows ++ rest) = some (count, rows.flatten ++ rest) ∧
        count = rows.length % 65536 ∧ (count = rows.length ↔ rows.length ≤ 65535) := by
  have hwritten : (afterAll .maxs .empty twoLines).1.bytes.toBool = true := by decide +kernel
  obtain ⟨bytes, hbytes⟩ := Success.ok_of_toBool hwritten
  exact ⟨bytes, hbytes, counts_modulo hbytes⟩

end ClassWriter

end JvmAssembler
