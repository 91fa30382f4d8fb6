import JvmAssembler.Proofs.Pool.Reading

/-!
# JvmAssembler.Proofs.Pool.Duplicates

When two rows of a pool are stored in the same bytes.

Rows are told apart by what they stand for, while a class file is made of their bytes. These leave out one thing: whether
a field that a handle gives access to is one of an interface. So a handle for a field can be stored twice, and with it the
rows of the bootstrap table that refer to it; everything else is stored once (`duplicates_afterAll`).
-/

namespace JvmAssembler

/-- The handle that says the opposite about whether its member is one of an interface. -/
def Handle.twin (h : Handle) : Handle := { h with isInterface := !h.isInterface }

/-- Different rows of which the same is stored are handles for a field. -/
theorem Entry.twins_of_stored {e e' : Entry} (h : e.stored = e'.stored) (hne : e ≠ e') :
    ∃ handle : Handle, handle.kind.isFieldAccess = true ∧ e = .methodHandle handle ∧ e' = .methodHandle handle.twin := by
  cases e with
  | methodHandle handle =>
    cases e' with
    | methodHandle handle' =>
      obtain ⟨kind, owner, name, descriptor, flag⟩ := handle
      obtain ⟨kind', owner', name', descriptor', flag'⟩ := handle'
      cases hfield : kind.isFieldAccess <;> cases hfield' : kind'.isFieldAccess <;> cases flag <;> cases flag' <;>
        simp_all [Entry.stored, Handle.twin]
    | _ => simp [Entry.stored] at h
  | _ => cases e' <;> simp_all [Entry.stored]

theorem Entry.stored_twin {handle : Handle} (h : handle.kind.isFieldAccess = true) :
    (Entry.methodHandle handle.twin).stored = (Entry.methodHandle handle).stored := by
  simp [Entry.stored, Handle.twin, h]

/-- The bytes of a row determine it. -/
theorem Parser.Storable.eq_of_bytes {a b : CpInfo} (ha : Storable a) (hb : Storable b) (h : a.bytes = b.bytes) : a = b := by
  have hread := (parses_constant ha).run
  rw [h, (parses_constant hb).run] at hread
  exact (Prod.mk.inj (Option.some.inj hread)).1.symm

namespace ConstantTable

variable {table : ConstantTable}

/-- The rows at two indices are stored in the same bytes. -/
def SameBytes (table : ConstantTable) (i j : Nat) : Prop :=
  ∃ a b, table.row i = some a ∧ table.row j = some b ∧ a.bytes = b.bytes

/-- Two rows of a bootstrap table have handles and arguments that are stored in the same bytes. -/
def SameRow (table : ConstantTable) (row row' : BootstrapRow) : Prop :=
  table.SameBytes row.handle row'.handle ∧ List.Forall₂ table.SameBytes row.arguments row'.arguments

/-- What a row is resolved to depends on how it is stored, not on where. -/
theorem resolve_congr {i j : Nat} (h : table.row i = table.row j) : table.resolve i = table.resolve j := by
  have hmb : table.nameAndType i = table.nameAndType j := by rw [nameAndType, nameAndType, h]
  rw [resolve, resolve, h, hmb]

end ConstantTable

namespace Pool

section
variable {pool : Pool} (h : pool.Orderly)
include h

variable {i j : Nat} {e e' : Entry}

/-- What stands in an orderly pool stands at one index. -/
theorem Orderly.index_unique (hi : pool.entry? i = some e) (hj : pool.entry? j = some e) : i = j :=
  Option.some.inj (((h.index e i).2 hi).symm.trans ((h.index e j).2 hj))

variable {rows : List Row} (hrows : Written pool rows)
include hrows

/-- Rows of which the same is stored refer to the same rows. -/
theorem row_eq_of_stored (hi : pool.entry? i = some e) (hj : pool.entry? j = some e')
    (hstored : e.stored = e'.stored) : (stored rows).row i = (stored rows).row j := by
  by_cases hne : e = e'
  · subst hne
    rw [h.index_unique hi hj]
  · obtain ⟨handle, hfield, rfl, rfl⟩ := Entry.twins_of_stored hstored hne
    obtain ⟨info, entryAt, hrow, hspells, hearlier⟩ := hrows.row_spells hi
    obtain ⟨info', entryAt', hrow', hspells', hearlier'⟩ := hrows.row_spells hj
    rw [hrow, hrow']
    cases hspells with
    | methodHandle hmb =>
      cases hspells' with
      | methodHandle hmb' =>
        have hsame : handle.twin.memberEntry = handle.memberEntry := by simp [Handle.memberEntry, Handle.twin, hfield]
        rw [hsame] at hmb'
        rw [h.index_unique (hearlier _ _ hmb).2 (hearlier' _ _ hmb').2]
        rfl

theorem sameBytes_iff_stored (hi : pool.entry? i = some e) (hj : pool.entry? j = some e') :
    (stored rows).SameBytes i j ↔ e.stored = e'.stored := by
  constructor
  · rintro ⟨a, b, ha, hb, hbs⟩
    have hstorable : ∀ {k info}, (stored rows).row k = some info → Parser.Storable info := by
      intro k info hinfo
      rw [row_stored] at hinfo
      obtain ⟨r, hr, rfl⟩ := Option.map_eq_some_iff.1 hinfo
      obtain ⟨before, after, rfl, -⟩ := rowAt_split hr
      exact h.storable hrows (by simp)
    have hrow : (stored rows).row i = (stored rows).row j := by
      rw [ha, hb, (hstorable ha).eq_of_bytes (hstorable hb) hbs]
    have hres := ConstantTable.resolve_congr hrow
    rw [resolve_stored hrows, resolve_stored hrows, hi, hj] at hres
    exact Option.some.inj hres
  · intro hstored
    obtain ⟨info, -, hrow, -⟩ := hrows.row_spells hi
    exact ⟨info, info, hrow, (row_eq_of_stored h hrows hi hj hstored).symm.trans hrow, rfl⟩

omit h in
/-- A row that is stored stands for something. -/
theorem entries_of_sameBytes (hsame : (stored rows).SameBytes i j) :
    ∃ e e', pool.entry? i = some e ∧ pool.entry? j = some e' := by
  have hent : ∀ {k info}, (stored rows).row k = some info → ∃ e, pool.entry? k = some e := by
    intro k info hinfo
    rw [row_stored] at hinfo
    obtain ⟨r, hr, -⟩ := Option.map_eq_some_iff.1 hinfo
    exact ⟨r.entry, by rw [hrows.entry?_eq, hr]; rfl⟩
  obtain ⟨a, b, ha, hb, -⟩ := hsame
  obtain ⟨e, he⟩ := hent ha
  obtain ⟨e', he'⟩ := hent hb
  exact ⟨e, e', he, he'⟩

/-- **Only handles for fields are stored twice.** -/
theorem sameBytes_iff_twins (hne : i ≠ j) : (stored rows).SameBytes i j ↔
    ∃ handle : Handle, handle.kind.isFieldAccess = true ∧ pool.entry? i = some (.methodHandle handle) ∧
      pool.entry? j = some (.methodHandle handle.twin) := by
  constructor
  · intro hsame
    obtain ⟨e, e', hi, hj⟩ := entries_of_sameBytes hrows hsame
    have hdiffer : e ≠ e' := by
      rintro rfl
      exact hne (h.index_unique hi hj)
    obtain ⟨handle, hfield, rfl, rfl⟩ := Entry.twins_of_stored ((sameBytes_iff_stored h hrows hi hj).1 hsame) hdiffer
    exact ⟨handle, hfield, hi, hj⟩
  · rintro ⟨handle, hfield, hi, hj⟩
    exact (sameBytes_iff_stored h hrows hi hj).2 (Entry.stored_twin hfield).symm

/-- The same for lists of constants. -/
theorem forall₂_sameBytes_iff {indices indices' : List Nat} {constants constants' : List Loadable}
    (hi : pool.Holds indices constants) (hj : pool.Holds indices' constants') :
    List.Forall₂ (stored rows).SameBytes indices indices' ↔
      constants.map (·.entry.stored) = constants'.map (·.entry.stored) := by
  induction constants generalizing indices indices' constants' with
  | nil =>
    obtain rfl : indices = [] := by simpa [Holds] using hi
    cases constants' with
    | nil =>
      obtain rfl : indices' = [] := by simpa [Holds] using hj
      simp
    | cons c' constants' =>
      obtain ⟨k, rest, rfl, -⟩ := List.map_eq_cons_iff.1 hj
      simp
  | cons c constants ih =>
    obtain ⟨k, rest, rfl, hk, hrest⟩ := List.map_eq_cons_iff.1 hi
    cases constants' with
    | nil =>
      obtain rfl : indices' = [] := by simpa [Holds] using hj
      simp
    | cons c' constants' =>
      obtain ⟨k', rest', rfl, hk', hrest'⟩ := List.map_eq_cons_iff.1 hj
      rw [List.forall₂_cons, sameBytes_iff_stored h hrows hk hk', ih hrest hrest', List.map_cons, List.map_cons,
        List.cons.injEq]

end

/-- **What a class file holds twice.** The rows of a pool, read from its bytes, are stored in different bytes, except for
two handles for one field of which one says that the field is one of an interface. Two rows of the bootstrap table have
handles and arguments that are stored alike if these differ in no more than that. So if no handle for a field says that
the field is one of an interface, nothing is stored twice. -/
theorem duplicates_afterAll (ops : List Operation) :
    ∃ table : ConstantTable,
      (Parser.constantPool (afterAll ops).count).run (afterAll ops).bytes.toList = some (table, []) ∧
      (afterAll ops).bytes.toList = table.flatMap (fun slot => (slot.map CpInfo.bytes).getD []) ∧
      (∀ i j, i ≠ j → (table.SameBytes i j ↔ ∃ handle : Handle, handle.kind.isFieldAccess = true ∧
        entry? (afterAll ops) i = some (.methodHandle handle) ∧
        entry? (afterAll ops) j = some (.methodHandle handle.twin))) ∧
      (∀ m n b c, (afterAll ops).bootstrap? m = some b → (afterAll ops).bootstrap? n = some c →
        (table.SameRow b.row c.row ↔ (Entry.methodHandle b.handle).stored = (Entry.methodHandle c.handle).stored ∧
          b.arguments.map (·.entry.stored) = c.arguments.map (·.entry.stored))) ∧
      ((∀ i handle, entry? (afterAll ops) i = some (.methodHandle handle) → handle.kind.isFieldAccess = true →
          handle.isInterface = false) →
        (∀ i j, table.SameBytes i j → i = j) ∧
        ∀ m n b c, (afterAll ops).bootstrap? m = some b → (afterAll ops).bootstrap? n = some c →
          table.SameRow b.row c.row → m = n) := by
  have horderly := orderly_afterAll ops
  obtain ⟨rows, hrows⟩ := horderly.written
  refine ⟨stored rows, (horderly.parses hrows).run, ?_, fun i j => sameBytes_iff_twins horderly hrows, ?_, ?_⟩
  · rw [hrows.bytes, stored, tableSlots, List.map_cons, List.flatMap_cons, List.map_flatMap, List.flatMap_assoc]
    refine List.flatMap_congr fun r _ => ?_
    simp [Row.slots, List.flatMap_replicate]
  · intro m n b c hb hc
    obtain ⟨hhandle, harguments⟩ := horderly.bootstraps m b hb
    obtain ⟨hhandle', harguments'⟩ := horderly.bootstraps n c hc
    rw [ConstantTable.SameRow, sameBytes_iff_stored horderly hrows hhandle hhandle',
      forall₂_sameBytes_iff horderly hrows harguments harguments']
  · intro hplain
    have hsame : ∀ i j, (stored rows).SameBytes i j → i = j := by
      intro i j hbytes
      by_contra hne
      obtain ⟨handle, hfield, hi, hj⟩ := (sameBytes_iff_twins horderly hrows hne).1 hbytes
      have hflag := hplain i handle hi hfield
      have hflag' := hplain j handle.twin hj hfield
      rw [Handle.twin, hflag] at hflag'
      cases hflag'
    refine ⟨hsame, ?_⟩
    rintro m n b c hb hc ⟨hhandle, harguments⟩
    have hrow : c.row = b.row := by
      have hlist : b.row.arguments = c.row.arguments :=
        List.forall₂_eq_eq_eq ▸ harguments.imp fun i j => hsame i j
      rcases b with ⟨⟨handle, arguments⟩, _, _⟩
      rcases c with ⟨⟨handle', arguments'⟩, _, _⟩
      obtain rfl : handle = handle' := hsame _ _ hhandle
      obtain rfl : arguments = arguments' := hlist
      rfl
    have hm := (horderly.bootstrapIndex b.row m).2 ⟨b, hb, rfl⟩
    have hn := (horderly.bootstrapIndex b.row n).2 ⟨c, hc, hrow⟩
    exact Option.some.inj (hm.symm.trans hn)

/-! ### Texts -/

open Text.ModifiedUtf8 in
/-- **The encoding of texts** can be undone: a text is read back from its bytes, none of which is zero or starts a group of
more than three. So different texts are given different rows, which are stored in different bytes. -/
theorem encode_faithful :
    (∀ s : String, decode (encode s) = some s ∧ (∀ b ∈ encode s, b ≠ 0 ∧ b < 0xF0) ∧
      (encode s).length = ((s.toList.flatMap Text.units).map unitWidth).sum) ∧
    Function.Injective encode ∧
    ∀ (ops : List Operation) (s t : String) (i j : Nat), Returned ops (.utf8 s) i → Returned ops (.utf8 t) j → s ≠ t →
      i ≠ j ∧ (CpInfo.utf8 s).bytes ≠ (CpInfo.utf8 t).bytes := by
  refine ⟨fun s => ⟨decode_encode s, fun b hb => ?_, length_encode s⟩, encode_injective, ?_⟩
  · obtain ⟨hpos, hlt⟩ := bounds_encode s b hb
    exact ⟨fun hzero => by simp [hzero] at hpos, UInt8.lt_iff_toNat_lt.2 hlt⟩
  · intro ops s t i j hs ht hne
    refine ⟨fun hsame => ?_, fun hbytes => hne ?_⟩
    · subst hsame
      have hrow := hs.stands.symm.trans ht.stands
      cases hrow
      exact hne rfl
    · -- the rows differ behind the tag and the length, which take three bytes
      have hencoded := congrArg (List.drop 3) hbytes
      exact encode_injective hencoded

end Pool

end JvmAssembler
