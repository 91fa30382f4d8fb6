import JvmAssembler.Proofs.Pool
import Mathlib

/-!
# JvmAssembler.Proofs.Pool.Order

How a pool is laid out, and what no operation changes about it.

* A pool is made of `Row`s. A row stands for an entry and is stored in one or two slots; what is stored spells the entry
  out by means of the rows before it (`CpInfo.Spells`).
* A pool is `Orderly` if it is written row by row, if its indices find exactly what its tables hold, and if no table is
  too long. The empty pool is orderly.
* `Interns` is the rule for operations: they keep a pool orderly and only append to it, also where they fail. Rows refer
  to rows of a smaller `rank`, so what an operation appends on the way to its own row is never that row.
-/

namespace JvmAssembler

/-- How far a row is from texts and numbers. Rows refer to rows of a smaller rank. -/
def Entry.rank : Entry → Nat
  | utf8 _ | integer _ | float _ | long _ | double _ => 0
  | cls _ | string _ | methodType _ | nameAndType .. => 1
  | fieldRef _ | methodRef _ | interfaceMethodRef _ => 2
  | methodHandle _ => 3
  | invokeDynamic .. => 4

theorem Entry.width_pos (e : Entry) : 0 < e.width := by
  cases e <;> simp [width]

/-- The row of the member that a handle gives access to. -/
def Handle.memberEntry (h : Handle) : Entry :=
  let member : MemberRef := ⟨h.owner, h.name, h.descriptor⟩
  if h.kind.isFieldAccess then .fieldRef member
  else if h.isInterface then .interfaceMethodRef member
  else .methodRef member

/-- What a stored row stands for, given what the rows that it refers to stand for. -/
inductive CpInfo.Spells (entryAt : Nat → Option Entry) : CpInfo → Entry → Prop
  | utf8 {text : String} (h : (Text.ModifiedUtf8.encode text).length ≤ 65535) : Spells entryAt (.utf8 text) (.utf8 text)
  | integer {value : Int32} : Spells entryAt (.integer value) (.integer value)
  | float {bits : UInt32} : Spells entryAt (.float bits) (.float bits)
  | long {value : Int64} : Spells entryAt (.long value) (.long value)
  | double {bits : UInt64} : Spells entryAt (.double bits) (.double bits)
  | cls {i : Nat} {name : String} (h : entryAt i = some (.utf8 name)) : Spells entryAt (.cls i) (.cls name)
  | string {i : Nat} {text : String} (h : entryAt i = some (.utf8 text)) : Spells entryAt (.string i) (.string text)
  | methodType {i : Nat} {descriptor : String} (h : entryAt i = some (.utf8 descriptor)) :
    Spells entryAt (.methodType i) (.methodType descriptor)
  | nameAndType {i j : Nat} {name descriptor : String} (hname : entryAt i = some (.utf8 name))
    (hdesc : entryAt j = some (.utf8 descriptor)) : Spells entryAt (.nameAndType i j) (.nameAndType name descriptor)
  | fieldRef {i j : Nat} {m : MemberRef} (hown : entryAt i = some (.cls m.owner))
    (hmb : entryAt j = some (.nameAndType m.name m.descriptor)) : Spells entryAt (.fieldRef i j) (.fieldRef m)
  | methodRef {i j : Nat} {m : MemberRef} (hown : entryAt i = some (.cls m.owner))
    (hmb : entryAt j = some (.nameAndType m.name m.descriptor)) : Spells entryAt (.methodRef i j false) (.methodRef m)
  | interfaceMethodRef {i j : Nat} {m : MemberRef} (hown : entryAt i = some (.cls m.owner))
    (hmb : entryAt j = some (.nameAndType m.name m.descriptor)) :
    Spells entryAt (.methodRef i j true) (.interfaceMethodRef m)
  | methodHandle {i : Nat} {handle : Handle} (h : entryAt i = some handle.memberEntry) :
    Spells entryAt (.methodHandle handle.kind i) (.methodHandle handle)
  | invokeDynamic {bootstrap i : Nat} {name descriptor : String} (hboot : bootstrap < 65535)
    (h : entryAt i = some (.nameAndType name descriptor)) :
    Spells entryAt (.invokeDynamic bootstrap i) (.invokeDynamic bootstrap name descriptor)

namespace Pool

/-! ### Rows and slots -/

/-- A row: what it stands for, and how it is stored. -/
structure Row where
  entry : Entry
  info : CpInfo

def Row.slots (r : Row) : List (Option Row) := some r :: List.replicate (r.entry.width - 1) none

/-- The slots of a table of rows; the first one is never used. -/
def tableSlots (rows : List Row) : List (Option Row) := none :: rows.flatMap Row.slots

/-- The number of slots that some rows take. -/
def extent (rows : List Row) : Nat := (rows.map (·.entry.width)).sum

def rowAt (rows : List Row) (i : Nat) : Option Row := ((tableSlots rows)[i]?).join

theorem Row.length_slots (r : Row) : r.slots.length = r.entry.width := by
  have hpos := r.entry.width_pos
  simp [Row.slots]
  omega

theorem length_tableSlots (rows : List Row) : (tableSlots rows).length = 1 + extent rows := by
  have hrows : (rows.flatMap Row.slots).length = extent rows := by
    induction rows with
    | nil => rfl
    | cons r rows ih => simp [extent, r.length_slots, ih]
  simp [tableSlots, hrows, Nat.add_comm]

theorem extent_append (before after : List Row) : extent (before ++ after) = extent before + extent after := by
  simp [extent]

theorem extent_cons (r : Row) (rows : List Row) : extent (r :: rows) = r.entry.width + extent rows := by
  simp [extent]

theorem tableSlots_append (before after : List Row) :
    tableSlots (before ++ after) = tableSlots before ++ after.flatMap Row.slots := by
  simp [tableSlots]

variable {rows : List Row} {i : Nat} {r : Row}

theorem rowAt_lt (h : rowAt rows i = some r) : i < 1 + extent rows := by
  rw [← length_tableSlots]
  rcases Nat.lt_or_ge i (tableSlots rows).length with hlt | hge
  · exact hlt
  · rw [rowAt, List.getElem?_eq_none hge] at h
    cases h

/-- Rows stay where they are when more are appended. -/
theorem rowAt_append {before : List Row} (h : rowAt before i = some r) (after : List Row) :
    rowAt (before ++ after) i = some r := by
  have hlt := rowAt_lt h
  rw [← length_tableSlots] at hlt
  rw [rowAt, tableSlots_append, List.getElem?_append_left hlt]
  exact h

/-- A row is found behind the slots of the rows before it. -/
theorem rowAt_middle (before : List Row) (r : Row) (after : List Row) :
    rowAt (before ++ r :: after) (1 + extent before) = some r := by
  rw [rowAt, tableSlots_append, ← length_tableSlots, List.getElem?_append_right (Nat.le_refl _)]
  simp [Row.slots]

/-- Every index with a row is behind the slots of the rows before that row. -/
theorem rowAt_split (h : rowAt rows i = some r) :
    ∃ before after, rows = before ++ r :: after ∧ i = 1 + extent before := by
  -- the last row is either the one at the index, or can be left out
  induction rows using List.reverseRecOn with
  | nil =>
    cases i with
    | zero => cases h
    | succ i => simp [rowAt, tableSlots] at h
  | append_singleton rows last ih =>
    rcases Nat.lt_or_ge i (1 + extent rows) with hlt | hge
    · rw [rowAt, tableSlots_append, List.getElem?_append_left (by rwa [length_tableSlots])] at h
      obtain ⟨before, after, rfl, hi⟩ := ih h
      exact ⟨before, after ++ [last], by simp, hi⟩
    · rw [rowAt, tableSlots_append, List.getElem?_append_right (by rwa [length_tableSlots]), length_tableSlots] at h
      cases hoff : i - (1 + extent rows) with
      | zero =>
        rw [hoff] at h
        obtain rfl : last = r := by simpa [Row.slots] using h
        exact ⟨rows, [], rfl, by omega⟩
      | succ n =>
        rw [hoff] at h
        simp [Row.slots, List.getElem?_replicate] at h
        split at h <;> cases h

/-- A pool that is written row by row. What a row refers to is among the rows before it. -/
structure Written (pool : Pool) (rows : List Row) : Prop where
  slots : pool.slots.toList = (tableSlots rows).map (Option.map Row.entry)
  bytes : pool.bytes.toList = rows.flatMap (·.info.bytes)
  spelled : ∀ before r after, rows = before ++ r :: after →
    r.info.Spells (fun i => (rowAt before i).map Row.entry) r.entry

theorem Written.entry?_eq {pool : Pool} (h : Written pool rows) (i : Nat) :
    pool.entry? i = (rowAt rows i).map Row.entry := by
  rw [ entry?, ← Array.getElem?_toList, h.slots, List.getElem?_map, rowAt]
  cases (tableSlots rows)[i]? with
  | none => rfl
  | some slot => cases slot <;> rfl

theorem Written.count_eq {pool : Pool} (h : Written pool rows) : pool.count = 1 + extent rows := by
  rw [count, ← Array.length_toList, h.slots, List.length_map, length_tableSlots]

theorem Written.entries_eq {pool : Pool} (h : Written pool rows) :
    pool.entry? = fun i => (rowAt rows i).map Row.entry := funext h.entry?_eq

/-- Only the slots and the bytes matter. -/
theorem Written.congr {pool pool' : Pool} (h : Written pool rows) (hsl : pool'.slots = pool.slots)
    (hbs : pool'.bytes = pool.bytes) : Written pool' rows := ⟨hsl ▸ h.slots, hbs ▸ h.bytes, h.spelled⟩

/-! ### Orderly pools -/

/-- The tables are written row by row, the indices find exactly what the tables hold, and nothing is too long. -/
structure Orderly (pool : Pool) : Prop where
  written : ∃ rows, Written pool rows
  count : pool.count ≤ 65535
  index : ∀ e i, pool.index.find? e = some i ↔ pool.entry? i = some e
  bootstrapCount : pool.bootstraps.size ≤ 65535
  bootstrapIndex : ∀ row i, pool.bootstrapIndex.find? row = some i ↔ ∃ b, pool.bootstrap? i = some b ∧ b.row = row
  bootstraps : ∀ i b, pool.bootstrap? i = some b →
    pool.entry? b.row.handle = some (.methodHandle b.handle) ∧ pool.Holds b.row.arguments b.arguments
  typeIndex : ∀ row i, pool.typeIndex.find? row = some i ↔ pool.type? i = some row
  merges : ∀ pair i, pool.merges.find? pair = some i → ∃ name, pool.type? i = some (.normal name)

theorem orderly_empty : Orderly .empty where
  written := ⟨[], rfl, rfl, by simp⟩
  count := by decide
  index e i := by
    rw [empty, Index.find?_empty]
    cases i <;> simp [ entry?]
  bootstrapCount := by decide
  bootstrapIndex row i := by simp [empty, bootstrap?]
  bootstraps i b h := by simp [empty, bootstrap?] at h
  typeIndex row i := by simp [empty, type?]
  merges pair i h := by simp [empty] at h

/-- No two rows of an orderly pool stand for the same. -/
theorem Orderly.nodup {pool : Pool} (h : pool.Orderly) (hrows : Written pool rows) :
    (rows.map Row.entry).Nodup := by
  have hent : ∀ before r after, rows = before ++ r :: after → pool.entry? (1 + extent before) = some r.entry := by
    intro before r after heq
    rw [hrows.entry?_eq, heq, rowAt_middle]
    rfl
  have hearlier : ∀ before r after, rows = before ++ r :: after → r.entry ∉ before.map Row.entry := by
    intro before r after heq hmem
    obtain ⟨r', hr', hsame⟩ := List.mem_map.1 hmem
    obtain ⟨first, second, rfl⟩ := List.append_of_mem hr'
    -- the index would find both of them
    have hlater := hent (first ++ r' :: second) r after heq
    have hfst := hent first r' (second ++ r :: after) (by rw [heq]; simp)
    rw [hsame] at hfst
    have hidx := Option.some.inj (((h.index r.entry _).2 hfst).symm.trans ((h.index r.entry _).2 hlater))
    have hpos := r'.entry.width_pos
    rw [extent_append, extent_cons] at hidx
    omega
  clear hent hrows
  induction rows using List.reverseRecOn with
  | nil => exact List.nodup_nil
  | append_singleton rows last ih =>
    rw [List.map_append, List.nodup_append]
    refine ⟨ih fun before r after heq => hearlier before r (after ++ [last]) (by rw [heq]; simp), by simp, ?_⟩
    intro e he e' he'
    obtain rfl : e' = last.entry := by simpa using he'
    rintro rfl
    exact hearlier rows last [] rfl he

/-- The tables of a pool are those of another one, with more appended. The new rows are below a rank. -/
structure Extends (n : Nat) (pool pool' : Pool) : Prop where
  slots : pool.slots.toList <+: pool'.slots.toList
  bytes : pool.bytes.toList <+: pool'.bytes.toList
  bootstraps : pool.bootstraps.toList <+: pool'.bootstraps.toList
  types : pool.types.toList <+: pool'.types.toList
  merges : ∀ pair i, pool.merges.find? pair = some i → pool'.merges.find? pair = some i
  rank : ∀ i e, pool'.entry? i = some e → pool.entry? i = some e ∨ e.rank < n

namespace Extends

variable {n m : Nat} {u v w : Pool}

theorem refl (n : Nat) (pool : Pool) : Extends n pool pool :=
  ⟨List.prefix_rfl, List.prefix_rfl, List.prefix_rfl, List.prefix_rfl, fun _ _ h => h, fun _ _ h => .inl h⟩

theorem trans (h : Extends n u v) (h' : Extends n v w) : Extends n u w where
  slots := h.slots.trans h'.slots
  bytes := h.bytes.trans h'.bytes
  bootstraps := h.bootstraps.trans h'.bootstraps
  types := h.types.trans h'.types
  merges pair i hfind := h'.merges pair i (h.merges pair i hfind)
  rank := by
    intro i e he
    rcases h'.rank i e he with he | hrank
    · exact h.rank i e he
    · exact .inr hrank

theorem mono (h : Extends n u v) (hle : n ≤ m) : Extends m u v :=
  { h with rank := fun i e he => (h.rank i e he).imp_right fun hlt => Nat.lt_of_lt_of_le hlt hle }

theorem getElem?_extended {α : Type} {as bs : List α} (h : as <+: bs) {i : Nat} {a : α} (ha : as[i]? = some a) :
    bs[i]? = some a := by
  obtain ⟨more, rfl⟩ := h
  rw [List.getElem?_append_left (List.getElem?_eq_some_iff.1 ha).1, ha]

theorem entry? (h : Extends n u v) {i : Nat} {e : Entry} (he : u.entry? i = some e) : v.entry? i = some e := by
  rw [ Pool.entry?, ← Array.getElem?_toList] at he ⊢
  rw [getElem?_extended h.slots (Option.join_eq_some_iff.1 he)]
  rfl

theorem bootstrap? (h : Extends n u v) {i : Nat} {b : BootstrapEntry} (hb : u.bootstrap? i = some b) :
    v.bootstrap? i = some b := by
  rw [Pool.bootstrap?, ← Array.getElem?_toList] at hb ⊢
  exact getElem?_extended h.bootstraps hb

theorem type? (h : Extends n u v) {i : Nat} {row : TypeRow} (hrow : u.type? i = some row) : v.type? i = some row := by
  rw [Pool.type?, ← Array.getElem?_toList] at hrow ⊢
  exact getElem?_extended h.types hrow

end Extends

/-! ### Rules for operations -/

/-- How an operation on a pool may end. -/
def Ends {α : Type} (n : Nat) (pool : Pool) (Q : α → Pool → Prop) : EStateM.Result Error Pool α → Prop
  | .ok a pool' => pool'.Orderly ∧ Extends n pool pool' ∧ Q a pool'
  | .error _ pool' => pool'.Orderly ∧ Extends n pool pool'

/-- An operation keeps a pool orderly and appends rows below a rank, also where it fails. Where it succeeds on a pool with
`P`, it ends with `Q`. -/
def Interns {α : Type} (n : Nat) (P : Pool → Prop) (m : PoolM α) (Q : α → Pool → Prop) : Prop :=
  ∀ pool : Pool, pool.Orderly → P pool → Ends n pool Q (m pool)

/-- A property that more rows do not change. -/
def Stays (P : Pool → Prop) : Prop := ∀ n pool pool', Extends n pool pool' → P pool → P pool'

theorem stays_entry (i : Nat) (e : Entry) : Stays fun pool => pool.entry? i = some e :=
  fun _ _ _ hext => hext.entry?

namespace Interns

variable {α β : Type} {n m : Nat} {P P' : Pool → Prop}

variable {Q : α → Pool → Prop} {x : PoolM α}

theorem pure {a : α} (h : ∀ pool : Pool, P pool → Q a pool) :
    Interns n P (Pure.pure a : PoolM α) Q := by
  intro pool hord hP
  exact ⟨hord, .refl n pool, h pool hP⟩

theorem throw (e : Error) : Interns n P (MonadExcept.throw e : PoolM α) Q := by
  intro pool hord _
  exact ⟨hord, .refl n pool⟩

theorem throw_bind {Q : β → Pool → Prop} (e : Error) (f : α → PoolM β) :
    Interns n P ((MonadExcept.throw e : PoolM α) >>= f) Q := by
  intro pool hord _
  exact ⟨hord, .refl n pool⟩

theorem bind {f : α → PoolM β} {R : β → Pool → Prop} (hx : Interns n P x Q)
    (hf : ∀ a, Interns n (Q a) (f a) R) : Interns n P (x >>= f) R := by
  intro pool hord hP
  have hfst := hx pool hord hP
  cases hrun : x pool with
  | error e pool₁ =>
    rw [hrun] at hfst
    rw [Success.run_bind_of_error hrun]
    exact hfst
  | ok a pool₁ =>
    rw [hrun] at hfst
    obtain ⟨hord₁, hext₁, hQ⟩ := hfst
    rw [Success.run_bind_of_ok hrun]
    have hrest := hf a pool₁ hord₁ hQ
    cases hrun₁ : f a pool₁ with
    | error e pool₂ =>
      rw [hrun₁] at hrest
      exact ⟨hrest.1, hext₁.trans hrest.2⟩
    | ok b pool₂ =>
      rw [hrun₁] at hrest
      exact ⟨hrest.1, hext₁.trans hrest.2.1, hrest.2.2⟩

theorem ite {c : Prop} [Decidable c] {y : PoolM α} (hx : c → Interns n P x Q)
    (hy : ¬ c → Interns n P y Q) : Interns n P (if c then x else y) Q := by
  split
  · exact hx ‹_›
  · exact hy ‹_›

theorem mono {Q' : α → Pool → Prop} (h : Interns n P x Q) (hle : n ≤ m)
    (hP : ∀ pool, P' pool → P pool) (hQ : ∀ a pool, Q a pool → Q' a pool) : Interns m P' x Q' := by
  intro pool hord hP'
  have hends := h pool hord (hP pool hP')
  cases hrun : x pool with
  | error e pool' =>
    rw [hrun] at hends
    exact ⟨hends.1, hends.2.mono hle⟩
  | ok a pool' =>
    rw [hrun] at hends
    exact ⟨hends.1, hends.2.1.mono hle, hQ a pool' hends.2.2⟩

/-- What held before an operation still holds behind it. -/
theorem keeping (hP : Stays P) (h : Interns n (fun _ => True) x Q) :
    Interns n P x fun a pool => P pool ∧ Q a pool := by
  intro pool hord hpool
  have hends := h pool hord trivial
  cases hrun : x pool with
  | error e pool' =>
    rw [hrun] at hends
    exact hends
  | ok a pool' =>
    rw [hrun] at hends
    exact ⟨hends.1, hends.2.1, hP n pool pool' hends.2.1 hpool, hends.2.2⟩

end Interns

/-! ### Appending a row -/

section Appending

variable {pool : Pool} {entry : Entry} {info : CpInfo}

theorem extends_withRow (entry : Entry) (info : CpInfo) (pool : Pool) :
    Extends (entry.rank + 1) pool (pool.withRow entry info) where
  slots := by
    rw [toList_slots_withRow]
    exact List.prefix_append _ _
  bytes := by
    rw [withRow, Bytes.toList_write]
    exact List.prefix_append _ _
  bootstraps := List.prefix_rfl
  types := List.prefix_rfl
  merges _ _ h := h
  rank := by
    intro i e he
    rw [entry?_withRow] at he
    split at he
    · exact .inl he
    · split at he
      · cases he
        exact .inr (Nat.lt_succ_self _)
      · cases he

theorem Written.withRow {rows : List Row} (h : Written pool rows) (hspells : info.Spells pool.entry? entry) :
    Written (pool.withRow entry info) (rows ++ [⟨entry, info⟩]) where
  slots := by
    have hsl : (([⟨entry, info⟩] : List Row).flatMap Row.slots).map (Option.map Row.entry) = slotsOf entry := by
      simp [Row.slots, slotsOf]
    rw [toList_slots_withRow, h.slots, tableSlots_append, List.map_append, hsl]
  bytes := by
    rw [Pool.withRow, Bytes.toList_write, h.bytes]
    simp
  spelled := by
    intro before r after heq
    rcases List.eq_nil_or_concat after with rfl | ⟨after, last, rfl⟩
    · -- the new row
      obtain ⟨rfl, hlast⟩ := List.append_inj' heq rfl
      cases hlast
      rw [h.entries_eq] at hspells
      exact hspells
    · rw [List.concat_eq_append, ← List.cons_append, ← List.append_assoc] at heq
      obtain ⟨rfl, -⟩ := List.append_inj' heq rfl
      exact h.spelled before r after rfl

/-- A new row keeps a pool orderly. -/
theorem Orderly.withRow (h : pool.Orderly) (hnew : pool.index.find? entry = none) (hspells : info.Spells pool.entry? entry)
    (hroom : pool.count + entry.width ≤ 65535) : (pool.withRow entry info).Orderly := by
  obtain ⟨rows, hrows⟩ := h.written
  have hwritten := hrows.withRow hspells
  refine ⟨⟨_, hwritten⟩, ?_, ?_, h.bootstrapCount, h.bootstrapIndex, ?_, h.typeIndex, h.merges⟩
  · rwa [count_withRow]
  · intro e i
    rw [find?_withRow, entry?_withRow]
    by_cases heq : entry = e
    · subst heq
      have hnone : ∀ j, pool.entry? j ≠ some entry := by
        intro j hj
        rw [(h.index entry j).2 hj] at hnew
        cases hnew
      rw [if_pos rfl]
      constructor
      · rintro ⟨⟩
        rw [if_neg (Nat.lt_irrefl _), if_pos rfl]
      · intro hent
        split at hent
        · exact absurd hent (hnone i)
        · split at hent
          · rename_i hi
            rw [hi]
          · cases hent
    · rw [if_neg heq, h.index]
      constructor
      · intro hent
        rw [if_pos (lt_count hent)]
        exact hent
      · intro hent
        split at hent
        · exact hent
        · split at hent
          · cases hent
            exact absurd rfl heq
          · cases hent
  · intro i b hb
    obtain ⟨hhan, hhold⟩ := h.bootstraps i b hb
    exact ⟨grows_withRow.entries hhan, hhold.grows grows_withRow⟩

end Appending

/-- **Interning a row.** It is handed out where it stands, and its own appending comes last. -/
theorem interns_intern {entry : Entry} {info : PoolM CpInfo} {P : Pool → Prop}
    (hinfo : Interns entry.rank P info fun i pool => i.Spells pool.entry? entry) :
    Interns (entry.rank + 1) P (intern entry info) fun i pool => pool.entry? i = some entry := by
  intro pool hord hP
  unfold intern
  rw [Success.run_get_bind]
  cases hfind : pool.index.find? entry with
  | some i => exact ⟨hord, .refl _ _, (hord.index entry i).1 hfind⟩
  | none =>
    have hends := hinfo pool hord hP
    dsimp only
    cases hrun : info pool with
    | error e pool₁ =>
      rw [hrun] at hends
      rw [Success.run_bind_of_error hrun]
      exact ⟨hends.1, hends.2.mono (Nat.le_succ _)⟩
    | ok row pool₁ =>
      rw [hrun] at hends
      obtain ⟨hord₁, hext₁, hspells⟩ := hends
      rw [Success.run_bind_of_ok hrun]
      -- the rows that it refers to are of a smaller rank, so it is still new
      have hnew : pool₁.index.find? entry = none := by
        cases hfind₁ : pool₁.index.find? entry with
        | none => rfl
        | some j =>
          rcases hext₁.rank j entry ((hord₁.index entry j).1 hfind₁) with hold | hrank
          · rw [(hord.index entry j).2 hold] at hfind
            cases hfind
          · exact absurd hrank (Nat.lt_irrefl _)
      have hext := hext₁.mono (Nat.le_succ entry.rank)
      unfold append
      dsimp only
      split
      · exact ⟨hord₁, hext⟩
      · rename_i hroom
        exact ⟨hord₁.withRow hnew hspells (Nat.le_of_not_lt hroom),
          hext.trans (extends_withRow entry row pool₁), entry?_withRow_count⟩

end Pool

end JvmAssembler
