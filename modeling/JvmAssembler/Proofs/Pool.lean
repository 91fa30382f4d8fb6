import JvmAssembler.Pool
import JvmAssembler.Proofs.Keeps
import JvmAssembler.Proofs.Success

/-!
# JvmAssembler.Proofs.Pool

What the tables of a pool hold, and what appending to them changes.

* A pool is `Sound` if its two indices point to the rows that they are for, and every row of the bootstrap table
  belongs to the constants that it was made from. The empty pool is, and a row that is appended does not change that.
* A pool only grows (`Grows`), so a row that an operation hands out stays where it is.
-/

namespace JvmAssembler

/-- The row of a constant that can be pushed. -/
def Loadable.entry : Loadable → Entry
  | int value => .integer value
  | float bits => .float bits
  | long value => .long value
  | double bits => .double bits
  | string text => .string text
  | cls name => .cls name
  | methodType desc => .methodType desc
  | methodHandle handle => .methodHandle handle

theorem Loadable.entry_injective {a b : Loadable} (h : a.entry = b.entry) : a = b := by
  cases a <;> cases b <;> cases h <;> rfl

namespace Pool

/-! ### Growing and being sound -/

/-- All rows stay where they are. -/
structure Grows (pool pool' : Pool) : Prop where
  entries : ∀ {i e}, pool.entry? i = some e → pool'.entry? i = some e
  bootstraps : ∀ {i e}, pool.bootstrap? i = some e → pool'.bootstrap? i = some e

theorem Grows.refl (pool : Pool) : Grows pool pool := ⟨id, id⟩

theorem Grows.trans {u v w : Pool} (h : Grows u v) (h' : Grows v w) : Grows u w :=
  ⟨fun he => h'.entries (h.entries he), fun he => h'.bootstraps (h.bootstraps he)⟩

def Holds (pool : Pool) (indices : List Nat) (constants : List Loadable) : Prop :=
  indices.map pool.entry? = constants.map fun c => some c.entry

variable {pool pool' : Pool} {indices : List Nat} {constants : List Loadable} {i : Nat} {entry : Entry} {info : CpInfo}

theorem Holds.grows (hgrows : Grows pool pool') (h : pool.Holds indices constants) : pool'.Holds indices constants := by
  unfold Holds at h ⊢
  induction indices generalizing constants with
  | nil => simpa using h
  | cons i indices ih =>
    cases constants with
    | nil => cases h
    | cons c constants =>
      rw [List.map_cons, List.map_cons, List.cons.injEq] at h ⊢
      exact ⟨hgrows.entries h.1, ih h.2⟩

theorem Holds.constants_eq {constants' : List Loadable}
    (h : pool.Holds indices constants) (h' : pool.Holds indices constants') : constants = constants' := by
  have heq := h.symm.trans h'
  exact List.map_inj_right (fun a b hab => Loadable.entry_injective (Option.some.inj hab)) |>.1 heq

/-- The indices and the tables fit together. -/
structure Sound (pool : Pool) : Prop where
  count : pool.count ≤ 65535
  index : ∀ {e i}, pool.index.find? e = some i → pool.entry? i = some e
  bootstrapIndex : ∀ {row i}, pool.bootstrapIndex.find? row = some i →
    ∃ b, pool.bootstrap? i = some b ∧ b.row = row
  bootstraps : ∀ {i b}, pool.bootstrap? i = some b →
    pool.entry? b.row.handle = some (.methodHandle b.handle) ∧ pool.Holds b.row.arguments b.arguments

theorem sound_empty : Sound .empty where
  count := by decide
  index h := by
    rw [empty, Index.find?_empty] at h
    cases h
  bootstrapIndex h := by
    rw [empty, Index.find?_empty] at h
    cases h
  bootstraps h := by simp [bootstrap?, empty] at h

theorem lt_count (he : pool.entry? i = some entry) : i < pool.count := by
  rcases Nat.lt_or_ge i pool.slots.size with hlt | hge
  · exact hlt
  · rw [ entry?, Array.getElem?_eq_none hge] at he
    cases he

/-- Indices are 16-bit numbers. -/
theorem Sound.lt_of_entry (h : pool.Sound) (he : pool.entry? i = some entry) : i < 65536 :=
  Nat.lt_of_lt_of_le (lt_count he) (Nat.le_succ_of_le h.count)

/-! ### Appending a row -/

def withRow (pool : Pool) (entry : Entry) (info : CpInfo) : Pool :=
  { pool with
    bytes := pool.bytes.write info.bytes
    slots := (slotsOf entry).foldl Array.push pool.slots
    index := pool.index.insert entry pool.count }

theorem append_ok (h : append entry info pool = .ok i pool') :
    pool.count + entry.width ≤ 65535 ∧ i = pool.count ∧ pool' = pool.withRow entry info := by
  unfold append at h
  dsimp only at h
  split at h
  · cases h
  · cases h
    exact ⟨Nat.le_of_not_lt ‹_›, rfl, rfl⟩

theorem toList_slots_withRow :
    (pool.withRow entry info).slots.toList = pool.slots.toList ++ slotsOf entry := by
  simp [withRow]

theorem count_withRow : (pool.withRow entry info).count = pool.count + entry.width := by
  have hwidth : (slotsOf entry).length = entry.width := by
    cases entry <;> rfl
  rw [count, ← Array.length_toList, toList_slots_withRow, List.length_append, hwidth]
  rfl

theorem entry?_withRow (j : Nat) : entry? (pool.withRow entry info) j =
    if j < pool.count then pool.entry? j else if j = pool.count then some entry else none := by
  have hcnt : pool.slots.toList.length = pool.count := Array.length_toList
  rw [ entry?, ← Array.getElem?_toList, toList_slots_withRow]
  rcases Nat.lt_trichotomy j pool.count with hlt | rfl | hgt
  · rw [if_pos hlt, List.getElem?_append_left (by rwa [hcnt]), entry?, ← Array.getElem?_toList]
  · rw [if_neg (Nat.lt_irrefl _), if_pos rfl, List.getElem?_append_right (Nat.le_of_eq hcnt), hcnt, Nat.sub_self]
    rfl
  · rw [if_neg (by omega), if_neg (by omega), List.getElem?_append_right (by omega), hcnt]
    obtain ⟨k, hk⟩ : ∃ k, j - pool.count = k + 1 := ⟨j - pool.count - 1, by omega⟩
    rw [hk, slotsOf, List.getElem?_cons_succ, List.getElem?_replicate]
    split <;> rfl

@[simp] theorem entry?_withRow_count : entry? (pool.withRow entry info) pool.count = some entry := by
  rw [entry?_withRow, if_neg (Nat.lt_irrefl _), if_pos rfl]

theorem find?_withRow (e : Entry) :
    (pool.withRow entry info).index.find? e = if entry = e then some pool.count else pool.index.find? e :=
  Index.find?_insert _ _ _ _

theorem grows_withRow : pool.Grows (pool.withRow entry info) :=
  ⟨fun he => by rw [entry?_withRow, if_pos (lt_count he), he], id⟩

theorem Sound.withRow (h : pool.Sound) (hroom : pool.count + entry.width ≤ 65535) : (pool.withRow entry info).Sound where
  count := Nat.le_trans (Nat.le_of_eq count_withRow) hroom
  index hfind := by
    rw [find?_withRow] at hfind
    split at hfind
    · rename_i heq
      cases hfind
      rw [← heq, entry?_withRow_count]
    · exact grows_withRow.entries (h.index hfind)
  bootstrapIndex := h.bootstrapIndex
  bootstraps hb :=
    have hrow := h.bootstraps hb
    ⟨grows_withRow.entries hrow.1, hrow.2.grows grows_withRow⟩

/-! ### Appending to the bootstrap table -/

/-- The pool with a row appended to the bootstrap table. -/
def withBootstrap (pool : Pool) (entry : BootstrapEntry) : Pool :=
  { pool with
    bootstraps := pool.bootstraps.push entry
    bootstrapIndex := pool.bootstrapIndex.insert entry.row pool.bootstraps.size }

section
variable {b : BootstrapEntry}

theorem appendBootstrap_ok (h : appendBootstrap b pool = .ok i pool') :
    i = pool.bootstraps.size ∧ pool' = pool.withBootstrap b := by
  unfold appendBootstrap at h
  dsimp only at h
  split at h
  · cases h
  · cases h
    exact ⟨rfl, rfl⟩

theorem bootstrap?_withBootstrap (i : Nat) :
    (pool.withBootstrap b).bootstrap? i = if i = pool.bootstraps.size then some b else pool.bootstrap? i := by
  rw [bootstrap?, withBootstrap, Array.getElem?_push]
  rfl

theorem find?_withBootstrap (row : BootstrapRow) : (pool.withBootstrap b).bootstrapIndex.find? row =
    if b.row = row then some pool.bootstraps.size else pool.bootstrapIndex.find? row :=
  Index.find?_insert _ _ _ _

theorem ne_size_of_bootstrap? {b : BootstrapEntry} (h : pool.bootstrap? i = some b) : i ≠ pool.bootstraps.size :=
  Nat.ne_of_lt (Array.getElem?_eq_some_iff.1 h).1

theorem grows_withBootstrap : pool.Grows (pool.withBootstrap b) :=
  ⟨id, fun hrow => by rw [bootstrap?_withBootstrap, if_neg (ne_size_of_bootstrap? hrow), hrow]⟩

theorem Sound.withBootstrap (h : pool.Sound) (hhan : pool.entry? b.row.handle = some (.methodHandle b.handle))
    (hhold : pool.Holds b.row.arguments b.arguments) : (pool.withBootstrap b).Sound where
  count := h.count
  index := h.index
  bootstrapIndex {row j} hfind := by
    rw [find?_withBootstrap] at hfind
    split at hfind
    · cases hfind
      exact ⟨b, by rw [bootstrap?_withBootstrap, if_pos rfl], ‹_›⟩
    · obtain ⟨b', hb', hrow⟩ := h.bootstrapIndex hfind
      exact ⟨b', grows_withBootstrap.bootstraps hb', hrow⟩
  bootstraps {j b'} hb' := by
    rw [bootstrap?_withBootstrap] at hb'
    split at hb'
    · cases hb'
      exact ⟨hhan, hhold.grows grows_withBootstrap⟩
    · obtain ⟨hhan', hhold'⟩ := h.bootstraps hb'
      exact ⟨hhan', hhold'.grows grows_withBootstrap⟩

end

end Pool

end JvmAssembler
