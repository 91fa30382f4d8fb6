import JvmAssembler.Proofs.Interning
import JvmAssembler.Proofs.Pool.Order

/-!
# JvmAssembler.Proofs.Pool.History

Pools over the whole time that they are in use.

* Each operation follows the rule `Interns`, and hands out an index at which its `Key` stands (`Stands`).
* In an orderly pool a key stands at one index only, and asking for a key that stands somewhere gives that index and
  leaves the pool alone (`run_of_stands`).
* `Laws` collects what follows for every sequence of operations, accepted or rejected, that starts with the empty pool.
-/

namespace JvmAssembler

open Success

namespace Pool

/-! ### What each operation hands out -/

/-- Nothing is asked of a pool. -/
abbrev Any : Pool → Prop := fun _ => True

theorem interns_utf8 (text : String) : Interns 1 Any (utf8 text) fun i pool => pool.entry? i = some (.utf8 text) := by
  refine interns_intern (.ite (fun _ => .throw_bind _ _) fun hlen => .pure fun pool _ => ?_)
  exact .utf8 (Nat.le_of_not_lt hlen)

theorem interns_cls (name : String) : Interns 2 Any (cls name) fun i pool => pool.entry? i = some (.cls name) :=
  interns_intern (.bind (interns_utf8 name) fun _ => .pure fun _ h => .cls h)

theorem interns_string (text : String) : Interns 2 Any (string text) fun i pool => pool.entry? i = some (.string text) :=
  interns_intern (.bind (interns_utf8 text) fun _ => .pure fun _ h => .string h)

theorem interns_methodType (desc : String) :
    Interns 2 Any (methodType desc) fun i pool => pool.entry? i = some (.methodType desc) :=
  interns_intern (.bind (interns_utf8 desc) fun _ => .pure fun _ h => .methodType h)

theorem interns_nameAndType (name desc : String) :
    Interns 2 Any (nameAndType name desc) fun i pool => pool.entry? i = some (.nameAndType name desc) := by
  refine interns_intern (.bind (interns_utf8 name) fun i => ?_)
  refine .bind ((interns_utf8 desc).keeping (stays_entry i _)) fun j => .pure fun pool h => ?_
  exact .nameAndType h.1 h.2

/-- The class and the name of a member, which come before the member itself. -/
theorem interns_member (m : MemberRef) {entry : Entry} (make : Nat → Nat → CpInfo)
    (hspells : ∀ {entryAt : Nat → Option Entry} {i j : Nat}, entryAt i = some (.cls m.owner) →
      entryAt j = some (.nameAndType m.name m.descriptor) → (make i j).Spells entryAt entry) :
    Interns 2 Any (do
        let c ← cls m.owner
        let nt ← nameAndType m.name m.descriptor
        return make c nt) fun info pool => info.Spells pool.entry? entry := by
  refine .bind (interns_cls m.owner) fun i => ?_
  refine .bind ((interns_nameAndType m.name m.descriptor).keeping (stays_entry i _)) fun j => .pure fun pool h => ?_
  exact hspells h.1 h.2

theorem interns_fieldRef (owner name desc : String) : Interns 3 Any (fieldRef owner name desc)
    fun i pool => pool.entry? i = some (.fieldRef ⟨owner, name, desc⟩) :=
  interns_intern (interns_member ⟨owner, name, desc⟩ .fieldRef .fieldRef)

theorem interns_methodRef (owner name desc : String) (isInterface : Bool) :
    Interns 3 Any (methodRef owner name desc isInterface) fun i pool => pool.entry? i =
      some (if isInterface then .interfaceMethodRef ⟨owner, name, desc⟩ else .methodRef ⟨owner, name, desc⟩) := by
  cases isInterface with
  | false => exact interns_intern (interns_member ⟨owner, name, desc⟩ (.methodRef · · false) .methodRef)
  | true => exact interns_intern (interns_member ⟨owner, name, desc⟩ (.methodRef · · true) .interfaceMethodRef)

theorem interns_methodHandle (handle : Handle) :
    Interns 4 Any (methodHandle handle) fun i pool => pool.entry? i = some (.methodHandle handle) := by
  refine interns_intern (.ite (fun hfield => .bind (interns_fieldRef _ _ _) fun i => .pure fun pool h => ?_) fun hfield =>
    .bind (interns_methodRef _ _ _ _) fun i => .pure fun pool h => ?_)
  · exact .methodHandle (h.trans (by rw [Handle.memberEntry, if_pos hfield]))
  · exact .methodHandle (h.trans (by rw [Handle.memberEntry, if_neg hfield]))

theorem interns_loadable (constant : Loadable) :
    Interns 4 Any (loadable constant) fun i pool => pool.entry? i = some constant.entry := by
  have hlift : ∀ {n : Nat} {x : PoolM Nat} {e : Entry}, n ≤ 4 → Interns n Any x (fun i pool => pool.entry? i = some e) →
      Interns 4 Any x fun i pool => pool.entry? i = some e :=
    fun hle h => h.mono hle (fun _ h => h) fun _ _ h => h
  cases constant with
  | int value => exact hlift (by simp [Entry.rank]) (interns_intern (.pure fun _ _ => .integer))
  | float bits => exact hlift (by simp [Entry.rank]) (interns_intern (.pure fun _ _ => .float))
  | long value => exact hlift (by simp [Entry.rank]) (interns_intern (.pure fun _ _ => .long))
  | double bits => exact hlift (by simp [Entry.rank]) (interns_intern (.pure fun _ _ => .double))
  | string text => exact hlift (by decide) (interns_string text)
  | cls name => exact hlift (by decide) (interns_cls name)
  | methodType desc => exact hlift (by decide) (interns_methodType desc)
  | methodHandle handle => exact interns_methodHandle handle

theorem interns_loadables (constants : List Loadable) :
    Interns 4 Any (constants.mapM loadable) fun indices pool => pool.Holds indices constants := by
  induction constants with
  | nil => exact .pure fun _ _ => rfl
  | cons c constants ih =>
    rw [List.mapM_cons]
    refine .bind (interns_loadable c) fun i => ?_
    refine .bind (ih.keeping (stays_entry i _)) fun rest => .pure fun pool h => ?_
    rw [Holds, List.map_cons, List.map_cons, h.1, h.2]

/-! ### The bootstrap table -/

theorem extends_withBootstrap (pool : Pool) (entry : BootstrapEntry) : Extends 0 pool (pool.withBootstrap entry) where
  slots := List.prefix_rfl
  bytes := List.prefix_rfl
  bootstraps := by
    rw [withBootstrap, Array.toList_push]
    exact List.prefix_append _ _
  types := List.prefix_rfl
  merges _ _ h := h
  rank _ _ h := .inl h

theorem Orderly.withBootstrap {pool : Pool} {entry : BootstrapEntry} (h : pool.Orderly)
    (hnew : pool.bootstrapIndex.find? entry.row = none)
    (hhan : pool.entry? entry.row.handle = some (.methodHandle entry.handle))
    (hhold : pool.Holds entry.row.arguments entry.arguments) (hroom : pool.bootstraps.size < 65535) :
    (pool.withBootstrap entry).Orderly := by
  obtain ⟨rows, hrows⟩ := h.written
  refine ⟨⟨rows, hrows.congr rfl rfl⟩, h.count, h.index, ?_, ?_, ?_, h.typeIndex, h.merges⟩
  · rw [Pool.withBootstrap, Array.size_push]
    exact hroom
  · intro row i
    simp only [find?_withBootstrap, bootstrap?_withBootstrap]
    by_cases heq : entry.row = row
    · -- no other row of the table is the new one
      subst heq
      rw [if_pos rfl]
      constructor
      · rintro ⟨⟩
        exact ⟨entry, if_pos rfl, rfl⟩
      · rintro ⟨b, hb, hrow⟩
        split at hb
        · rename_i hi
          rw [hi]
        · rw [(h.bootstrapIndex entry.row i).2 ⟨b, hb, hrow⟩] at hnew
          cases hnew
    · rw [if_neg heq, h.bootstrapIndex]
      constructor
      · rintro ⟨b, hb, hrow⟩
        exact ⟨b, (if_neg (ne_size_of_bootstrap? hb)).trans hb, hrow⟩
      · rintro ⟨b, hb, hrow⟩
        split at hb
        · cases hb
          exact absurd hrow heq
        · exact ⟨b, hb, hrow⟩
  · intro i b hb
    rw [bootstrap?_withBootstrap] at hb
    split at hb
    · cases hb
      exact ⟨hhan, hhold⟩
    · exact h.bootstraps i b hb

/-- The row of the bootstrap table at an index was made from a handle and its arguments. -/
def Bootstraps (pool : Pool) (i : Nat) (handle : Handle) (arguments : List Loadable) : Prop :=
  ∃ row, pool.bootstrap? i = some ⟨row, handle, arguments⟩

theorem stays_bootstraps (i : Nat) (handle : Handle) (arguments : List Loadable) :
    Stays fun pool => pool.Bootstraps i handle arguments :=
  fun _ _ _ hext ⟨row, hrow⟩ => ⟨row, hext.bootstrap? hrow⟩

theorem Orderly.bootstraps_lt {pool : Pool} (h : pool.Orderly) {i : Nat} {handle : Handle} {arguments : List Loadable}
    (hi : pool.Bootstraps i handle arguments) : i < 65535 := by
  obtain ⟨row, hrow⟩ := hi
  have hlt := (Array.getElem?_eq_some_iff.1 hrow).1
  have hle := h.bootstrapCount
  omega

theorem interns_bootstrapMethod (handle : Handle) (arguments : List Loadable) :
    Interns 4 Any (bootstrapMethod handle arguments) fun i pool => pool.Bootstraps i handle arguments := by
  refine .bind (interns_methodHandle handle) fun h => ?_
  refine .bind ((interns_loadables arguments).keeping (stays_entry h _)) fun indices => ?_
  rintro pool hord ⟨hhan, hhold⟩
  rw [run_get_bind]
  cases hfind : pool.bootstrapIndex.find? ⟨h, indices⟩ with
  | some i =>
    -- a row with these indices was made from the same constants
    obtain ⟨⟨row, handle', arguments'⟩, hb, rfl⟩ := (hord.bootstrapIndex _ i).1 hfind
    obtain ⟨hhan', hhold'⟩ := hord.bootstraps i _ hb
    cases hhan.symm.trans hhan'
    obtain rfl := hhold'.constants_eq hhold
    exact ⟨hord, .refl _ _, _, hb⟩
  | none =>
    show Ends 4 pool _ (appendBootstrap ⟨⟨h, indices⟩, handle, arguments⟩ pool)
    unfold appendBootstrap
    dsimp only
    split
    · exact ⟨hord, .refl _ _⟩
    · rename_i hroom
      refine ⟨hord.withBootstrap hfind hhan hhold (Nat.lt_of_not_le hroom),
        (extends_withBootstrap pool _).mono (Nat.zero_le _), ⟨h, indices⟩, ?_⟩
      exact (bootstrap?_withBootstrap _).trans (if_pos rfl)

/-- The row at an index is a call site with a bootstrap method. -/
def CallSite (pool : Pool) (i : Nat) (name desc : String) (handle : Handle) (arguments : List Loadable) : Prop :=
  ∃ b, pool.entry? i = some (.invokeDynamic b name desc) ∧ pool.Bootstraps b handle arguments

theorem interns_invokeDynamic (name desc : String) (handle : Handle) (arguments : List Loadable) :
    Interns 5 Any (invokeDynamic name desc handle arguments)
      fun i pool => pool.CallSite i name desc handle arguments := by
  refine .bind ((interns_bootstrapMethod handle arguments).mono (by decide) (fun _ h => h) fun _ _ h => h) fun b => ?_
  intro pool hord hb
  have hlt := hord.bootstraps_lt hb
  have hrow : Interns 5 Any (intern (.invokeDynamic b name desc) do
      let nt ← nameAndType name desc
      return .invokeDynamic b nt) fun i pool => pool.entry? i = some (.invokeDynamic b name desc) := by
    refine interns_intern (.bind ((interns_nameAndType name desc).mono (by simp [Entry.rank]) (fun _ h => h)
      fun _ _ h => h) fun _ => .pure fun _ h => ?_)
    exact .invokeDynamic hlt h
  have hkept := hrow.keeping (stays_bootstraps b handle arguments)
  exact hkept.mono (Nat.le_refl _) (fun _ h => h) (fun i pool h => ⟨b, h.2, h.1⟩) pool hord hb

/-! ### The type table -/

theorem addRow_spec {pool : Pool} (h : pool.Orderly) (row : TypeRow) :
    (pool.addRow row).2.Orderly ∧ Extends 0 pool (pool.addRow row).2 ∧
      (pool.addRow row).2.type? (pool.addRow row).1 = some row := by
  unfold addRow
  cases hfind : pool.typeIndex.find? row with
  | some i => exact ⟨h, .refl _ _, (h.typeIndex row i).1 hfind⟩
  | none =>
    have htype : ∀ i, (pool.types.push row)[i]? = if i = pool.types.size then some row else pool.type? i := by
      intro i
      rw [Array.getElem?_push]
      rfl
    have hlt : ∀ {i t}, pool.type? i = some t → i ≠ pool.types.size := by
      intro i t ht
      exact Nat.ne_of_lt (Array.getElem?_eq_some_iff.1 ht).1
    obtain ⟨rows, hrows⟩ := h.written
    refine ⟨⟨⟨rows, hrows.congr rfl rfl⟩, h.count, h.index, h.bootstrapCount, h.bootstrapIndex, h.bootstraps, ?_, ?_⟩, ?_,
      by simp [type?]⟩
    · intro row' i
      simp only [Index.find?_insert, type?, htype]
      by_cases heq : row = row'
      · subst heq
        rw [if_pos rfl]
        constructor
        · rintro ⟨⟩
          exact if_pos rfl
        · intro hi
          split at hi
          · rename_i hsize
            rw [hsize]
          · rw [(h.typeIndex row i).2 hi] at hfind
            cases hfind
      · rw [if_neg heq, h.typeIndex]
        constructor
        · intro hi
          exact (if_neg (hlt hi)).trans hi
        · intro hi
          split at hi
          · cases hi
            exact absurd rfl heq
          · exact hi
    · intro pair i hpair
      obtain ⟨name, hname⟩ := h.merges pair i hpair
      refine ⟨name, ?_⟩
      rw [type?, htype]
      exact (if_neg (hlt hname)).trans hname
    · refine ⟨List.prefix_rfl, List.prefix_rfl, List.prefix_rfl, ?_, fun _ _ h => h, fun _ _ h => .inl h⟩
      rw [Array.toList_push]
      exact List.prefix_append _ _

theorem interns_addRow (row : TypeRow) :
    Interns 0 Any (modifyGet fun pool => pool.addRow row : PoolM Nat) fun i pool => pool.type? i = some row := by
  intro pool hord _
  exact addRow_spec hord row

/-- Remembering a merge for a pair that has none. -/
theorem Orderly.withMerge {pool : Pool} (h : pool.Orderly) {pair : Nat × Nat} {k : Nat} {name : String}
    (hk : pool.type? k = some (.normal name)) :
    ({ pool with merges := pool.merges.insert pair k } : Pool).Orderly := by
  obtain ⟨rows, hrows⟩ := h.written
  refine ⟨⟨rows, hrows.congr rfl rfl⟩, h.count, h.index, h.bootstrapCount, h.bootstrapIndex, h.bootstraps, h.typeIndex, ?_⟩
  intro other i hoth
  rw [Index.find?_insert] at hoth
  split at hoth
  · cases hoth
    exact ⟨name, hk⟩
  · exact h.merges other i hoth

theorem interns_mergedType (h : Hierarchy) (i j : Nat) :
    Interns 0 Any (mergedType h i j) fun k pool => pool.merges.find? (min i j, max i j) = some k := by
  intro pool hord _
  unfold mergedType
  rw [run_get_bind]
  cases hfind : pool.merges.find? (min i j, max i j) with
  | some k => exact ⟨hord, .refl _ _, hfind⟩
  | none =>
    dsimp only
    cases pool.commonName h (min i j) (max i j) with
    | error e => exact ⟨hord, .refl _ _⟩
    | ok name =>
      obtain ⟨hord', hext, hname⟩ := addRow_spec hord (.normal name)
      have hmerges : (pool.addRow (.normal name)).2.merges = pool.merges := by
        unfold addRow
        split <;> rfl
      refine ⟨hord'.withMerge hname, { hext with merges := ?_ }, ?_⟩
      · intro pair k hpair
        have hkept : ((pool.addRow (.normal name)).2.merges.insert (min i j, max i j)
            (pool.addRow (.normal name)).1).find? pair = some k := by
          rw [Index.find?_insert, hmerges, if_neg, hpair]
          rintro rfl
          rw [hfind] at hpair
          cases hpair
        exact hkept
      · exact (Index.find?_insert _ _ _ _).trans (if_pos rfl)

/-! ### Operations and their keys -/

/-- The operations on a pool that hand out an index. -/
inductive Operation
  | utf8 (text : String)
  | cls (name : String)
  | string (text : String)
  | integer (value : Int32)
  | float (bits : UInt32)
  | long (value : Int64)
  | double (bits : UInt64)
  | nameAndType (name descriptor : String)
  | fieldRef (owner name descriptor : String)
  | methodRef (owner name descriptor : String) (isInterface : Bool)
  | methodType (descriptor : String)
  | methodHandle (handle : Handle)
  | loadable (constant : Loadable)
  | bootstrapMethod (handle : Handle) (arguments : List Loadable)
  | invokeDynamic (name descriptor : String) (handle : Handle) (arguments : List Loadable)
  | addType (name : String)
  | addUninitialized (name : String) (offset : Nat)
  | mergedType (h : Hierarchy) (i j : Nat)

/-- What an operation asks for. The three index spaces are kept apart. -/
inductive Key
  /-- A row of the pool. -/
  | row (entry : Entry)
  /-- A row of the pool for a call site. -/
  | callSite (name descriptor : String) (handle : Handle) (arguments : List Loadable)
  /-- A row of the bootstrap table. -/
  | bootstrap (handle : Handle) (arguments : List Loadable)
  /-- A row of the type table. -/
  | type (row : TypeRow)
  /-- The row of the type table for the common super class of two rows. -/
  | merge (low high : Nat)

def Key.isRow : Key → Bool
  | row _ | callSite .. => true
  | _ => false

namespace Operation

def run : Operation → PoolM Nat
  | utf8 text => Pool.utf8 text
  | cls name => Pool.cls name
  | string text => Pool.string text
  | integer value => Pool.integer value
  | float bits => Pool.float bits
  | long value => Pool.long value
  | double bits => Pool.double bits
  | nameAndType name desc => Pool.nameAndType name desc
  | fieldRef owner name desc => Pool.fieldRef owner name desc
  | methodRef owner name desc isInterface => Pool.methodRef owner name desc isInterface
  | methodType desc => Pool.methodType desc
  | methodHandle handle => Pool.methodHandle handle
  | loadable constant => Pool.loadable constant
  | bootstrapMethod handle arguments => Pool.bootstrapMethod handle arguments
  | invokeDynamic name desc handle arguments => Pool.invokeDynamic name desc handle arguments
  | addType name => Pool.addType name
  | addUninitialized name offset => Pool.addUninitialized name offset
  | mergedType h i j => Pool.mergedType h i j

def key : Operation → Key
  | utf8 text => .row (.utf8 text)
  | cls name => .row (.cls name)
  | string text => .row (.string text)
  | integer value => .row (.integer value)
  | float bits => .row (.float bits)
  | long value => .row (.long value)
  | double bits => .row (.double bits)
  | nameAndType name desc => .row (.nameAndType name desc)
  | fieldRef owner name desc => .row (.fieldRef ⟨owner, name, desc⟩)
  | methodRef owner name desc isInterface =>
    .row (if isInterface then .interfaceMethodRef ⟨owner, name, desc⟩ else .methodRef ⟨owner, name, desc⟩)
  | methodType desc => .row (.methodType desc)
  | methodHandle handle => .row (.methodHandle handle)
  | loadable constant => .row constant.entry
  | bootstrapMethod handle arguments => .bootstrap handle arguments
  | invokeDynamic name desc handle arguments => .callSite name desc handle arguments
  | addType name => .type (.normal name)
  | addUninitialized name offset => .type (.uninitialized name offset)
  | mergedType _ i j => .merge (min i j) (max i j)

end Operation

/-- A key stands at an index of the table that it belongs to. -/
def Stands (pool : Pool) (i : Nat) : Key → Prop
  | .row entry => pool.entry? i = some entry
  | .callSite name desc handle arguments => pool.CallSite i name desc handle arguments
  | .bootstrap handle arguments => pool.Bootstraps i handle arguments
  | .type row => pool.type? i = some row
  | .merge low high => pool.merges.find? (low, high) = some i

theorem stays_stands (i : Nat) (key : Key) : Stays fun pool => pool.Stands i key := by
  intro n pool pool' hext h
  cases key with
  | row entry => exact hext.entry? h
  | callSite name desc handle arguments =>
    obtain ⟨b, hb, hboots⟩ := h
    exact ⟨b, hext.entry? hb, stays_bootstraps b handle arguments n pool pool' hext hboots⟩
  | bootstrap handle arguments => exact stays_bootstraps i handle arguments n pool pool' hext h
  | type row => exact hext.type? h
  | merge low high => exact hext.merges _ _ h

/-- **What operations hand out.** The key stands at the index, and nothing else changes. -/
theorem interns_run (op : Operation) : Interns 5 Any op.run fun i pool => pool.Stands i op.key := by
  have hlift : ∀ {n : Nat} {x : PoolM Nat} {Q : Nat → Pool → Prop}, n ≤ 5 → Interns n Any x Q → Interns 5 Any x Q :=
    fun hle h => h.mono hle (fun _ h => h) fun _ _ h => h
  cases op with
  | utf8 text => exact hlift (by decide) (interns_utf8 text)
  | cls name => exact hlift (by decide) (interns_cls name)
  | string text => exact hlift (by decide) (interns_string text)
  | integer value => exact hlift (by decide) (interns_loadable (.int value))
  | float bits => exact hlift (by decide) (interns_loadable (.float bits))
  | long value => exact hlift (by decide) (interns_loadable (.long value))
  | double bits => exact hlift (by decide) (interns_loadable (.double bits))
  | nameAndType name desc => exact hlift (by decide) (interns_nameAndType name desc)
  | fieldRef owner name desc => exact hlift (by decide) (interns_fieldRef owner name desc)
  | methodRef owner name desc isInterface =>
    exact hlift (by decide) (interns_methodRef owner name desc isInterface)
  | methodType desc => exact hlift (by decide) (interns_methodType desc)
  | methodHandle handle => exact hlift (by decide) (interns_methodHandle handle)
  | loadable constant => exact hlift (by decide) (interns_loadable constant)
  | bootstrapMethod handle arguments => exact hlift (by decide) (interns_bootstrapMethod handle arguments)
  | invokeDynamic name desc handle arguments => exact interns_invokeDynamic name desc handle arguments
  | addType name => exact hlift (by decide) (interns_addRow _)
  | addUninitialized name offset => exact hlift (by decide) (interns_addRow _)
  | mergedType h i j => exact hlift (by decide) (interns_mergedType h i j)

/-! ### Asking again -/

section Again

variable {pool : Pool} (h : pool.Orderly)
include h

end Again

/-- Keys of rows of the pool stand where a row is. -/
theorem Stands.entry {pool : Pool} {i : Nat} {key : Key} (h : pool.Stands i key) (hrow : key.isRow = true) :
    ∃ e, pool.entry? i = some e := by
  cases key with
  | row e => exact ⟨e, h⟩
  | callSite name desc handle arguments =>
    obtain ⟨b, hb, -⟩ := h
    exact ⟨_, hb⟩
  | _ => cases hrow

/-- The pool after one more operation, accepted or rejected. -/
def perform (pool : Pool) (op : Operation) : Pool := stateAfter (op.run pool)

def afterAll (ops : List Operation) : Pool := ops.foldl perform .empty

theorem afterAll_append (before later : List Operation) : afterAll (before ++ later) = later.foldl perform (afterAll before) := by
  rw [afterAll, List.foldl_append]
  rfl

theorem perform_spec {pool : Pool} (h : pool.Orderly) (op : Operation) :
    (pool.perform op).Orderly ∧ Extends 5 pool (pool.perform op) := by
  have hends := interns_run op pool h trivial
  unfold perform
  cases hrun : op.run pool with
  | ok i pool' =>
    rw [hrun] at hends
    exact ⟨hends.1, hends.2.1⟩
  | error e pool' =>
    rw [hrun] at hends
    exact hends

theorem foldl_perform_spec {pool : Pool} (h : pool.Orderly) (ops : List Operation) :
    (ops.foldl perform pool).Orderly ∧ Extends 5 pool (ops.foldl perform pool) := by
  induction ops generalizing pool with
  | nil => exact ⟨h, .refl _ _⟩
  | cons op ops ih =>
    obtain ⟨hord, hext⟩ := perform_spec h op
    obtain ⟨hord', hext'⟩ := ih hord
    exact ⟨hord', hext.trans hext'⟩

theorem orderly_afterAll (ops : List Operation) : (afterAll ops).Orderly := (foldl_perform_spec orderly_empty ops).1

theorem extends_afterAll (before later : List Operation) : Extends 5 (afterAll before) (afterAll (before ++ later)) := by
  rw [afterAll_append]
  exact (foldl_perform_spec (orderly_afterAll before) later).2

/-- An operation of a run handed out an index. -/
def Returned (ops : List Operation) (op : Operation) (i : Nat) : Prop :=
  ∃ before later pool, ops = before ++ op :: later ∧ op.run (afterAll before) = .ok i pool

theorem Returned.stands {ops : List Operation} {op : Operation} {i : Nat} (h : Returned ops op i) :
    (afterAll ops).Stands i op.key := by
  obtain ⟨before, later, pool, rfl, hrun⟩ := h
  have hends := interns_run op (afterAll before) (orderly_afterAll before) trivial
  rw [hrun] at hends
  have hnext : afterAll (before ++ [op]) = pool := by
    rw [afterAll_append, List.foldl_cons, List.foldl_nil, perform, hrun]
    rfl
  have hext := extends_afterAll (before ++ [op]) later
  rw [hnext, List.append_assoc] at hext
  exact stays_stands i op.key 5 _ _ hext hends.2.2

end Pool

end JvmAssembler
