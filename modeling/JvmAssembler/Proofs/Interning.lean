import JvmAssembler.Frame.Execute
import JvmAssembler.Proofs.Pool
import Mathlib.Data.List.Forall2

/-!
# JvmAssembler.Proofs.Interning

Asking the pool for rows.

* Each operation asks for the rows that its own row refers to (`Builds`), and then for that row (`Interning`), which is
  what it hands out.
* An operation `Settles` if asking once more gives the same answer and adds nothing, however much the pool has grown in
  between.
* Types that frames refer to are kept beside the rows, so adding one leaves the rows as they are (`SameRows`).
-/

namespace JvmAssembler

open Success

/-- An error that is neither about the order of events nor about the heights of stacks. -/
def Error.isPlain : Error → Bool
  | .invalidState .. | .stackHeightMismatch .. => false
  | _ => true

abbrev Error.IsPlain (e : Error) : Prop := e.isPlain = true

namespace Pool

/-- A sound pool stays sound and grows. -/
def Evolves (pool pool' : Pool) : Prop := pool.Sound → pool'.Sound ∧ pool.Grows pool'

/-- All rows of a pool are found at the same indices in another one. -/
structure Enlarges (pool pool' : Pool) : Prop where
  index : ∀ {e i}, pool.index.find? e = some i → pool'.index.find? e = some i
  bootstrapIndex : ∀ {row i}, pool.bootstrapIndex.find? row = some i → pool'.bootstrapIndex.find? row = some i
  evolves : Evolves pool pool'

instance : Std.Refl Enlarges := ⟨fun pool => ⟨id, id, fun h => ⟨h, .refl pool⟩⟩⟩

instance : Trans Enlarges Enlarges Enlarges where
  trans h h' :=
    ⟨fun hfind => h'.index (h.index hfind), fun hfind => h'.bootstrapIndex (h.bootstrapIndex hfind), fun hsnd =>
      have hfst := h.evolves hsnd
      have hlast := h'.evolves hfst.1
      ⟨hlast.1, hfst.2.trans hlast.2⟩⟩

/-- Two pools differ in their types at most. -/
structure SameRows (pool pool' : Pool) : Prop where
  slots : pool'.slots = pool.slots
  index : pool'.index = pool.index
  bootstraps : pool'.bootstraps = pool.bootstraps
  bootstrapIndex : pool'.bootstrapIndex = pool.bootstrapIndex

instance : Std.Refl SameRows := ⟨fun _ => ⟨rfl, rfl, rfl, rfl⟩⟩

instance : Trans SameRows SameRows SameRows where
  trans h h' := ⟨h'.slots.trans h.slots, h'.index.trans h.index,
    h'.bootstraps.trans h.bootstraps, h'.bootstrapIndex.trans h.bootstrapIndex⟩

theorem SameRows.enlarges {pool pool' : Pool} (h : SameRows pool pool') : Enlarges pool pool' := by
  obtain ⟨hsl, hidx, hboots, hbootstrapIndex⟩ := h
  have hent : ∀ i, pool'.entry? i = pool.entry? i := fun i => by rw [ entry?, entry?, hsl]
  have hboot : ∀ i, pool'.bootstrap? i = pool.bootstrap? i := fun i => by rw [bootstrap?, bootstrap?, hboots]
  have hgrows : pool.Grows pool' := ⟨fun he => by rwa [hent], fun hb => by rwa [hboot]⟩
  refine ⟨fun hfind => by rwa [hidx], fun hfind => by rwa [hbootstrapIndex], fun hsnd => ⟨⟨?_, ?_, ?_, ?_⟩, hgrows⟩⟩
  · rw [count, hsl]
    exact hsnd.count
  · intro e i hfind
    rw [hidx] at hfind
    exact hgrows.entries (hsnd.index hfind)
  · intro row i hfind
    rw [hbootstrapIndex] at hfind
    obtain ⟨b, hb, hrow⟩ := hsnd.bootstrapIndex hfind
    exact ⟨b, hgrows.bootstraps hb, hrow⟩
  · intro i b hb
    rw [hboot] at hb
    obtain ⟨hhan, hhold⟩ := hsnd.bootstraps hb
    exact ⟨hgrows.entries hhan, hhold.grows hgrows⟩

theorem addRow_sameRows (pool : Pool) (row : TypeRow) : SameRows pool (pool.addRow row).2 := by
  unfold addRow
  split
  · exact Std.Refl.refl _
  · exact ⟨rfl, rfl, rfl, rfl⟩

/-! ### Operations -/

/-- Steps that ask for rows, one after the other. -/
inductive Builds : {α : Type} → PoolM α → Prop
  | pure {α : Type} (a : α) : Builds (Pure.pure a)
  | throw {α : Type} {e : Error} (he : e.IsPlain) : Builds (MonadExcept.throw e : PoolM α)
  | bind {α β : Type} {x : PoolM α} {f : α → PoolM β} (hx : Builds x) (hf : ∀ a, Builds (f a)) : Builds (x >>= f)
  | intern (entry : Entry) {info : PoolM CpInfo} (hinfo : Builds info) : Builds (intern entry info)

theorem Builds.ite {α : Type} {c : Prop} [Decidable c] {x y : PoolM α} (hx : Builds x) (hy : Builds y) :
    Builds (if c then x else y) := by
  split
  · exact hx
  · exact hy

/-- Steps that ask for a row, after those that it refers to. -/
def Interning (m : PoolM Nat) (entry : Entry) : Prop := ∃ info, Builds info ∧ m = intern entry info

theorem Interning.builds {m : PoolM Nat} {entry : Entry} (h : Interning m entry) : Builds m := by
  obtain ⟨info, hinfo, rfl⟩ := h
  exact .intern entry hinfo

theorem interning_utf8 (text : String) : Interning (utf8 text) (.utf8 text) :=
  ⟨_, .ite (.bind (.throw (by rfl)) fun _ => .pure _) (.pure _), rfl⟩

theorem interning_cls (name : String) : Interning (cls name) (.cls name) :=
  ⟨_, .bind (interning_utf8 name).builds fun _ => .pure _, rfl⟩

theorem interning_nameAndType (name desc : String) :
    Interning (nameAndType name desc) (.nameAndType name desc) :=
  ⟨_, .bind (interning_utf8 _).builds fun _ => .bind (interning_utf8 _).builds fun _ => .pure _, rfl⟩

theorem interning_fieldRef (owner name desc : String) :
    Interning (fieldRef owner name desc) (.fieldRef ⟨owner, name, desc⟩) :=
  ⟨_, .bind (interning_cls _).builds fun _ => .bind (interning_nameAndType _ _).builds fun _ => .pure _, rfl⟩

theorem interning_methodRef (owner name desc : String) (isInterface : Bool) :
    Interning (methodRef owner name desc isInterface)
      (if isInterface then .interfaceMethodRef ⟨owner, name, desc⟩ else .methodRef ⟨owner, name, desc⟩) :=
  ⟨_, .bind (interning_cls _).builds fun _ => .bind (interning_nameAndType _ _).builds fun _ => .pure _, rfl⟩

theorem interning_methodHandle (handle : Handle) : Interning (methodHandle handle) (.methodHandle handle) :=
  ⟨_, .ite (.bind (interning_fieldRef _ _ _).builds fun _ => .pure _)
    (.bind (interning_methodRef _ _ _ _).builds fun _ => .pure _), rfl⟩

theorem interning_loadable (constant : Loadable) : Interning (loadable constant) constant.entry := by
  cases constant with
  | int _ | float _ | long _ | double _ => exact ⟨_, .pure _, rfl⟩
  | string text | methodType text => exact ⟨_, .bind (interning_utf8 text).builds fun _ => .pure _, rfl⟩
  | cls name => exact interning_cls name
  | methodHandle handle => exact interning_methodHandle handle

theorem interning_callSite (b : Nat) (name desc : String) :
    Interning (intern (.invokeDynamic b name desc) do
      let nt ← nameAndType name desc
      return .invokeDynamic b nt) (.invokeDynamic b name desc) :=
  ⟨_, .bind (interning_nameAndType _ _).builds fun _ => .pure _, rfl⟩

/-! ### Asking again -/

/-- Asking again gives the same answer, and adds nothing. -/
def Settles {α : Type} (m : PoolM α) : Prop :=
  ∀ pool a pool', m pool = .ok a pool' → Enlarges pool pool' ∧ ∀ later, Enlarges pool' later → m later = .ok a later

namespace Settles

variable {α β : Type}

theorem moves {m : PoolM α} (h : Settles m) : Moves Enlarges m := fun pool a pool' hrun => (h pool a pool' hrun).1

theorem pure (a : α) : Settles (Pure.pure a : PoolM α) := by
  intro pool b pool' h
  obtain ⟨rfl, rfl⟩ := run_pure_ok.1 h
  exact ⟨Std.Refl.refl _, fun _ _ => rfl⟩

theorem bind {x : PoolM α} {f : α → PoolM β} (hx : Settles x) (hf : ∀ a, Settles (f a)) : Settles (x >>= f) := by
  intro pool b pool' h
  obtain ⟨a, pool₁, hfst, hrest⟩ := run_bind_ok.1 h
  obtain ⟨henl, hagain⟩ := hx pool a pool₁ hfst
  obtain ⟨henl', hagain'⟩ := hf a pool₁ b pool' hrest
  refine ⟨Trans.trans henl henl', fun later hlater => ?_⟩
  rw [run_bind_of_ok (hagain later (Trans.trans henl' hlater))]
  exact hagain' later hlater

end Settles

section
variable {entry : Entry} {info : PoolM CpInfo} {pool pool' : Pool} {i : Nat}

theorem intern_of_find (info : PoolM CpInfo) (h : pool.index.find? entry = some i) : intern entry info pool = .ok i pool := by
  unfold intern
  rw [run_get_bind, h]
  rfl

/-- A row is found where it was appended, or where it was before. -/
theorem intern_found (hinfo : Moves Enlarges info) (h : intern entry info pool = .ok i pool') :
    Enlarges pool pool' ∧ pool'.index.find? entry = some i := by
  unfold intern at h
  rw [run_get_bind] at h
  cases hfind : pool.index.find? entry with
  | some j =>
    rw [hfind] at h
    obtain ⟨rfl, rfl⟩ := run_pure_ok.1 h
    exact ⟨Std.Refl.refl _, hfind⟩
  | none =>
    rw [hfind] at h
    obtain ⟨row, pool₁, hrow, happend⟩ := run_bind_ok.1 h
    have henl := hinfo _ _ _ hrow
    obtain ⟨hroom, rfl, rfl⟩ := append_ok happend
    refine ⟨⟨fun {e j} he => ?_, henl.bootstrapIndex, fun hsnd => ?_⟩, by rw [find?_withRow, if_pos rfl]⟩
    · rw [find?_withRow, if_neg, henl.index he]
      rintro rfl
      rw [hfind] at he
      cases he
    · obtain ⟨hsnd₁, hgrows⟩ := henl.evolves hsnd
      exact ⟨hsnd₁.withRow hroom, hgrows.trans grows_withRow⟩

theorem Builds.settles {α : Type} {m : PoolM α} (h : Builds m) : Settles m := by
  induction h with
  | pure a => exact .pure a
  | throw _ => exact fun _ _ _ h => nomatch h
  | bind _ _ ihx ihf => exact .bind ihx ihf
  | intern entry _ ih =>
    intro pool i pool' h
    obtain ⟨henl, hfind⟩ := intern_found ih.moves h
    exact ⟨henl, fun later hlater => intern_of_find _ (hlater.index hfind)⟩

variable {m : PoolM Nat}

theorem Interning.settles (hm : Interning m entry) : Settles m := hm.builds.settles

/-- **What is handed out** is where the row is found. -/
theorem Interning.found (hm : Interning m entry) (h : m pool = .ok i pool') : pool'.index.find? entry = some i := by
  obtain ⟨info, hinfo, rfl⟩ := hm
  exact (intern_found hinfo.settles.moves h).2

theorem Interning.stands (hm : Interning m entry) (hsnd : pool.Sound) (h : m pool = .ok i pool') :
    pool'.entry? i = some entry :=
  ((hm.settles _ _ _ h).1.evolves hsnd).1.index (hm.found h)

theorem Interning.again (hm : Interning m entry) (h : pool.index.find? entry = some i) : m pool = .ok i pool := by
  obtain ⟨info, -, rfl⟩ := hm
  exact intern_of_find info h

end

/-! ### Bootstrap methods -/

def Lists (pool : Pool) (indices : List Nat) (constants : List Loadable) : Prop :=
  List.Forall₂ (fun c i => pool.index.find? c.entry = some i) constants indices

/-- What a pool has to find for a row of its bootstrap table. -/
structure Files (pool : Pool) (handle : Handle) (arguments : List Loadable) (row : BootstrapRow) (i : Nat) : Prop where
  handle : pool.index.find? (.methodHandle handle) = some row.handle
  arguments : pool.Lists row.arguments arguments
  row : pool.bootstrapIndex.find? row = some i

section
variable {pool pool' : Pool} {indices : List Nat} {constants arguments : List Loadable} {handle : Handle} {row : BootstrapRow}
  {i : Nat}

theorem Lists.enlarges (h : pool.Lists indices constants) (hpool : Enlarges pool pool') : pool'.Lists indices constants :=
  h.imp fun _ _ hfind => hpool.index hfind

theorem Lists.holds (hsnd : pool.Sound) (h : pool.Lists indices constants) : pool.Holds indices constants := by
  induction h with
  | nil => rfl
  | cons hfind _ ih => rw [Holds, List.map_cons, List.map_cons, hsnd.index hfind, ih]

theorem Lists.again (h : pool.Lists indices constants) : constants.mapM loadable pool = .ok indices pool := by
  induction h with
  | nil => rfl
  | cons hfind _ ih =>
    rw [List.mapM_cons, run_bind_of_ok ((interning_loadable _).again hfind), run_bind_of_ok ih]
    rfl

theorem loadables_found (h : constants.mapM loadable pool = .ok indices pool') :
    Enlarges pool pool' ∧ pool'.Lists indices constants := by
  induction constants generalizing pool indices with
  | nil =>
    obtain ⟨rfl, rfl⟩ := run_pure_ok.1 h
    exact ⟨Std.Refl.refl _, .nil⟩
  | cons c constants ih =>
    rw [List.mapM_cons] at h
    obtain ⟨i, pool₁, hfst, h⟩ := run_bind_ok.1 h
    obtain ⟨rest, pool₂, hrest, h⟩ := run_bind_ok.1 h
    obtain ⟨rfl, rfl⟩ := run_pure_ok.1 h
    obtain ⟨henl, hlists⟩ := ih hrest
    have hcon := interning_loadable c
    exact ⟨Trans.trans (hcon.settles _ _ _ hfst).1 henl, .cons (henl.index (hcon.found hfst)) hlists⟩

theorem Files.again (h : pool.Files handle arguments row i) : bootstrapMethod handle arguments pool = .ok i pool := by
  unfold bootstrapMethod
  rw [run_bind_of_ok ((interning_methodHandle handle).again h.handle), run_bind_of_ok h.arguments.again, run_get_bind]
  have hrow : pool.bootstrapIndex.find? ⟨row.handle, row.arguments⟩ = some i := h.row
  rw [hrow]
  rfl

/-- A row of the bootstrap table is found where it was appended, or where it was before. -/
theorem bootstrapMethod_found (h : bootstrapMethod handle arguments pool = .ok i pool') :
    Enlarges pool pool' ∧ ∃ row, pool'.Files handle arguments row i := by
  unfold bootstrapMethod at h
  obtain ⟨index, pool₁, hhan, h⟩ := run_bind_ok.1 h
  obtain ⟨indices, pool₂, hargs, h⟩ := run_bind_ok.1 h
  obtain ⟨henl, hlists⟩ := loadables_found hargs
  have hfnd := henl.index ((interning_methodHandle handle).found hhan)
  have hbef : Enlarges pool pool₂ := Trans.trans ((interning_methodHandle handle).settles _ _ _ hhan).1 henl
  rw [run_get_bind] at h
  cases hfind : pool₂.bootstrapIndex.find? ⟨index, indices⟩ with
  | some j =>
    rw [hfind] at h
    obtain ⟨rfl, rfl⟩ := run_pure_ok.1 h
    exact ⟨hbef, ⟨index, indices⟩, hfnd, hlists, hfind⟩
  | none =>
    rw [hfind] at h
    obtain ⟨rfl, rfl⟩ := appendBootstrap_ok h
    have hlast : Enlarges pool₂ (pool₂.withBootstrap ⟨⟨index, indices⟩, handle, arguments⟩) := by
      refine ⟨id, fun {row j} hrow => ?_, fun hsnd => ?_⟩
      · rw [find?_withBootstrap, if_neg, hrow]
        rintro rfl
        rw [hfind] at hrow
        cases hrow
      · exact ⟨hsnd.withBootstrap (hsnd.index hfnd) (hlists.holds hsnd), grows_withBootstrap⟩
    refine ⟨Trans.trans hbef hlast, ⟨index, indices⟩, hfnd, hlists.enlarges hlast, ?_⟩
    rw [find?_withBootstrap, if_pos rfl]

theorem settles_bootstrapMethod (handle : Handle) (arguments : List Loadable) : Settles (bootstrapMethod handle arguments) := by
  intro pool i pool' h
  obtain ⟨henl, row, hfiles⟩ := bootstrapMethod_found h
  refine ⟨henl, fun later hlater => ?_⟩
  have hlater : later.Files handle arguments row i :=
    ⟨hlater.index hfiles.handle, hfiles.arguments.enlarges hlater, hlater.bootstrapIndex hfiles.row⟩
  exact hlater.again

theorem settles_invokeDynamic (name desc : String) (handle : Handle) (arguments : List Loadable) :
    Settles (invokeDynamic name desc handle arguments) :=
  .bind (settles_bootstrapMethod handle arguments) fun _ => (interning_callSite _ _ _).settles

/-- The row of a call site leads to a row of the bootstrap table that belongs to the given constants. -/
theorem invokeDynamic_ok {name desc : String} (hsnd : pool.Sound)
    (h : invokeDynamic name desc handle arguments pool = .ok i pool') :
    ∃ j b, pool'.entry? i = some (.invokeDynamic j name desc) ∧
      pool'.bootstrap? j = some b ∧ b.handle = handle ∧ b.arguments = arguments := by
  obtain ⟨j, pool₁, hboot, h⟩ := run_bind_ok.1 h
  obtain ⟨henl, row, hfiles⟩ := bootstrapMethod_found hboot
  have hsnd₁ := (henl.evolves hsnd).1
  obtain ⟨b, hb, rfl⟩ := hsnd₁.bootstrapIndex hfiles.row
  -- a row with these indices was made from the same constants
  obtain ⟨hhan, hhold⟩ := hsnd₁.bootstraps hb
  have hcallSite := interning_callSite j name desc
  have hgrows := ((hcallSite.settles _ _ _ h).1.evolves hsnd₁).2
  refine ⟨j, b, hcallSite.stands hsnd₁ h, hgrows.bootstraps hb, ?_, hhold.constants_eq (hfiles.arguments.holds hsnd₁)⟩
  cases hhan.symm.trans (hsnd₁.index hfiles.handle)
  rfl

end

end Pool

end JvmAssembler
