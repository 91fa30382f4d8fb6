import JvmAssembler.Proofs.Parser
import JvmAssembler.Proofs.Pool.History
import JvmAssembler.Proofs.Text

/-!
# JvmAssembler.Proofs.Pool.Reading

Reading a constant pool back from its bytes.

* `Parser.constantPool` reads the rows as they are stored. It follows the layout of class files and knows nothing of how
  the pool was made.
* `ConstantTable.resolve` follows the references of a stored row and gives what the row stands for.
* Of every pool, all bytes are read, each reference leads to an earlier row of the kind that is needed, and each row is
  resolved to what was asked for (`parses_afterAll`). A handle for a field is stored without its interface flag.
-/

namespace JvmAssembler

/-! ### Stored rows -/

namespace CpInfo

/-- Slots taken by a stored row. -/
def width : CpInfo → Nat
  | long _ | double _ => 2
  | _ => 1

/-- The kinds of rows that others refer to. -/
inductive Kind
  | text
  | cls
  | nameAndType
  | field
  | method
  deriving DecidableEq

/-- Whether a stored row is of a kind. -/
def hasKind : CpInfo → Kind → Bool
  | utf8 _, .text => true
  | cls _, .cls => true
  | nameAndType .., .nameAndType => true
  | fieldRef .., .field => true
  | methodRef .., .method => true
  | _, _ => false

/-- The rows that a stored row refers to, and of which kind they have to be. -/
def references : CpInfo → List (Nat × Kind)
  | cls name => [(name, .text)]
  | string text => [(text, .text)]
  | methodType desc => [(desc, .text)]
  | nameAndType name desc => [(name, .text), (desc, .text)]
  | fieldRef owner nt => [(owner, .cls), (nt, .nameAndType)]
  | methodRef owner nt _ => [(owner, .cls), (nt, .nameAndType)]
  | methodHandle kind member => [(member, if kind.isFieldAccess then .field else .method)]
  | invokeDynamic _ nt => [(nt, .nameAndType)]
  | _ => []

end CpInfo

namespace Parser

/-- A row of the constant pool: a tag, then its parts. -/
def constant : Parser CpInfo := do
  let tag ← u1
  match tag with
  | 1 =>
    let length ← u2
    let bytes ← take length
    let text ← get? (Text.ModifiedUtf8.decode bytes)
    return .utf8 text
  | 3 => return .integer (UInt32.ofNat (← u4)).toInt32
  | 4 => return .float (UInt32.ofNat (← u4))
  | 5 => return .long (UInt64.ofNat (← u8)).toInt64
  | 6 => return .double (UInt64.ofNat (← u8))
  | 7 => return .cls (← u2)
  | 8 => return .string (← u2)
  | 9 => return .fieldRef (← u2) (← u2)
  | 10 => return .methodRef (← u2) (← u2) false
  | 11 => return .methodRef (← u2) (← u2) true
  | 12 => return .nameAndType (← u2) (← u2)
  | 15 =>
    let kind ← get? (HandleKind.ofTag? (← u1))
    return .methodHandle kind (← u2)
  | 16 => return .methodType (← u2)
  | 18 => return .invokeDynamic (← u2) (← u2)
  | _ => failure

/-- The slots of a constant pool. A row of two slots has to fit. -/
def slots : Nat → Parser (List (Option CpInfo))
  | 0 => pure []
  | 1 => do
    let info ← constant
    if info.width = 2 then failure
    return [some info]
  | n + 2 => do
    let info ← constant
    if info.width = 2 then return some info :: none :: (← slots n)
    return some info :: (← slots (n + 1))

/-- A constant pool with its count; the first slot is not stored. -/
def constantPool (count : Nat) : Parser (List (Option CpInfo)) := return none :: (← slots (count - 1))

end Parser

/-! ### Resolving rows -/

/-- The rows of a constant pool by index. -/
abbrev ConstantTable := List (Option CpInfo)

namespace ConstantTable

variable (table : ConstantTable)

/-- The stored row at an index. -/
def row (i : Nat) : Option CpInfo := (table[i]?).join

def text (i : Nat) : Option String :=
  match table.row i with
  | some (.utf8 text) => some text
  | _ => none

def className (i : Nat) : Option String :=
  match table.row i with
  | some (.cls name) => table.text name
  | _ => none

/-- The name and the descriptor at an index. -/
def nameAndType (i : Nat) : Option (String × String) :=
  match table.row i with
  | some (.nameAndType name desc) => do
    let n ← table.text name
    let d ← table.text desc
    return (n, d)
  | _ => none

/-- The field or method at two indices, one for the class and one for the rest. -/
def member (owner nt : Nat) : Option MemberRef := do
  let o ← table.className owner
  let found ← table.nameAndType nt
  return ⟨o, found.1, found.2⟩

/-- The handle of a kind for the member at an index. Whether a field is one of an interface is not stored. -/
def handle (kind : HandleKind) (i : Nat) : Option Handle :=
  match table.row i with
  | some (.fieldRef owner nt) =>
    if kind.isFieldAccess then (table.member owner nt).map fun m => ⟨kind, m.owner, m.name, m.descriptor, false⟩ else none
  | some (.methodRef owner nt isInterface) =>
    if kind.isFieldAccess then none
    else (table.member owner nt).map fun m => ⟨kind, m.owner, m.name, m.descriptor, isInterface⟩
  | _ => none

/-- What the row at an index stands for. -/
def resolve (i : Nat) : Option Entry :=
  match table.row i with
  | none => none
  | some (.utf8 text) => some (.utf8 text)
  | some (.integer value) => some (.integer value)
  | some (.float bits) => some (.float bits)
  | some (.long value) => some (.long value)
  | some (.double bits) => some (.double bits)
  | some (.cls name) => (table.text name).map .cls
  | some (.string text) => (table.text text).map .string
  | some (.methodType desc) => (table.text desc).map .methodType
  | some (.nameAndType ..) => (table.nameAndType i).map fun found => .nameAndType found.1 found.2
  | some (.fieldRef owner nt) => (table.member owner nt).map .fieldRef
  | some (.methodRef owner nt isInterface) =>
    (table.member owner nt).map fun m => if isInterface then .interfaceMethodRef m else .methodRef m
  | some (.methodHandle kind member) => (table.handle kind member).map .methodHandle
  | some (.invokeDynamic bootstrap nt) =>
    (table.nameAndType nt).map fun found => .invokeDynamic bootstrap found.1 found.2

end ConstantTable

/-- What is stored of a row: a handle for a field does not say whether the class is an interface. -/
def Entry.stored : Entry → Entry
  | .methodHandle h => .methodHandle (if h.kind.isFieldAccess then { h with isInterface := false } else h)
  | e => e

/-- The kind of a row that others refer to. -/
def Entry.kind? : Entry → Option CpInfo.Kind
  | utf8 _ => some .text
  | cls _ => some .cls
  | nameAndType .. => some .nameAndType
  | fieldRef _ => some .field
  | methodRef _ | interfaceMethodRef _ => some .method
  | _ => none

theorem Handle.kind?_memberEntry (handle : Handle) :
    handle.memberEntry.kind? = some (if handle.kind.isFieldAccess then .field else .method) := by
  unfold Handle.memberEntry
  cases handle.kind.isFieldAccess <;> cases handle.isInterface <;> rfl

namespace Parser

/-! ### Reading stored rows -/

/-- The parts of a stored row fit in their fields. -/
def Storable : CpInfo → Prop
  | .utf8 text => (Text.ModifiedUtf8.encode text).length ≤ 65535
  | .cls i | .string i | .methodType i | .methodHandle _ i => i < 65536
  | .nameAndType i j | .fieldRef i j | .methodRef i j _ | .invokeDynamic i j => i < 65536 ∧ j < 65536
  | _ => True

theorem parses_tagged {tag : Nat} (htag : tag < 256) {α : Type} {f : Nat → Parser α} {bytes : List UInt8} {a : α}
    (h : Parses (f tag) bytes a) : Parses (u1 >>= f) (Bytes.u1 tag ++ bytes) a := (parses_u1 htag).bind h

theorem parses_pair {α : Type} {i j : Nat} (hi : i < 65536) (hj : j < 65536) (make : Nat → Nat → α) :
    Parses (do
      let i ← u2
      let j ← u2
      return make i j) (Bytes.u2 i ++ Bytes.u2 j) (make i j) :=
  (parses_u2 hi).bind ((parses_u2 hj).finish (make i))

/-- **A stored row is read back.** -/
theorem parses_constant {info : CpInfo} (h : Storable info) : Parses constant info.bytes info := by
  cases info with
  | utf8 text =>
    rw [CpInfo.bytes, List.append_assoc]
    refine parses_tagged (by decide) ((parses_u2 (Nat.lt_succ_of_le h)).bind ?_)
    have hlast : Parses (get? (Text.ModifiedUtf8.decode (Text.ModifiedUtf8.encode text)) >>= fun text =>
        (pure (.utf8 text) : Parser CpInfo)) [] (.utf8 text) :=
      (Parses.get? (Text.ModifiedUtf8.decode_encode text)).finish CpInfo.utf8
    exact ((parses_take _).bind hlast).congr (List.append_nil _)
  | integer value =>
    refine parses_tagged (by decide) ?_
    have hread := (parses_u4 value.toUInt32.toNat_lt).finish fun n => CpInfo.integer (UInt32.ofNat n).toInt32
    simpa using hread
  | float bits =>
    refine parses_tagged (by decide) ?_
    have hread := (parses_u4 bits.toNat_lt).finish fun n => CpInfo.float (UInt32.ofNat n)
    simpa using hread
  | long value =>
    refine parses_tagged (by decide) ?_
    have hread := (parses_u8 value.toUInt64.toNat_lt).finish fun n => CpInfo.long (UInt64.ofNat n).toInt64
    simpa using hread
  | double bits =>
    refine parses_tagged (by decide) ?_
    have hread := (parses_u8 bits.toNat_lt).finish fun n => CpInfo.double (UInt64.ofNat n)
    simpa using hread
  | cls i => exact parses_tagged (by decide) ((parses_u2 h).finish CpInfo.cls)
  | string i => exact parses_tagged (by decide) ((parses_u2 h).finish CpInfo.string)
  | methodType i => exact parses_tagged (by decide) ((parses_u2 h).finish CpInfo.methodType)
  | fieldRef i j =>
    rw [CpInfo.bytes, List.append_assoc]
    exact parses_tagged (by decide) (parses_pair h.1 h.2 CpInfo.fieldRef)
  | methodRef i j isInterface =>
    rw [CpInfo.bytes, List.append_assoc]
    cases isInterface with
    | false => exact parses_tagged (by decide) (parses_pair h.1 h.2 (CpInfo.methodRef · · false))
    | true => exact parses_tagged (by decide) (parses_pair h.1 h.2 (CpInfo.methodRef · · true))
  | nameAndType i j =>
    rw [CpInfo.bytes, List.append_assoc]
    exact parses_tagged (by decide) (parses_pair h.1 h.2 CpInfo.nameAndType)
  | invokeDynamic i j =>
    rw [CpInfo.bytes, List.append_assoc]
    exact parses_tagged (by decide) (parses_pair h.1 h.2 CpInfo.invokeDynamic)
  | methodHandle kind i =>
    rw [CpInfo.bytes, List.append_assoc]
    have htag : kind.tag < 256 := by cases kind <;> decide
    have hlast : Parses (get? (HandleKind.ofTag? kind.tag) >>= fun kind => u2 >>= fun i =>
        (pure (.methodHandle kind i) : Parser CpInfo)) ([] ++ Bytes.u2 i) (.methodHandle kind i) :=
      (Parses.get? (HandleKind.ofTag?_tag kind)).bind ((parses_u2 h).finish (CpInfo.methodHandle kind))
    exact parses_tagged (by decide) ((parses_u1 htag).bind hlast)

open Pool in
/-- The slots of stored rows are read back one row after the other. -/
theorem parses_slots {rows : List Row} (hstorable : ∀ r ∈ rows, Storable r.info)
    (hwidth : ∀ r ∈ rows, r.info.width = r.entry.width) :
    Parses (slots (extent rows)) (rows.flatMap (·.info.bytes)) (rows.flatMap fun r => r.slots.map (Option.map Row.info)) := by
  induction rows with
  | nil => exact .pure []
  | cons r rows ih =>
    have hrest := ih (fun q hq => hstorable q (List.mem_cons_of_mem _ hq)) fun q hq => hwidth q (List.mem_cons_of_mem _ hq)
    have hfst := parses_constant (hstorable r List.mem_cons_self)
    have hwidth := hwidth r List.mem_cons_self
    rw [List.flatMap_cons, List.flatMap_cons, extent_cons]
    have hcases : r.entry.width = 1 ∨ r.entry.width = 2 := by cases r.entry <;> simp [Entry.width]
    rcases hcases with hone | htwo
    · have hsl : r.slots.map (Option.map Row.info) = [some r.info] := by simp [Row.slots, hone]
      have hnot : r.info.width ≠ 2 := by omega
      rw [hsl, hone, Nat.add_comm]
      cases hextent : extent rows with
      | zero =>
        -- the last row
        have hnil : rows = [] := by
          cases rows with
          | nil => rfl
          | cons q rows =>
            have := q.entry.width_pos
            rw [extent_cons] at hextent
            omega
        subst hnil
        have hlast : Parses (slots 1) (r.info.bytes ++ []) [some r.info] := by
          refine hfst.bind ?_
          rw [if_neg hnot]
          exact .pure _
        exact hlast
      | succ n =>
        rw [hextent] at hrest
        refine hfst.bind ?_
        rw [if_neg hnot]
        exact hrest.finish (some r.info :: ·)
    · have hsl : r.slots.map (Option.map Row.info) = [some r.info, none] := by simp [Row.slots, htwo]
      rw [hsl, htwo, Nat.add_comm]
      refine hfst.bind ?_
      rw [if_pos (hwidth.trans htwo)]
      exact hrest.finish (some r.info :: none :: ·)

end Parser

namespace Pool

/-! ### Resolving the rows of a pool -/

def stored (rows : List Row) : ConstantTable := (tableSlots rows).map (Option.map Row.info)

theorem row_stored (rows : List Row) (i : Nat) : (stored rows).row i = (rowAt rows i).map Row.info := by
  rw [ConstantTable.row, stored, List.getElem?_map, rowAt]
  cases (tableSlots rows)[i]? with
  | none => rfl
  | some slot => cases slot <;> rfl

section Resolving

variable {pool : Pool} {rows : List Row} (h : Written pool rows)
include h

variable {i : Nat} {e : Entry} {name : String}

/-- A row spells out what it stands for by means of rows with smaller indices. -/
theorem Written.row_spells (he : pool.entry? i = some e) :
    ∃ info entryAt, (stored rows).row i = some info ∧ info.Spells entryAt e ∧
      ∀ j e', entryAt j = some e' → j < i ∧ pool.entry? j = some e' := by
  rw [h.entry?_eq] at he
  obtain ⟨r, hr, rfl⟩ := Option.map_eq_some_iff.1 he
  obtain ⟨before, after, hrows, rfl⟩ := rowAt_split hr
  refine ⟨r.info, _, ?_, h.spelled before r after hrows, ?_⟩
  · rw [row_stored rows, hr]
    rfl
  · intro j e' he'
    obtain ⟨r', hr', rfl⟩ := Option.map_eq_some_iff.1 he'
    refine ⟨rowAt_lt hr', ?_⟩
    rw [h.entry?_eq, hrows, rowAt_append hr' (r :: after)]
    rfl

theorem text_of_entry {text : String} (he : pool.entry? i = some (.utf8 text)) :
    (stored rows).text i = some text := by
  obtain ⟨info, entryAt, hrow, hspells, -⟩ := h.row_spells he
  cases hspells
  rw [ConstantTable.text, hrow]

theorem className_of_entry (he : pool.entry? i = some (.cls name)) :
    (stored rows).className i = some name := by
  obtain ⟨info, entryAt, hrow, hspells, hearlier⟩ := h.row_spells he
  cases hspells with
  | cls hname =>
    rw [ConstantTable.className, hrow]
    exact text_of_entry h (hearlier _ _ hname).2

theorem nameAndType_of_entry {desc : String} (he : pool.entry? i = some (.nameAndType name desc)) :
    (stored rows).nameAndType i = some (name, desc) := by
  obtain ⟨info, entryAt, hrow, hspells, hearlier⟩ := h.row_spells he
  cases hspells with
  | nameAndType hname hdesc =>
    rw [ConstantTable.nameAndType, hrow]
    dsimp only
    rw [text_of_entry h (hearlier _ _ hname).2, text_of_entry h (hearlier _ _ hdesc).2]
    rfl

theorem member_of_entries {j : Nat} {m : MemberRef} (hown : pool.entry? i = some (.cls m.owner))
    (hmb : pool.entry? j = some (.nameAndType m.name m.descriptor)) : (stored rows).member i j = some m := by
  rw [ConstantTable.member, className_of_entry h hown, nameAndType_of_entry h hmb]
  rfl

theorem handle_of_entry {handle : Handle} (he : pool.entry? i = some handle.memberEntry) :
    (stored rows).handle handle.kind i =
      some (if handle.kind.isFieldAccess then { handle with isInterface := false } else handle) := by
  obtain ⟨info, entryAt, hrow, hspells, hearlier⟩ := h.row_spells he
  unfold Handle.memberEntry at hspells
  rw [ConstantTable.handle, hrow]
  cases hfield : handle.kind.isFieldAccess with
  | true =>
    rw [hfield, if_pos rfl] at hspells
    cases hspells with
    | fieldRef hown hmb =>
      dsimp only
      rw [member_of_entries h (hearlier _ _ hown).2 (hearlier _ _ hmb).2]
      rfl
  | false =>
    rw [hfield, if_neg (by decide)] at hspells
    cases hintf : handle.isInterface with
    | true =>
      rw [hintf, if_pos rfl] at hspells
      cases hspells with
      | interfaceMethodRef hown hmb =>
        dsimp only
        rw [member_of_entries h (hearlier _ _ hown).2 (hearlier _ _ hmb).2]
        simp [← hintf]
    | false =>
      rw [hintf, if_neg (by decide)] at hspells
      cases hspells with
      | methodRef hown hmb =>
        dsimp only
        rw [member_of_entries h (hearlier _ _ hown).2 (hearlier _ _ hmb).2]
        simp [← hintf]

/-- **A stored row is resolved** to what it stands for. -/
theorem resolve_stored (i : Nat) : (stored rows).resolve i = ( pool.entry? i).map Entry.stored := by
  cases he : pool.entry? i with
  | none =>
    rw [h.entry?_eq, Option.map_eq_none_iff] at he
    rw [ConstantTable.resolve, row_stored rows, he]
    rfl
  | some e =>
    obtain ⟨info, entryAt, hrow, hspells, hearlier⟩ := h.row_spells he
    have hpool : ∀ {j e'}, entryAt j = some e' → pool.entry? j = some e' := fun he' => (hearlier _ _ he').2
    rw [ConstantTable.resolve, hrow]
    cases hspells with
    | utf8 | integer | float | long | double => rfl
    | cls hname => exact congrArg (Option.map _) (text_of_entry h (hpool hname))
    | string htext => exact congrArg (Option.map _) (text_of_entry h (hpool htext))
    | methodType hdesc => exact congrArg (Option.map _) (text_of_entry h (hpool hdesc))
    | nameAndType hname hdesc => exact congrArg (Option.map _) (nameAndType_of_entry h he)
    | fieldRef hown hmb => exact congrArg (Option.map _) (member_of_entries h (hpool hown) (hpool hmb))
    | methodRef hown hmb => exact congrArg (Option.map _) (member_of_entries h (hpool hown) (hpool hmb))
    | interfaceMethodRef hown hmb =>
      exact congrArg (Option.map _) (member_of_entries h (hpool hown) (hpool hmb))
    | methodHandle hmb => exact congrArg (Option.map _) (handle_of_entry h (hpool hmb))
    | invokeDynamic _ hmb => exact congrArg (Option.map _) (nameAndType_of_entry h (hpool hmb))

/-- The kind of a stored row, from what it stands for. -/
theorem hasKind_of_entry {kind : CpInfo.Kind} (he : pool.entry? i = some e)
    (hkind : e.kind? = some kind) : ∃ info, (stored rows).row i = some info ∧ info.hasKind kind = true := by
  obtain ⟨info, entryAt, hrow, hspells, -⟩ := h.row_spells he
  refine ⟨info, hrow, ?_⟩
  cases hspells <;> cases hkind <;> rfl

/-- References lead to earlier rows of the right kind. -/
theorem references_stored {info : CpInfo} (hinfo : (stored rows).row i = some info) :
    ∀ r ∈ info.references, r.1 < i ∧ ∃ info', (stored rows).row r.1 = some info' ∧ info'.hasKind r.2 = true := by
  have hsome : ∃ e, pool.entry? i = some e := by
    rw [row_stored rows] at hinfo
    obtain ⟨r, hr, -⟩ := Option.map_eq_some_iff.1 hinfo
    exact ⟨r.entry, by rw [h.entry?_eq, hr]; rfl⟩
  obtain ⟨e, he⟩ := hsome
  obtain ⟨info', entryAt, hrow, hspells, hearlier⟩ := h.row_spells he
  obtain rfl : info' = info := Option.some.inj (hrow.symm.trans hinfo)
  have href : ∀ {j e' kind}, entryAt j = some e' → e'.kind? = some kind →
      j < i ∧ ∃ info, (stored rows).row j = some info ∧ info.hasKind kind = true := by
    intro j e' kind he' hkind
    obtain ⟨hlt, hent⟩ := hearlier j e' he'
    exact ⟨hlt, hasKind_of_entry h hent hkind⟩
  cases hspells with
  | utf8 | integer | float | long | double => simp [CpInfo.references]
  | cls hname => simpa [CpInfo.references] using href hname rfl
  | string htext => simpa [CpInfo.references] using href htext rfl
  | methodType hdesc => simpa [CpInfo.references] using href hdesc rfl
  | nameAndType hname hdesc =>
    simpa [CpInfo.references] using ⟨href hname rfl, href hdesc rfl⟩
  | fieldRef hown hmb => simpa [CpInfo.references] using ⟨href hown rfl, href hmb rfl⟩
  | methodRef hown hmb => simpa [CpInfo.references] using ⟨href hown rfl, href hmb rfl⟩
  | interfaceMethodRef hown hmb => simpa [CpInfo.references] using ⟨href hown rfl, href hmb rfl⟩
  | methodHandle hmb => simpa [CpInfo.references] using href hmb (Handle.kind?_memberEntry _)
  | invokeDynamic _ hmb => simpa [CpInfo.references] using href hmb rfl

end Resolving

variable {entryAt : Nat → Option Entry} {info : CpInfo} {e : Entry} {r : Row}

/-- What spells out an entry fits in its fields, if indices do. -/
theorem storable_of_spells (h : info.Spells entryAt e)
    (hidx : ∀ j e', entryAt j = some e' → j < 65536) : Parser.Storable info := by
  cases h with
  | utf8 hlen => exact hlen
  | integer | float | long | double => trivial
  | cls h | string h | methodType h | methodHandle h => exact hidx _ _ h
  | nameAndType h h' | fieldRef h h' | methodRef h h' | interfaceMethodRef h h' => exact ⟨hidx _ _ h, hidx _ _ h'⟩
  | invokeDynamic hboot h => exact ⟨Nat.lt_succ_of_lt hboot, hidx _ _ h⟩

theorem width_of_spells (h : info.Spells entryAt e) :
    info.width = e.width := by
  cases h <;> rfl

/-- Every row of an orderly pool spells out what it stands for by means of indices that fit. -/
theorem Orderly.spelled {pool : Pool} (h : pool.Orderly) {rows : List Row} (hrows : Written pool rows)
    (hr : r ∈ rows) : ∃ entryAt, r.info.Spells entryAt r.entry ∧ ∀ j e', entryAt j = some e' → j < 65536 := by
  have hcnt := h.count
  rw [hrows.count_eq] at hcnt
  obtain ⟨before, after, rfl⟩ := List.append_of_mem hr
  refine ⟨_, hrows.spelled before r after rfl, ?_⟩
  intro j e' he'
  obtain ⟨r', hr', -⟩ := Option.map_eq_some_iff.1 he'
  have hlt := rowAt_lt hr'
  rw [extent_append] at hcnt
  omega

theorem Orderly.storable {pool : Pool} (h : pool.Orderly) {rows : List Row} (hrows : Written pool rows)
    (hr : r ∈ rows) : Parser.Storable r.info := by
  obtain ⟨entryAt, hspelled, hidx⟩ := h.spelled hrows hr
  exact storable_of_spells hspelled hidx

/-- The bytes of an orderly pool are read to the end. -/
theorem Orderly.parses {pool : Pool} (h : pool.Orderly) {rows : List Row} (hrows : Written pool rows) :
    Parser.Parses (Parser.constantPool pool.count) pool.bytes.toList (stored rows) := by
  have hsl : Parser.Parses (Parser.slots (extent rows)) (rows.flatMap (·.info.bytes))
      (rows.flatMap fun r => r.slots.map (Option.map Row.info)) := by
    refine Parser.parses_slots (fun r hr => h.storable hrows hr) fun r hr => ?_
    obtain ⟨entryAt, hspelled, -⟩ := h.spelled hrows hr
    exact width_of_spells hspelled
  have hall := hsl.finish (none :: ·)
  rw [hrows.count_eq, hrows.bytes]
  have hstored : stored rows = none :: rows.flatMap fun r => r.slots.map (Option.map Row.info) := by
    rw [stored, tableSlots, List.map_cons, List.map_flatMap]
    rfl
  rw [hstored, Parser.constantPool, Nat.add_sub_cancel_left]
  exact hall

/-- **The bytes of a pool are read back.** All bytes are read, as the rows that the count tells; each reference of a row
leads to a row before it, and of the kind that is needed; and each row is resolved to what it stands for. -/
theorem parses_afterAll (ops : List Operation) :
    ∃ table : ConstantTable,
      (Parser.constantPool (afterAll ops).count).run (afterAll ops).bytes.toList = some (table, []) ∧
      table.length = (afterAll ops).count ∧
      (∀ i info, table.row i = some info → ∀ r ∈ info.references,
        r.1 < i ∧ ∃ info', table.row r.1 = some info' ∧ info'.hasKind r.2 = true) ∧
      ∀ i, table.resolve i = ( entry? (afterAll ops) i).map Entry.stored := by
  have horderly := orderly_afterAll ops
  obtain ⟨rows, hrows⟩ := horderly.written
  refine ⟨stored rows, (horderly.parses hrows).run, ?_, ?_, ?_⟩
  · rw [stored, List.length_map, length_tableSlots, hrows.count_eq]
  · intro i info hinfo
    exact references_stored hrows hinfo
  · intro i
    exact resolve_stored hrows i

end Pool

end JvmAssembler
