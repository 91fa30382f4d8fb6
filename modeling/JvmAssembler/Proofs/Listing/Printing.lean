import JvmAssembler.Proofs.Listing.Tokens

/-!
# JvmAssembler.Proofs.Listing.Printing

Listings read back what is printed.

Every statement has a line that declares it (`Written.tokens`), if its names are words that mean nothing else where they
stand and its operands can be written at all (`Statement.Printable`). An instruction on a local variable has many such lines:
its mnemonic may hold the variable, and any number of `wide` may stand in front.
-/

namespace JvmAssembler.Listing

/-! ### Printing -/

def words (ws : List String) : List Token := ws.map .word

/-- `interface`, if the owner is one. -/
def ownerWords (isInterface : Bool) (owner name descriptor : String) : List Token :=
  words ((if isInterface then ["interface"] else []) ++ [owner, name, descriptor])

def handleTokens (h : Handle) : List Token := .word (Reader.handleWord h.kind) :: ownerWords h.isInterface h.owner h.name h.descriptor

/-- A constant that is no floating point number. -/
def constantTokens : Loadable → List Token
  | .int value => words [integer value.toInt]
  | .long value => words [integer value.toInt ++ "L"]
  | .string text => [.quoted text]
  | .cls name => words ["class", name]
  | .methodType descriptor => words ["methodtype", descriptor]
  | .methodHandle h => .word "handle" :: handleTokens h
  | .float _ | .double _ => []

def itemTokens : FrameItem String → List Token
  | .top => words ["top"]
  | .int => words ["int"]
  | .float => words ["float"]
  | .long => words ["long"]
  | .double => words ["double"]
  | .null => words ["null"]
  | .uninitializedThis => words ["uninitialized_this"]
  | .object name => words [name]
  | .uninitialized label => words ["uninitialized", label]

def frameTokens : ExplicitFrame String → List Token
  | .same => words ["same"]
  | .sameOne item => .word "same1" :: itemTokens item
  | .append items => .word "append" :: items.flatMap itemTokens
  | .chop count => words ["chop", natural count]
  | .full locals stack => .word "full" :: (locals.flatMap itemTokens ++ .word "stack" :: stack.flatMap itemTokens)

def numberWord (op : Opcode) (operand : Int32) : String :=
  if op = Opcode.newarray then ((BaseType.ofArrayCode? operand.toInt.toNat).map Reader.primitiveWord).getD "" else integer operand.toInt

def instructionTokens : Instruction String → List Token
  | .plain op => words [op.mnemonic]
  | .int op operand => words [op.mnemonic, numberWord op operand]
  | .var op index => words [op.mnemonic, natural index.toNat]
  | .iinc index increment => words [Opcode.iinc.mnemonic, natural index.toNat, integer increment.toInt]
  | .type op name => words [op.mnemonic, name]
  | .field op m => words [op.mnemonic, m.owner, m.name, m.descriptor]
  | .method op m isInterface => .word op.mnemonic :: ownerWords isInterface m.owner m.name m.descriptor
  | .invokeDynamic name descriptor bootstrap arguments =>
    words [Opcode.invokedynamic.mnemonic, name, descriptor] ++ (handleTokens bootstrap ++ arguments.flatMap constantTokens)
  | .jump op label => words [op.mnemonic, label]
  | .ldc constant => .word Opcode.ldc.mnemonic :: constantTokens constant
  | .tableSwitch low _ fallback targets => words ([Opcode.tableSwitch.mnemonic, integer low.toInt] ++ (targets ++ ["default", fallback]))
  | .lookupSwitch fallback keys targets =>
    words (Opcode.lookupSwitch.mnemonic ::
      ((keys.zip targets).map (fun c => integer c.1.toInt ++ (":" ++ c.2)) ++ ["default", fallback]))
  | .multiNewArray descriptor dimensions => words [Opcode.multianewarray.mnemonic, descriptor, natural dimensions.toNat]

/-- An instruction on a local variable with the variable in its mnemonic, if there is such a mnemonic. -/
def implicitTokens : Instruction String → List Token
  | .var op index =>
    if op.isLocalAccess ∧ index.toNat < 4 then words [(op.implicitForm index.toNat).mnemonic] else instructionTokens (.var op index)
  | i => instructionTokens i

/-- A statement, and how it is written where there is a choice. -/
structure Written where
  statement : Statement
  /-- How many `wide` stand in front of an instruction on a local variable. -/
  wides : Nat := 0
  /-- Whether the mnemonic should hold the local variable. -/
  isImplicit : Bool := false

def Written.tokens (line : Written) : List Token :=
  match line.statement with
  | .label name => words [name ++ ":"]
  | .instruction i =>
    List.replicate (if isWidenable i then line.wides else 0) (.word "wide") ++
      if line.isImplicit then implicitTokens i else instructionTokens i
  | .tryCatch h => words [".catch", h.catchType.getD "all", "from", h.start, "to", h.stop, "using", h.handler]
  | .line number => words [".line", natural number.toNat]
  | .localVariable s =>
    words [".var", natural s.index.toNat, "is", s.name, s.descriptor] ++
      ((s.signature.elim [] fun text => [.word "signature", .quoted text]) ++ words ["from", s.start, "to", s.stop])
  | .frame frame => .word ".frame" :: frameTokens frame

/-! ### What can be printed -/

/-- A member whose names are words; its owner does not look like a keyword. -/
def PrintableMember (owner name descriptor : String) : Prop :=
  IsWord owner ∧ IsWord name ∧ IsWord descriptor ∧ owner ≠ "interface"

/-- A handle whose names are words. The owner of an interface method is an interface. -/
def PrintableHandle (h : Handle) : Prop :=
  PrintableMember h.owner h.name h.descriptor ∧ (h.kind = .invokeInterface → h.isInterface = true)

/-- A constant that is no floating point number, and whose names are words. -/
def PrintableConstant : Loadable → Prop
  | .int _ | .long _ | .string _ => True
  | .cls name | .methodType name => IsWord name
  | .methodHandle h => PrintableHandle h
  | .float _ | .double _ => False

/-- The words that are types in frames. -/
def itemKeywords : List String :=
  ["top", "int", "float", "long", "double", "null", "uninitialized_this", "uninitialized"]

/-- A type in a frame whose names are words. -/
def PrintableItem : FrameItem String → Prop
  | .object name => IsWord name ∧ name ∉ itemKeywords
  | .uninitialized label => IsWord label
  | _ => True

/-- A frame whose types can be printed; no local is called `stack`. -/
def PrintableFrame : ExplicitFrame String → Prop
  | .same => True
  | .sameOne item => PrintableItem item
  | .append items => ∀ item ∈ items, PrintableItem item
  | .chop count => count ≤ 255
  | .full locals stack => (∀ item ∈ locals, PrintableItem item ∧ item ≠ .object "stack") ∧ ∀ item ∈ stack, PrintableItem item

/-- The numbers that an instruction can hold. -/
def InRange (op : Opcode) (operand : Int) : Prop :=
  if op = Opcode.newarray then ∃ type : BaseType, operand = type.arrayCode
  else if op = Opcode.bipush then -128 ≤ operand ∧ operand ≤ 127
  else op = Opcode.sipush ∧ -32768 ≤ operand ∧ operand ≤ 32767

/-- An instruction that has the operands of its opcode, in their range, and whose names are words. -/
def PrintableInstruction : Instruction String → Prop
  | .plain op => op.shape = .plain
  | .int op operand => InRange op operand.toInt
  | .var op _ => op.shape = .var
  | .iinc _ _ => True
  | .type op name => op.shape = .type ∧ IsWord name
  | .field op m => op.isFieldAccess = true ∧ IsWord m.owner ∧ IsWord m.name ∧ IsWord m.descriptor
  | .method op m isInterface => op.isInvocation = true ∧ PrintableMember m.owner m.name m.descriptor ∧
      (op = Opcode.invokeinterface → isInterface = true)
  | .invokeDynamic name descriptor bootstrap arguments =>
    IsWord name ∧ IsWord descriptor ∧ PrintableHandle bootstrap ∧ ∀ c ∈ arguments, PrintableConstant c
  | .jump op label => (op.shape = .jump ∨ op.shape = .wideJump) ∧ IsWord label
  | .ldc constant => PrintableConstant constant
  | .tableSwitch low high fallback targets => high = low + Int32.ofNat targets.length - 1 ∧ IsWord fallback ∧
      ∀ label ∈ targets, IsWord label ∧ label ≠ "default"
  | .lookupSwitch fallback keys targets => keys.length = targets.length ∧ IsWord fallback ∧ ∀ label ∈ targets, IsWord label
  | .multiNewArray descriptor _ => IsWord descriptor

def Statement.Printable : Statement → Prop
  | .label name => IsWord name
  | .instruction i => PrintableInstruction i
  | .tryCatch h => IsWord h.start ∧ IsWord h.stop ∧ IsWord h.handler ∧ ∀ name, h.catchType = some name → IsWord name ∧ name ≠ "all"
  | .line _ => True
  | .localVariable s => IsWord s.name ∧ IsWord s.descriptor ∧ IsWord s.start ∧ IsWord s.stop
  | .frame shape => PrintableFrame shape

/-! ### Reading -/

namespace Reader

variable {α β : Type} {m : Reader α} {f : α → Reader β} {ts us : List Token} {a : α} {b : β}

/-- Tokens that a reader turns into a value, whatever follows. -/
structure Spells (m : Reader α) (ts : List Token) (a : α) : Prop where
  sound : ∀ t ∈ ts, t.Sound
  reads : ∀ rest, m (ts ++ rest) = .ok (a, rest)

/-- Tokens that a reader turns into a value at the end of a line. -/
structure Ends (m : Reader α) (ts : List Token) (a : α) : Prop where
  sound : ∀ t ∈ ts, t.Sound
  reads : m ts = .ok (a, [])

theorem Spells.ends (h : Spells m ts a) : Ends m ts a := ⟨h.sound, by simpa using h.reads []⟩

theorem bind_ok {rest : List Token} (h : m ts = .ok (a, rest)) : (m >>= f) ts = f a rest := by
  show (m ts).bind _ = _
  rw [h]
  rfl

theorem Spells.bind (h : Spells m ts a) (h' : Spells (f a) us b) : Spells (m >>= f) (ts ++ us) b where
  sound := List.forall_mem_append.2 ⟨h.sound, h'.sound⟩
  reads rest := by rw [List.append_assoc, bind_ok (h.reads _), h'.reads]

/-- The last tokens that a reader takes. -/
theorem Spells.last (h : Spells m ts a) (h' : Spells (f a) [] b) : Spells (m >>= f) ts b := by
  simpa using h.bind h'

theorem Spells.bindEnds (h : Spells m ts a) (h' : Ends (f a) us b) : Ends (m >>= f) (ts ++ us) b where
  sound := List.forall_mem_append.2 ⟨h.sound, h'.sound⟩
  reads := by rw [bind_ok (h.reads _), h'.reads]

theorem Ends.bind (h : Ends m ts a) (h' : f a [] = .ok (b, [])) : Ends (m >>= f) ts b := ⟨h.sound, by rw [bind_ok h.reads, h']⟩

theorem Spells.pure (a : α) : Spells (Pure.pure a) [] a := ⟨by simp, fun _ => rfl⟩

theorem Spells.word {w : String} (h : IsWord w) (what : String) : Spells (word what) [.word w] w := ⟨by simpa using h, fun _ => rfl⟩

theorem Spells.keyword {k : String} (h : IsWord k) : Spells (keyword k) [.word k] true := ⟨by simpa using h, keyword_self k⟩

theorem Spells.expect {k : String} (h : IsWord k) : Spells (expect k) [.word k] () := (Spells.keyword h).bind (.pure ())

theorem Spells.number {read : String → Option α} {w : String} (hw : IsWord w) (h : read w = some a) (what : String) :
    Spells (number read what) [.word w] a := by
  refine (Spells.word hw what).last ?_
  rw [h]
  exact .pure a

theorem spells_u8 {n : Nat} (h : n ≤ 255) (what : String) : Spells (u8 what) [.word (natural n)] (UInt8.ofNat n) :=
  .number (isWord_natural n) (by rw [natural?_natural h, Option.map_some]) what

theorem spells_u16 (n : UInt16) (what : String) : Spells (u16 what) [.word (natural n.toNat)] n := by
  have hn := n.toNat_lt
  exact .number (isWord_natural _) (by rw [natural?_natural (by omega), Option.map_some, UInt16.ofNat_toNat]) what

theorem spells_i8 {n : Int32} (h : -128 ≤ n.toInt ∧ n.toInt ≤ 127) (what : String) : Spells (i8 what) [.word (integer n.toInt)] n :=
  .number (isWord_integer _) (by rw [integer?_integer h, Option.map_some, Int32.ofInt_toInt]) what

theorem spells_i16 {n : Int} (h : -32768 ≤ n ∧ n ≤ 32767) (what : String) :
    Spells (i16 what) [.word (integer n)] (Int16.ofInt n) :=
  .number (isWord_integer _) (by rw [integer?_integer h, Option.map_some]) what

theorem int32?_integer (n : Int32) : int32? (integer n.toInt) = some n := by
  have hlow := n.le_toInt
  have hhigh := n.toInt_lt
  rw [int32?, integer?_integer (by omega), Option.map_some, Int32.ofInt_toInt]

section Sequences

variable {stop : List Token → Bool} {print : α → List Token} {as : List α} {rest : List Token}

/-- Items are read up to where they end. -/
theorem manyUntil_flatMap (hstop : stop rest = true)
    (hitem : ∀ a ∈ as, print a ≠ [] ∧ Spells m (print a) a ∧ ∀ more, stop (print a ++ more) = false) :
    manyUntil stop m (as.flatMap print ++ rest) = .ok (as, rest) := by
  have hcollect : ∀ (as : List α) (fuel : Nat) (done : List α), as.length ≤ fuel →
      (∀ a ∈ as, Spells m (print a) a ∧ ∀ more, stop (print a ++ more) = false) →
      collect stop m fuel done (as.flatMap print ++ rest) = .ok (done.reverse ++ as, rest) := by
    intro as
    induction as with
    | nil =>
      intro fuel done _ _
      cases fuel with
      | zero => simp [collect, pure, StateT.pure, Except.pure]
      | succ fuel => simp [collect, hstop]
    | cons a as ih =>
      intro fuel done hfuel has
      obtain ⟨fuel, rfl⟩ := Nat.exists_eq_add_of_lt (Nat.lt_of_lt_of_le (Nat.succ_pos _) hfuel)
      obtain ⟨hread, hgoes⟩ := has a List.mem_cons_self
      rw [Nat.zero_add, collect, List.flatMap_cons, List.append_assoc]
      dsimp only
      rw [if_neg (by simp [hgoes]), hread.reads]
      dsimp only
      rw [ih fuel (a :: done) (by simpa using hfuel) fun a' ha' => has a' (List.mem_cons_of_mem _ ha')]
      simp
  -- every item takes a token, so that there is fuel for all of them
  have hlen : ∀ as : List α, (∀ a ∈ as, print a ≠ []) → as.length ≤ (as.flatMap print ++ rest).length := by
    intro as has
    induction as with
    | nil => exact Nat.zero_le _
    | cons a as ih =>
      have hpos := List.length_pos_of_ne_nil (has a List.mem_cons_self)
      have hle := ih fun a' ha' => has a' (List.mem_cons_of_mem _ ha')
      simp only [List.flatMap_cons, List.length_append, List.length_cons] at hle ⊢
      omega
  exact hcollect as _ [] (hlen as fun a ha => (hitem a ha).1) fun a ha => (hitem a ha).2

theorem sound_flatMap (h : ∀ a ∈ as, Spells m (print a) a) : ∀ t ∈ as.flatMap print, t.Sound := by
  intro t ht
  obtain ⟨a, ha, ht⟩ := List.mem_flatMap.1 ht
  exact (h a ha).sound t ht

theorem ends_many (h : ∀ a ∈ as, print a ≠ [] ∧ Spells m (print a) a) : Ends (many m) (as.flatMap print) as := by
  refine ⟨sound_flatMap fun a ha => (h a ha).2, ?_⟩
  have hread : manyUntil List.isEmpty m (as.flatMap print ++ []) = .ok (as, []) := manyUntil_flatMap rfl fun a ha =>
    ⟨(h a ha).1, (h a ha).2, fun more => by simp [(h a ha).1]⟩
  rwa [List.append_nil] at hread

theorem ends_manyBefore {f : List α → Reader β} {k : String}
    (h : ∀ a ∈ as, (∃ t ts, print a = t :: ts ∧ t ≠ .word k) ∧ Spells m (print a) a) (h' : Ends (f as) (.word k :: us) b) :
    Ends (manyBefore k m >>= f) (as.flatMap print ++ .word k :: us) b := by
  refine ⟨List.forall_mem_append.2 ⟨sound_flatMap fun a ha => (h a ha).2, h'.sound⟩, ?_⟩
  refine (bind_ok (manyUntil_flatMap (by simp [atKeyword]) fun a ha => ?_)).trans h'.reads
  obtain ⟨⟨t, ts, hprint, ht⟩, hspells⟩ := h a ha
  exact ⟨by simp [hprint], hspells, fun more => by simpa [hprint, atKeyword] using ht⟩

end Sequences

/-! ### Constants and frames -/

/-- A member whose owner may be an interface. -/
theorem spells_owner {owner name descriptor : String} {f : Bool → Reader β} {isInterface : Bool}
    (h : PrintableMember owner name descriptor) (hf : Spells (f isInterface) (words [owner, name, descriptor]) b) :
    Spells (keyword "interface" >>= f) (ownerWords isInterface owner name descriptor) b := by
  cases isInterface with
  | true => exact (Spells.keyword (by decide)).bind hf
  | false => exact ⟨hf.sound, fun rest => (bind_ok (keyword_of_ne h.2.2.2 _)).trans (hf.reads rest)⟩

theorem spells_member {owner name descriptor what what' : String} (hown : IsWord owner) (hname : IsWord name)
    (hdesc : IsWord descriptor) :
    Spells (member what what') (words [owner, name, descriptor]) ⟨owner, name, descriptor⟩ :=
  (Spells.word hown _).bind ((Spells.word hname _).bind ((Spells.word hdesc _).bind (.pure _)))

theorem spells_handle {h : Handle} (hh : PrintableHandle h) : Spells handle (handleTokens h) h := by
  obtain ⟨hmb, hintf⟩ := hh
  have hkind : IsWord (handleWord h.kind) := by cases h.kind <;> decide
  have hflag : (h.isInterface || h.kind == .invokeInterface) = h.isInterface := by
    cases hk : h.isInterface with
    | true => rfl
    | false => simpa using fun hkind => by simp [hintf hkind] at hk
  refine (Spells.word hkind _).bind ?_
  rw [handleKind?_handleWord]
  refine spells_owner hmb ?_
  rw [hflag]
  exact (Spells.word hmb.1 _).bind ((Spells.word hmb.2.1 _).bind ((Spells.word hmb.2.2.1 _).bind (.pure _)))

/-- A number ends in a digit, and there is nothing but digits and a sign in it. -/
theorem integer_chars (n : Int) : ∃ front d, (integer n).toList = front ++ [d] ∧ d.isDigit = true ∧
    ∀ c ∈ (integer n).toList, c.isDigit = true ∨ c = '-' := by
  have hdigit : ∀ c ∈ Nat.toDigits 10 n.natAbs, c.isDigit = true := fun c hc =>
    Nat.isDigit_of_mem_toDigits (by decide) (by decide) hc
  have hlast := List.dropLast_concat_getLast (Nat.toDigits_ne_nil (n := n.natAbs) (b := 10))
  have hmem := hdigit _ (List.getLast_mem Nat.toDigits_ne_nil)
  rw [integer, String.toList_ofList]
  split
  · refine ⟨'-' :: (Nat.toDigits 10 n.natAbs).dropLast, _, ?_, hmem, fun c hc => ?_⟩
    · rw [List.cons_append, hlast]
    · rcases List.mem_cons.1 hc with rfl | hc
      · exact .inr rfl
      · exact .inl (hdigit c hc)
  · exact ⟨_, _, hlast.symm, hmem, fun c hc => .inl (hdigit c hc)⟩

/-- A letter does not stand in a number. -/
theorem not_mem_integer (n : Int) {c : Char} (hdigit : c.isDigit = false) (hminus : c ≠ '-') : c ∉ (integer n).toList := by
  obtain ⟨-, -, -, -, hall⟩ := integer_chars n
  intro hc
  rcases hall c hc with h | h
  · rw [h] at hdigit
    cases hdigit
  · exact hminus h

/-- A word with another end is no name of a value. -/
theorem special?_eq_none {w : String} {front : List Char} {d : Char} (hw : w.toList = front ++ [d]) (hN : d ≠ 'N') (hy : d ≠ 'y')
    (f : Number.Format) : special? f w = none := by
  have hne : ∀ name : String, name.toList.getLast? = some 'N' ∨ name.toList.getLast? = some 'y' → w ≠ name := by
    rintro name hname rfl
    simp [hw, hN, hy] at hname
  rw [special?, if_neg (hne _ (.inl (by decide))), if_neg, if_neg (hne _ (.inr (by decide)))]
  rintro (h | h)
  · exact hne _ (.inr (by decide)) h
  · exact hne _ (.inr (by decide)) h

theorem literal?_int (n : Int32) : literal? (integer n.toInt) = some (.int n) := by
  obtain ⟨front, d, hw, hd, -⟩ := integer_chars n.toInt
  have hletter : ∀ c : Char, c.isDigit = false → d ≠ c := by
    rintro c hc rfl
    simp [hd] at hc
  have hpoint : (integer n.toInt).toList.any (fun c => c == '.' || c == 'e' || c == 'E') = false := by
    rw [List.any_eq_false]
    intro c hc
    have hne : ∀ d : Char, d.isDigit = false → d ≠ '-' → c ≠ d := by
      rintro d hdigit hminus rfl
      exact not_mem_integer _ hdigit hminus hc
    simp [hne '.' rfl (by decide), hne 'e' rfl (by decide), hne 'E' rfl (by decide)]
  have hlow := n.le_toInt
  have hhigh := n.toInt_lt
  rw [literal?, special?_eq_none hw (hletter 'N' rfl) (hletter 'y' rfl)]
  dsimp only
  rw [hpoint, hw, List.getLast?_concat]
  split
  all_goals first
    | rename_i heq
      exact absurd (Option.some.inj heq) (hletter _ rfl)
    | skip
  rw [if_neg (by simp), int?, integer?_integer (by omega), Option.map_some, Int32.ofInt_toInt]

theorem literal?_long (n : Int64) : literal? (integer n.toInt ++ "L") = some (.long n) := by
  have hw : (integer n.toInt ++ "L").toList = (integer n.toInt).toList ++ ['L'] := by rw [String.toList_append]; rfl
  have hlow := n.le_toInt
  have hhigh := n.toInt_lt
  rw [literal?, special?_eq_none hw (by decide) (by decide)]
  dsimp only
  rw [hw, List.getLast?_concat, List.dropLast_concat, String.ofList_toList]
  show long? (integer n.toInt) = _
  rw [long?, integer?_integer (by omega), Option.map_some, Int64.ofInt_toInt]

/-- A number is read as the constant that it spells: it does not start like a keyword. -/
theorem spells_literal (n : Int) {w : String} {c : Loadable} (hw : IsWord (integer n ++ w)) (h : literal? (integer n ++ w) = some c) :
    Spells constant [.word (integer n ++ w)] c := by
  have hne : ∀ k : String, (∃ d, k.toList.head? = some d ∧ d.isDigit = false ∧ d ≠ '-') → integer n ++ w ≠ k := by
    rintro k ⟨d, hk, hdigit, hminus⟩ rfl
    obtain ⟨front, last, hchars, -⟩ := integer_chars n
    refine not_mem_integer n hdigit hminus ?_
    rw [String.toList_append, hchars] at hk
    cases front with
    | nil => simp_all
    | cons c front => simp_all
  refine ⟨by simpa using hw, fun rest => ?_⟩
  show (if integer n ++ w = "class" then _ else if integer n ++ w = "methodtype" then _ else if integer n ++ w = "handle" then _
    else _ : Reader Loadable) rest = _
  rw [if_neg (hne _ ⟨'c', by decide⟩), if_neg (hne _ ⟨'m', by decide⟩), if_neg (hne _ ⟨'h', by decide⟩), h]
  rfl

theorem spells_constant {c : Loadable} (hc : PrintableConstant c) : constantTokens c ≠ [] ∧ Spells constant (constantTokens c) c := by
  cases c with
  | int value =>
    have hread := literal?_int value
    have hword := isWord_integer value.toInt
    rw [← String.append_empty (s := integer value.toInt)] at hread hword
    have hspells := spells_literal _ hword hread
    rw [String.append_empty] at hspells
    exact ⟨List.cons_ne_nil _ _, hspells⟩
  | long value =>
    exact ⟨List.cons_ne_nil _ _, spells_literal _ ((isWord_integer _).append (by decide)) (literal?_long value)⟩
  | string text => exact ⟨List.cons_ne_nil _ _, by simp [constantTokens], fun _ => rfl⟩
  | cls name => exact ⟨List.cons_ne_nil _ _, by simpa [constantTokens, words] using ⟨by decide, hc⟩, fun _ => rfl⟩
  | methodType descriptor => exact ⟨List.cons_ne_nil _ _, by simpa [constantTokens, words] using ⟨by decide, hc⟩, fun _ => rfl⟩
  | methodHandle h =>
    refine ⟨List.cons_ne_nil _ _, List.forall_mem_cons.2 ⟨show IsWord "handle" by decide, (spells_handle hc).sound⟩, fun rest => ?_⟩
    show (handle (handleTokens h ++ rest)).bind _ = _
    rw [(spells_handle hc).reads]
    rfl
  | float | double => cases hc

theorem spells_item {i : FrameItem String} (hi : PrintableItem i) : Spells item (itemTokens i) i := by
  refine ⟨?_, fun rest => ?_⟩
  · cases i with
    | object name => simpa [itemTokens, words] using hi.1
    | uninitialized label => simpa [itemTokens, words] using ⟨by decide, hi⟩
    | _ => simpa [itemTokens, words] using by decide
  · cases i with
    | object name =>
      obtain ⟨-, hname⟩ := hi
      simp only [itemKeywords, List.mem_cons, List.not_mem_nil, or_false, not_or] at hname
      obtain ⟨h₁, h₂, h₃, h₄, h₅, h₆, h₇, h₈⟩ := hname
      simp only [item, itemTokens, words, List.map, List.cons_append, List.nil_append, bind, StateT.bind, word_cons]
      show (Except.bind (.ok (name, rest)) _) = _
      simp only [Except.bind]
      rfl
    | _ => rfl

theorem ends_items {items : List (FrameItem String)} (h : ∀ i ∈ items, PrintableItem i) :
    Ends (many item) (items.flatMap itemTokens) items :=
  ends_many fun i hi => ⟨by cases i <;> exact List.cons_ne_nil _ _, spells_item (h i hi)⟩

theorem ends_frame {f : ExplicitFrame String} (hf : PrintableFrame f) : Ends frame (frameTokens f) f := by
  have hkind : ∀ {kind : String}, IsWord kind → Spells (word "a frame kind") [.word kind] kind := fun h => .word h _
  cases f with
  | same => exact (hkind (by decide)).bindEnds (Spells.pure _).ends
  | sameOne i => exact (hkind (by decide)).bindEnds ((spells_item hf).ends.bind rfl)
  | append items => exact (hkind (by decide)).bindEnds ((ends_items hf).bind rfl)
  | chop count =>
    refine (hkind (by decide)).bindEnds ((spells_u8 hf _).ends.bind ?_)
    show Except.ok (FrameShape.chop (UInt8.ofNat count).toNat, []) = _
    rw [UInt8.toNat_ofNat_of_lt' (Nat.lt_succ_of_le hf)]
  | full locals stack =>
    have hstk : Ends (after "stack" (many item)) (.word "stack" :: stack.flatMap itemTokens) (some stack) :=
      (Spells.keyword (by decide)).bindEnds ((ends_items hf.2).bind rfl)
    refine (hkind (by decide)).bindEnds (ends_manyBefore (fun i hi => ⟨?_, spells_item (hf.1 i hi).1⟩) (hstk.bind rfl))
    have hi := (hf.1 i hi).2
    cases i with
    | object name => exact ⟨_, _, rfl, by simpa using hi⟩
    | _ => exact ⟨_, _, rfl, by simp⟩

/-! ### Instructions -/

def Declares (ts : List Token) (i : Instruction String) : Prop :=
  ∃ mnemonic rest, ts = .word mnemonic :: rest ∧ IsMnemonic mnemonic ∧ Ends (instruction mnemonic) rest i

/-- A mnemonic and operands that are read make a line. -/
theorem declares_operands (op : Opcode) {shape : Shape} (hop : op.shape = shape)
    (hsh : shape ∉ [.oversizedJump, .invalid] ∧ shape ≠ .wide) {rest : List Token} {i : Instruction String}
    (h : Ends (operands op) rest i) : Declares (.word op.mnemonic :: rest) i := by
  refine ⟨_, _, rfl, isMnemonic_mnemonic op, h.sound, ?_⟩
  have hwide : op ≠ Opcode.wide := by
    rintro rfl
    exact hsh.2 (hop.symm.trans Opcode.shape_named.2.1.1)
  rw [instruction.eq_def, ofMnemonic?_mnemonic op (hop ▸ hsh.1)]
  simp only [if_neg hwide, h.reads]

theorem spells_method {m : MemberRef} (hm : PrintableMember m.owner m.name m.descriptor) {op : Opcode} {isInterface : Bool}
    (hop : op = Opcode.invokeinterface → isInterface = true) :
    Spells (method op) (ownerWords isInterface m.owner m.name m.descriptor) (.method op m isInterface) := by
  have hflag : (isInterface || op == Opcode.invokeinterface) = isInterface := by
    cases isInterface with
    | true => rfl
    | false => simpa using hop
  refine spells_owner hm ((spells_member hm.1 hm.2.1 hm.2.2.1).last ?_)
  rw [hflag]
  exact .pure _

theorem spells_elementType (type : BaseType) : Spells elementType [.word (primitiveWord type)] type := by
  have hword : IsWord (primitiveWord type) := by cases type <;> decide
  refine (Spells.word hword _).last ?_
  rw [primitive?_primitiveWord]
  exact .pure type

theorem spells_switchCase (key : Int32) {label : String} (hlab : IsWord label) :
    Spells switchCase [.word (integer key.toInt ++ (":" ++ label))] (key, label) := by
  have hpln : ∀ c ∈ (integer key.toInt).toList, (c != ':') = true := by
    intro c hc
    have hne : c ≠ ':' := by
      rintro rfl
      exact not_mem_integer _ rfl (by decide) hc
    simpa using hne
  have hspan : (integer key.toInt ++ (":" ++ label)).toList.span (· != ':') = ((integer key.toInt).toList, ':' :: label.toList) := by
    rw [String.toList_append, String.toList_append, List.span_eq_takeWhile_dropWhile, List.takeWhile_append_of_pos hpln,
      List.dropWhile_append_of_pos hpln]
    simp
  refine (Spells.word ((isWord_integer _).append (IsWord.append (by decide) hlab)) _).last ?_
  rw [hspan]
  dsimp only
  rw [String.ofList_toList, int32?_integer, String.ofList_toList]
  exact .pure _

theorem spells_fallback {label : String} (h : IsWord label) : Spells fallback (words ["default", label]) label :=
  (Spells.expect (by decide)).bind (.word h _)

/-- An instruction is read back. -/
theorem declares_instruction {i : Instruction String} (hi : PrintableInstruction i) : Declares (instructionTokens i) i := by
  obtain ⟨⟨hbipush, hnewarray, hsipush⟩, ⟨-, hiinc⟩, ⟨hldc, -⟩, ⟨hintf, hdynamic, hmulti⟩, -, htable, hlookup⟩ := Opcode.shape_named
  cases i with
  | plain op =>
    have hsh : op.shape = .plain := hi
    refine declares_operands op hsh (by decide) ?_
    unfold operands
    simp only [hsh]
    exact (Spells.pure _).ends
  | int op operand =>
    simp only [PrintableInstruction, InRange] at hi
    simp only [instructionTokens, numberWord]
    split_ifs at hi with harray hbyte
    · subst harray
      obtain ⟨type, htype⟩ := hi
      have hsame : Int32.ofNat type.arrayCode = operand := by
        rw [← Int32.toInt_inj, htype]
        cases type <;> rfl
      rw [if_pos rfl, htype, Int.toNat_natCast, BaseType.ofArrayCode?_arrayCode, Option.map_some, Option.getD_some]
      refine declares_operands _ hnewarray (by decide) ?_
      unfold operands
      simp only [hnewarray, if_true, ← hsame]
      exact (spells_elementType type).ends.bind rfl
    · subst hbyte
      rw [if_neg harray]
      refine declares_operands _ hbipush (by decide) ?_
      unfold operands
      simp only [hbipush, if_neg harray]
      exact (spells_i8 hi _).ends.bind rfl
    · obtain ⟨rfl, hrng⟩ := hi
      have hsame : (Int16.ofInt operand.toInt).toInt32 = operand := by
        rw [← Int32.toInt_inj, Int16.toInt_toInt32, Int16.toInt_ofInt_of_le hrng.1 (by omega)]
      rw [if_neg harray]
      refine declares_operands _ hsipush (by decide) ?_
      unfold operands
      simp only [hsipush]
      refine (spells_i16 hrng _).ends.bind ?_
      rw [hsame]
      rfl
  | var op index =>
    have hsh : op.shape = .var := hi
    refine declares_operands op hsh (by decide) ?_
    unfold operands
    simp only [hsh]
    exact (spells_u16 index _).ends.bind rfl
  | iinc index increment =>
    have hlow := increment.le_toInt
    have hhigh := increment.toInt_lt
    refine declares_operands _ hiinc (by decide) ?_
    unfold operands
    simp only [hiinc]
    refine (spells_u16 index _).bindEnds ((spells_i16 (n := increment.toInt) (by omega) _).ends.bind ?_)
    rw [Int16.ofInt_toInt]
    rfl
  | type op name =>
    refine declares_operands op hi.1 (by decide) ?_
    unfold operands
    simp only [hi.1]
    exact (Spells.word hi.2 _).ends.bind rfl
  | field op m =>
    obtain ⟨hop, hown, hname, hdesc⟩ := hi
    have hsh := op.shape_of_isFieldAccess hop
    refine declares_operands op hsh (by decide) ?_
    unfold operands
    simp only [hsh, hop]
    exact (spells_member hown hname hdesc).ends.bind rfl
  | method op m isInterface =>
    obtain ⟨hop, hm, hflag⟩ := hi
    by_cases hinvoke : op = Opcode.invokeinterface
    · subst hinvoke
      refine declares_operands _ hintf (by decide) ?_
      unfold operands
      simp only [hintf]
      exact (spells_method hm hflag).ends
    · have hsh := op.shape_of_isInvocation hop hinvoke
      refine declares_operands op hsh (by decide) ?_
      unfold operands
      simp only [hsh, (op.of_kind.2.1.2.1 hop).2]
      exact (spells_method hm hflag).ends
  | invokeDynamic name descriptor bootstrap arguments =>
    obtain ⟨hname, hdesc, hboot, hargs⟩ := hi
    refine declares_operands _ hdynamic (by decide) ?_
    unfold operands
    simp only [hdynamic]
    exact (Spells.word hname _).bindEnds ((Spells.word hdesc _).bindEnds ((spells_handle hboot).bindEnds
      ((ends_many fun c hc => spells_constant (hargs c hc)).bind rfl)))
  | jump op label =>
    obtain ⟨hop | hop, hlab⟩ := hi
    all_goals
      refine declares_operands op hop (by decide) ?_
      unfold operands
      simp only [hop]
      exact (Spells.word hlab _).ends.bind rfl
  | ldc constant =>
    refine declares_operands _ hldc (by decide) ?_
    unfold operands
    simp only [hldc]
    exact (spells_constant hi).2.ends.bind rfl
  | tableSwitch low high fallback targets =>
    obtain ⟨rfl, hfb, htgts⟩ := hi
    have htokens : instructionTokens (.tableSwitch low (low + Int32.ofNat targets.length - 1) fallback targets) =
        .word Opcode.tableSwitch.mnemonic :: ([.word (integer low.toInt)] ++
          (targets.flatMap (fun label => [Token.word label]) ++ words ["default", fallback])) := by
      simp [instructionTokens, words, ← List.map_eq_flatMap]
    rw [htokens]
    refine declares_operands _ htable (by decide) ?_
    unfold operands
    simp only [htable]
    exact (Spells.number (isWord_integer _) (int32?_integer low) _).bindEnds (ends_manyBefore (fun label hlab =>
      ⟨⟨_, _, rfl, by simpa using (htgts label hlab).2⟩, .word (htgts label hlab).1 _⟩)
      ((spells_fallback hfb).ends.bind rfl))
  | lookupSwitch fallback keys targets =>
    obtain ⟨hlen, hfb, htgts⟩ := hi
    have htokens : instructionTokens (.lookupSwitch fallback keys targets) = .word Opcode.lookupSwitch.mnemonic ::
        ((keys.zip targets).flatMap (fun c => [Token.word (integer c.1.toInt ++ (":" ++ c.2))]) ++ words ["default", fallback]) := by
      simp [instructionTokens, words, ← List.map_eq_flatMap]
    have hcolon : ∀ c : Int32 × String, integer c.1.toInt ++ (":" ++ c.2) ≠ "default" := by
      intro c heq
      have hmem : ':' ∈ "default".toList := by simp [← heq]
      exact absurd hmem (by decide)
    rw [htokens]
    refine declares_operands _ hlookup (by decide) ?_
    unfold operands
    simp only [hlookup]
    refine ends_manyBefore (fun c hc => ⟨⟨_, _, rfl, by simpa using hcolon c⟩, spells_switchCase c.1 (htgts c.2 (List.of_mem_zip hc).2)⟩)
      ((spells_fallback hfb).ends.bind ?_)
    rw [List.map_fst_zip hlen.le, List.map_snd_zip hlen.ge]
    rfl
  | multiNewArray descriptor dimensions =>
    have hdimensions := dimensions.toNat_lt
    refine declares_operands _ hmulti (by decide) ?_
    unfold operands
    simp only [hmulti]
    refine (Spells.word hi _).bindEnds ((spells_u8 (n := dimensions.toNat) (by omega) _).ends.bind ?_)
    rw [UInt8.ofNat_toNat]
    rfl

set_option maxRecDepth 4000 in
/-- `wide` in front of an instruction on a local variable says nothing. -/
theorem Declares.wide {i : Instruction String} (h : Declares ts i) (hi : isWidenable i = true) : Declares (.word "wide" :: ts) i := by
  obtain ⟨m, rest, rfl, hm, hread⟩ := h
  have hwide : Opcode.wide.mnemonic = "wide" := rfl
  have hop := ofMnemonic?_mnemonic Opcode.wide (by rw [Opcode.shape_named.2.1.1]; decide)
  refine ⟨_, _, rfl, hwide ▸ isMnemonic_mnemonic Opcode.wide, List.forall_mem_cons.2 ⟨hm.1, hread.sound⟩, ?_⟩
  rw [instruction, ← hwide, hop]
  simp only [if_true, hread.reads, hi]

/-- A local variable in the mnemonic is read like one behind it. -/
theorem declares_implicit {i : Instruction String} (hi : PrintableInstruction i) : Declares (implicitTokens i) i := by
  unfold implicitTokens
  split
  · rename_i op index
    split
    · rename_i hlocal
      obtain ⟨hsh, hform⟩ := op.explicitForm_implicitForm hlocal.1 ⟨index.toNat, hlocal.2⟩
      refine declares_operands _ hsh (by decide) ?_
      unfold operands
      simp only [hsh, hform, UInt16.ofNat_toNat]
      exact (Spells.pure _).ends
    · exact declares_instruction hi
  · exact declares_instruction hi

theorem declares_written {w : Written} {i : Instruction String} (hw : w.statement = .instruction i) (hi : PrintableInstruction i) :
    Declares w.tokens i := by
  have hpln : Declares (if w.isImplicit then implicitTokens i else instructionTokens i) i := by
    split
    · exact declares_implicit hi
    · exact declares_instruction hi
  have hwides : isWidenable i = true → ∀ n, Declares (List.replicate n (.word "wide") ++
      if w.isImplicit then implicitTokens i else instructionTokens i) i := by
    intro hwiden n
    induction n with
    | zero => exact hpln
    | succ n ih => exact ih.wide hwiden
  unfold Written.tokens
  rw [hw]
  dsimp only
  split
  · exact hwides ‹_› _
  · exact hpln

/-! ### Lines -/

theorem ends_instruction {number : Nat} {s s' : State} {i : Instruction String} (h : Declares ts i)
    (hs : s.addStatement "instructions" (.instruction i) = .ok s') : Ends (line number s) ts s' := by
  obtain ⟨mnemonic, rest, rfl, hm, hread⟩ := h
  refine ⟨List.forall_mem_cons.2 ⟨hm.1, hread.sound⟩, ?_⟩
  have hlab : label? mnemonic = none := if_neg hm.2.1
  unfold line
  refine (bind_ok rfl).trans ((bind_ok (word_cons _ _ _)).trans ?_)
  simp only [hlab, if_neg hm.2.2]
  refine (bind_ok hread.reads).trans ?_
  rw [hs]
  rfl

theorem ends_directive {number : Nat} {s s' : State} {first : String} (hfst : IsWord first) (hlab : label? first = none)
    (hdot : first.toList.head? = some '.') (h : Ends (directive number s first) ts s') :
    Ends (line number s) (.word first :: ts) s' := by
  refine ⟨List.forall_mem_cons.2 ⟨hfst, h.sound⟩, ?_⟩
  unfold line
  refine (bind_ok rfl).trans ((bind_ok (word_cons _ _ _)).trans ?_)
  simp only [hlab, if_pos hdot]
  exact bind_ok h.reads

theorem ends_label {number : Nat} {s s' : State} {name : String} (hname : IsWord name)
    (hs : s.addStatement "labels" (.label name) = .ok s') : Ends (line number s) [.word (name ++ ":")] s' := by
  refine ⟨by simpa using hname.append (by decide), ?_⟩
  have hlab : label? (name ++ ":") = some name := by simp [label?]
  unfold line
  refine (bind_ok rfl).trans ((bind_ok (word_cons _ _ _)).trans ?_)
  simp only [hlab, hs]
  rfl

theorem spells_range {start stop : String} (hst : IsWord start) (hstop : IsWord stop) :
    Spells range (words ["from", start, "to", stop]) (start, stop) :=
  (Spells.expect (by decide)).bind ((Spells.word hst _).bind ((Spells.expect (by decide)).bind
    ((Spells.word hstop _).bind (.pure _))))

/-- **A line** adds its statement to the open method. -/
theorem ends_written {w : Written} (hw : w.statement.Printable) (number : Nat) {s : State} {cls : ClassDecl} {method : MethodDecl}
    (hs : s.scope = .inMethod cls method) : Ends (line number s) w.tokens
      { s with scope := .inMethod cls { method with body := w.statement :: method.body } } := by
  have hadd : ∀ what statement, s.addStatement what statement =
      .ok { s with scope := .inMethod cls { method with body := statement :: method.body } } := by
    intro what statement
    rw [State.addStatement, State.updateMethod, hs]
  cases hstmt : w.statement with
  | instruction i =>
    rw [hstmt] at hw
    exact ends_instruction (declares_written hstmt hw) (hadd _ _)
  | label name =>
    rw [hstmt] at hw
    simp only [Written.tokens, hstmt]
    exact ends_label hw (hadd _ _)
  | tryCatch h =>
    rw [hstmt] at hw
    simp only [Written.tokens, hstmt]
    obtain ⟨hst, hstop, hhandler, hcaught⟩ := hw
    have hname : IsWord (h.catchType.getD "all") ∧
        (if h.catchType.getD "all" = "all" then none else some (h.catchType.getD "all")) = h.catchType := by
      cases hcatch : h.catchType with
      | none => exact ⟨by decide, rfl⟩
      | some name => exact ⟨(hcaught name hcatch).1, if_neg (hcaught name hcatch).2⟩
    have hread : Ends catchClause (words [h.catchType.getD "all", "from", h.start, "to", h.stop, "using", h.handler]) h := by
      refine (Spells.word hname.1 _).bindEnds ((spells_range hst hstop).bindEnds ((Spells.expect (by decide)).bindEnds
        ((Spells.word hhandler _).ends.bind ?_)))
      rw [hname.2]
      rfl
    refine ends_directive (by decide) (by decide) (by decide) (hread.bind ?_)
    rw [hadd]
    rfl
  | line line =>
    simp only [Written.tokens, hstmt]
    refine ends_directive (by decide) (by decide) (by decide) ((spells_u16 line _).ends.bind ?_)
    rw [hadd]
    rfl
  | localVariable scope =>
    rw [hstmt] at hw
    simp only [Written.tokens, hstmt]
    obtain ⟨hname, hdesc, hst, hstop⟩ := hw
    have hread : Ends localScope (words [natural scope.index.toNat, "is", scope.name, scope.descriptor] ++
        ((scope.signature.elim [] fun text => [.word "signature", .quoted text]) ++ words ["from", scope.start, "to", scope.stop]))
        scope := by
      obtain ⟨name, descriptor, signature, start, stop, index⟩ := scope
      refine (spells_u16 index _).bindEnds ((Spells.expect (by decide)).bindEnds ((Spells.word hname _).bindEnds
        ((Spells.word hdesc _).bindEnds ?_)))
      cases signature with
      | none => exact ⟨(spells_range hst hstop).sound, rfl⟩
      | some text =>
        have hsig : Spells (after "signature" (quoted "a signature")) [.word "signature", .quoted text] (some text) :=
          (Spells.keyword (by decide)).bind ⟨by simp, fun _ => rfl⟩
        exact hsig.bindEnds ((spells_range hst hstop).ends.bind rfl)
    refine ends_directive (by decide) (by decide) (by decide) (hread.bind ?_)
    rw [hadd]
    rfl
  | frame shape =>
    rw [hstmt] at hw
    simp only [Written.tokens, hstmt]
    refine ends_directive (by decide) (by decide) (by decide) ((ends_frame hw).bind ?_)
    rw [hadd]
    rfl

end Reader

/-! ### Listings -/

/-- The lines of a class with one method. -/
def tokenLines (cls name descriptor : String) (body : List Written) : List (List Token) :=
  words [".class", cls] :: words [".method", name, descriptor] :: (body.map Written.tokens ++ [words [".end", "method"]])

/-- A listing of a class with one method, one statement a line. -/
def print (cls name descriptor : String) (body : List Written) : String :=
  String.ofList ((tokenLines cls name descriptor body).flatMap fun tokens => Token.lineOf tokens ++ ['\n'])

def IsDeclared (kind : FlagKind) (name : String) : Prop := IsWord name ∧ (AccessFlags.ofKeyword? name : Option (AccessFlags kind)) = none

/-- The flags in front of a name are read first; there are none. -/
theorem Reader.ends_flags {kind : FlagKind} {name : String} (h : IsDeclared kind name) {β : Type}
    {f : AccessFlags kind → Reader β} {ts : List Token} {b : β} (hf : Reader.Ends (f .empty) (.word name :: ts) b) :
    Reader.Ends (Reader.flags kind >>= f) (.word name :: ts) b := by
  have hread : Reader.flags kind (.word name :: ts) = .ok (.empty, .word name :: ts) := by
    rw [Reader.flags, Reader.takeFlags, h.2]
  exact ⟨hf.sound, by rw [bind_ok hread, hf.reads]⟩

namespace State

theorem readLine_lineOf {s s' : State} {number : Nat} {tokens : List Token} (h : Reader.Ends (Reader.line number s) tokens s') :
    s.readLine number (Token.lineOf tokens) = .ok s' := by
  rw [readLine, Token.scan_lineOf h.sound]
  dsimp only
  rw [h.reads]

/-- The lines of a body are added to the open method one after the other. -/
theorem readLines_body {body : List Written} (hbody : ∀ w ∈ body, w.statement.Printable) {s : State} {cls : ClassDecl}
    {method : MethodDecl} (hs : s.scope = .inMethod cls method) (number : Nat) (rest : List (List Char)) :
    s.readLines number (body.map (fun w => Token.lineOf w.tokens) ++ rest) =
      readLines { s with scope := .inMethod cls { method with body := (body.map (·.statement)).reverse ++ method.body } }
        (number + body.length) rest := by
  induction body generalizing s method number with
  | nil =>
    have hsame : s = { s with scope := .inMethod cls method } := by rw [← hs]
    exact congrArg (fun s => readLines s number rest) hsame
  | cons w body ih =>
    rw [List.map_cons, List.cons_append, readLines, readLine_lineOf (Reader.ends_written (hbody w List.mem_cons_self) number hs)]
    dsimp only
    rw [ih (fun w' hw' => hbody w' (List.mem_cons_of_mem _ hw')) rfl]
    simp [Nat.add_assoc, Nat.add_comm 1]

end State

def classNamed (name : String) : ClassDecl := { flags := .empty, name, superClass := objectClass, interfaces := [] }

/-- A method without flags, exceptions and limits. -/
def methodNamed (line : Nat) (name descriptor : String) (body : List Statement) : MethodDecl :=
  { line, flags := .empty, name, descriptor, exceptions := [], body }

/-- **Reading a printed listing** gives its method back, however the statements that leave a choice are written. -/
theorem parse_print {cls name descriptor : String} (hcls : IsDeclared .ofClass cls) (hname : IsDeclared .ofMethod name)
    (hdescriptor : IsWord descriptor) {body : List Written} (hbody : ∀ w ∈ body, w.statement.Printable) :
    parse (print cls name descriptor body) =
      .ok { classes := [{ classNamed cls with methods := [methodNamed 2 name descriptor (body.map (·.statement))] }] } := by
  have hclass : Reader.Ends (Reader.line 1 {}) (words [".class", cls]) { scope := .inClass (classNamed cls) } :=
    Reader.ends_directive (by decide) (by decide) (by decide)
      (Reader.Ends.bind (Reader.ends_flags hcls ((Reader.Spells.word hcls.1 _).ends.bind rfl)) rfl)
  have hmethod : Reader.Ends (Reader.line 2 { scope := .inClass (classNamed cls) }) (words [".method", name, descriptor])
      { scope := .inMethod (classNamed cls) (methodNamed 2 name descriptor []) } :=
    Reader.ends_directive (by decide) (by decide) (by decide) (Reader.Ends.bind (Reader.ends_flags hname
      ((Reader.Spells.word hname.1 _).bindEnds ((Reader.Spells.word hdescriptor _).ends.bind rfl))) rfl)
  have hend : ∀ number method, Reader.Ends (Reader.line number { scope := .inMethod (classNamed cls) method })
      (words [".end", "method"]) { scope := .inClass { classNamed cls with methods := [method.close] } } := fun number method =>
    Reader.ends_directive (by decide) (by decide) (by decide) ((Reader.Spells.expect (by decide)).ends.bind rfl)
  have hsound : ∀ tokens ∈ tokenLines cls name descriptor body, ∀ t ∈ tokens, t.Sound := by
    refine List.forall_mem_cons.2 ⟨hclass.sound, List.forall_mem_cons.2 ⟨hmethod.sound, List.forall_mem_append.2 ⟨?_, ?_⟩⟩⟩
    · intro tokens htokens
      obtain ⟨w, hw, rfl⟩ := List.mem_map.1 htokens
      exact (Reader.ends_written (hbody w hw) 3
        (s := { scope := .inMethod (classNamed cls) (methodNamed 2 name descriptor []) }) rfl).sound
    · exact List.forall_mem_singleton.2 (hend 3 (methodNamed 2 name descriptor [])).sound
  have hlines : Text.lines (print cls name descriptor body).toList = (tokenLines cls name descriptor body).map Token.lineOf := by
    rw [print, String.toList_ofList, ← List.flatMap_map Token.lineOf (· ++ ['\n'])]
    refine lines_flatMap fun l hl => ?_
    obtain ⟨tokens, htokens, rfl⟩ := List.mem_map.1 hl
    exact Token.lineOf_unbroken (hsound tokens htokens)
  have hmap : (tokenLines cls name descriptor body).map Token.lineOf = Token.lineOf (words [".class", cls]) ::
      Token.lineOf (words [".method", name, descriptor]) ::
        (body.map (fun w => Token.lineOf w.tokens) ++ [Token.lineOf (words [".end", "method"])]) := by
    simp [tokenLines]
  rw [parse, hlines, hmap]
  simp only [State.readLines, State.readLine_lineOf hclass, State.readLine_lineOf hmethod]
  rw [State.readLines_body hbody rfl]
  simp only [State.readLines, State.readLine_lineOf (hend _ _)]
  simp [State.listing, State.allClasses, ClassDecl.close, MethodDecl.close, classNamed, methodNamed]

theorem parse_print_wideImplicit :
    parse (print "A" "run" "(I)V" [⟨.label "start", 0, false⟩, ⟨.instruction (.var Opcode.iload 2), 2, true⟩,
      ⟨.instruction (.ldc (.string "\"#\n")), 0, false⟩]) = .ok { classes := [{ classNamed "A" with methods := [methodNamed 2 "run" "(I)V"
        [.label "start", .instruction (.var Opcode.iload 2), .instruction (.ldc (.string "\"#\n"))]] }] } :=
  parse_print ⟨by decide, by decide⟩ ⟨by decide, by decide⟩ (by decide) (List.forall_mem_cons.2 ⟨show IsWord "start" by decide,
    List.forall_mem_cons.2 ⟨Opcode.shape_of_isLocalAccess _ (by decide), List.forall_mem_singleton.2 trivial⟩⟩)

end JvmAssembler.Listing
