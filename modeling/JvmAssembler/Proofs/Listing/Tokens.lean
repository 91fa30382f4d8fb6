import JvmAssembler.Listing.Parsing
import JvmAssembler.Proofs.Opcode
import JvmAssembler.Proofs.Text

/-!
# JvmAssembler.Proofs.Listing.Tokens

Writing the tokens of a listing, and reading them back: numbers in decimal digits, quoted texts with what would end them or
their line escaped, a blank in front of every token, a line feed behind every line.
-/

namespace JvmAssembler

/-! ### Numbers -/

namespace Number

theorem digit?_of_isDigit {c : Char} (h : c.isDigit = true) : digit? c = some (c.toNat - '0'.toNat) := by
  have hbnd : '0' ≤ c ∧ c ≤ '9' := by simpa [Char.isDigit, Char.le_def] using h
  rw [digit?, if_pos hbnd]

/-- The digits of a number spell it. -/
theorem digits?_toDigits (n : Nat) : digits? (Nat.toDigits 10 n) = some n := by
  have hdigits : ∀ cs : List Char, (∀ c ∈ cs, c.isDigit = true) → cs.mapM digit? = some (cs.map fun c => c.toNat - '0'.toNat) := by
    intro cs hcs
    induction cs with
    | nil => rfl
    | cons c cs ih =>
      rw [List.mapM_cons, digit?_of_isDigit (hcs c List.mem_cons_self), ih fun c' hc' => hcs c' (List.mem_cons_of_mem _ hc')]
      rfl
  have hspell : ∀ (cs : List Char) (start : Nat), (cs.map fun c => c.toNat - '0'.toNat).foldl (fun n d => n * 10 + d) start =
      Nat.ofDigitChars 10 cs start := by
    intro cs start
    rw [List.foldl_map, Nat.ofDigitChars]
    congr 1
    funext n c
    rw [Nat.mul_comm]
  obtain ⟨c, cs, hcs⟩ := List.exists_cons_of_ne_nil (Nat.toDigits_ne_nil (n := n) (b := 10))
  rw [digits?, hcs, number?, ← hcs, hdigits _ fun c hc => Nat.isDigit_of_mem_toDigits (by decide) (by decide) hc]
  · rw [Option.map_some, spellHalves_eq_spell, spell, hspell, Nat.ofDigitChars_toDigits (by decide) (by decide)]
  · simp

end Number

namespace Listing

/-- A number. -/
def natural (n : Nat) : String := String.ofList (Nat.toDigits 10 n)

/-- A number with a sign, if it is negative. -/
def integer (n : Int) : String :=
  String.ofList (if n < 0 then '-' :: Nat.toDigits 10 n.natAbs else Nat.toDigits 10 n.natAbs)

/-- No sign stands in front of digits. -/
theorem toDigits_cases (n : Nat) : ∃ c cs, Nat.toDigits 10 n = c :: cs ∧ c ≠ '+' ∧ c ≠ '-' := by
  obtain ⟨c, cs, hcs⟩ := List.exists_cons_of_ne_nil (Nat.toDigits_ne_nil (n := n) (b := 10))
  have hdigit : c.isDigit = true := Nat.isDigit_of_mem_toDigits (by decide) (by decide) (hcs ▸ List.mem_cons_self)
  refine ⟨c, cs, hcs, ?_, ?_⟩
  · rintro rfl
    cases hdigit
  · rintro rfl
    cases hdigit

theorem natural?_natural {n max : Nat} (h : n ≤ max) : Number.natural? max (natural n) = some n := by
  obtain ⟨c, cs, hcs, hplus, -⟩ := toDigits_cases n
  have hdigits := Number.digits?_toDigits n
  rw [hcs] at hdigits
  unfold Number.natural? natural
  rw [String.toList_ofList, hcs]
  split
  · rename_i heq
    cases heq
    exact absurd rfl hplus
  · dsimp only
    rw [hdigits]
    simpa using h

theorem integer?_integer {n min max : Int} (h : min ≤ n ∧ n ≤ max) : Number.integer? min max (integer n) = some n := by
  obtain ⟨c, cs, hcs, hplus, hminus⟩ := toDigits_cases n.natAbs
  have hdigits := Number.digits?_toDigits n.natAbs
  unfold Number.integer? integer
  rw [String.toList_ofList]
  by_cases hn : n < 0
  · have hneg : -|n| = n := by rw [abs_of_neg hn, neg_neg]
    rw [if_pos hn]
    simp [hdigits, hneg, h]
  · have hpos : (n.natAbs : Int) = n := by omega
    rw [hcs] at hdigits
    rw [if_neg hn, hcs]
    split
    · rename_i heq
      cases heq
      exact absurd rfl hplus
    · rename_i heq
      cases heq
      exact absurd rfl hminus
    · simp [hdigits, hpos, h]

/-! ### Words -/

/-- A word that is read as one: it has no blank, no quote and no comment sign. -/
def IsWord (w : String) : Prop := w.toList ≠ [] ∧ ∀ c ∈ w.toList, Token.Scan.endsWord c = false

instance : DecidablePred IsWord := fun w =>
  decidable_of_iff (w.toList ≠ [] ∧ w.toList.all (!Token.Scan.endsWord ·) = true) (by simp [IsWord])

theorem endsWord_of_isDigit {c : Char} (h : c.isDigit = true) : Token.Scan.endsWord c = false := by
  have hbnd : 48 ≤ c.toNat ∧ c.toNat ≤ 57 := by simpa [Char.isDigit, UInt32.le_iff_toNat_le] using h
  have hblank : Text.isBlank c = false := by
    simp only [Text.isBlank, Bool.or_eq_false_iff, Bool.and_eq_false_iff, decide_eq_false_iff_not, beq_eq_false_iff_ne]
    omega
  have hsign : ∀ d : Char, d.toNat < 48 → c ≠ d := by
    rintro d hd rfl
    omega
  simp [Token.Scan.endsWord, hblank, hsign '#' (by decide), hsign '"' (by decide)]

theorem endsWord_of_mem_toDigits {n : Nat} {c : Char} (h : c ∈ Nat.toDigits 10 n) : Token.Scan.endsWord c = false :=
  endsWord_of_isDigit (Nat.isDigit_of_mem_toDigits (by decide) (by decide) h)

theorem isWord_natural (n : Nat) : IsWord (natural n) := by
  rw [IsWord, natural, String.toList_ofList]
  exact ⟨Nat.toDigits_ne_nil, fun c hc => endsWord_of_mem_toDigits hc⟩

theorem isWord_integer (n : Int) : IsWord (integer n) := by
  rw [IsWord, integer, String.toList_ofList]
  split
  · refine ⟨by simp, fun c hc => ?_⟩
    rcases List.mem_cons.1 hc with rfl | hc
    · decide
    · exact endsWord_of_mem_toDigits hc
  · exact ⟨Nat.toDigits_ne_nil, fun c hc => endsWord_of_mem_toDigits hc⟩

theorem IsWord.append {v w : String} (hv : IsWord v) (hw : IsWord w) : IsWord (v ++ w) := by
  rw [IsWord, String.toList_append]
  refine ⟨by simp [hv.1], fun c hc => ?_⟩
  rcases List.mem_append.1 hc with hc | hc
  · exact hv.2 c hc
  · exact hw.2 c hc

/-- A word that can only be a mnemonic at the start of a line. -/
def IsMnemonic (w : String) : Prop := IsWord w ∧ w.toList.getLast? ≠ some ':' ∧ w.toList.head? ≠ some '.'

/-- The mnemonics of the table are such words, and no two are the same: the numbers made of their letters differ. -/
theorem mnemonics_table :
    ((Opcode.table.toList.map (·.mnemonic)).map fun name =>
      name.toByteArray.data.toList.foldl (fun n c => 256 * n + c.toNat) 0).Nodup ∧
    (Opcode.table.toList.all fun row => !row.mnemonic.toList.isEmpty &&
      row.mnemonic.toList.all (!Token.Scan.endsWord ·) && row.mnemonic.toList.getLast? != some ':' &&
        row.mnemonic.toList.head? != some '.') = true := by
  decide +kernel

theorem isMnemonic_mnemonic (op : Opcode) : IsMnemonic op.mnemonic := by
  unfold Opcode.mnemonic
  split
  · rename_i row hrow
    have hword := List.all_eq_true.1 (And.right mnemonics_table) row (Array.mem_toList_iff.2 (Array.mem_of_getElem? hrow))
    simpa [IsMnemonic, IsWord, and_assoc] using hword
  · exact ⟨by decide, by decide, by decide⟩

/-- A mnemonic stands for its opcode. -/
theorem ofMnemonic?_mnemonic (op : Opcode) (hop : op.shape ∉ [.oversizedJump, .invalid]) :
    Opcode.ofMnemonic? op.mnemonic = some op := by
  unfold Opcode.mnemonic
  split
  · rename_i row hrow
    obtain ⟨hlt, hrow⟩ := Array.getElem?_eq_some_iff.1 hrow
    have hidx : Opcode.table.findIdx? (·.mnemonic == row.mnemonic) = some op.toNat := by
      refine Array.findIdx?_eq_some_iff_getElem.2 ⟨hlt, by simp [hrow], fun j hj => ?_⟩
      have hne := List.pairwise_iff_getElem.1 (List.Nodup.of_map _ (And.left mnemonics_table)) j op.toNat (by simp; omega) (by simpa using hlt) hj
      simpa [hrow] using hne
    rw [Opcode.ofMnemonic?, hidx]
    simp
  · rename_i hnone
    unfold Opcode.shape at hop
    split at hop
    · rename_i row hrow
      cases hnone.symm.trans hrow
    · split at hop <;> simp at hop

/-! ### Lines -/

/-- The letters behind a backslash, with what they stand for. -/
def letters : List (Char × Char) :=
  [('n', '\n'), ('t', '\t'), ('r', '\r'), ('0', '\x00'), ('\\', '\\'), ('"', '"'), ('\x27', '\x27')]

/-- Four hexadecimal digits of a UTF-16 unit. -/
inductive HexUnit : Nat → List Char → Prop
  | digits {a b c d : Char} {i j k l : Nat} (ha : Number.hexDigit? a = some i) (hb : Number.hexDigit? b = some j)
    (hc : Number.hexDigit? c = some k) (hd : Number.hexDigit? d = some l) :
    HexUnit (((i * 16 + j) * 16 + k) * 16 + l) [a, b, c, d]

/-- The ways to write a character of a quoted text. -/
inductive Spelling : Char → List Char → Prop
  | raw {c : Char} (hquote : c ≠ '"') (hslash : c ≠ '\\') : Spelling c [c]
  | letter {c d : Char} (h : (d, c) ∈ letters) : Spelling c ['\\', d]
  /-- By an escape for each of its UTF-16 units. -/
  | units {c : Char} {groups : List (List Char)} (h : List.Forall₂ HexUnit (Text.units c) groups) :
    Spelling c (groups.flatMap ('\\' :: 'u' :: ·))

/-- A character of a quoted text, as it is printed. -/
def escape : Char → List Char
  | '"' => ['\\', '"']
  | '\\' => ['\\', '\\']
  | '\n' => ['\\', 'n']
  | '\r' => ['\\', 'r']
  | c => [c]

theorem spelling_escape (c : Char) : Spelling c (escape c) := by
  unfold escape
  split
  case h_5 hquote hslash _ _ => exact .raw hquote hslash
  all_goals exact .letter (by decide)

namespace Token

def chars : Token → List Char
  | .word w => w.toList
  | .quoted text => '"' :: (text.toList.flatMap escape ++ ['"'])

/-- A token that is read back. -/
def Sound : Token → Prop
  | .word w => IsWord w
  | .quoted _ => True

@[simp] theorem sound_word (w : String) : (Token.word w).Sound ↔ IsWord w := Iff.rfl

@[simp] theorem sound_quoted (text : String) : (Token.quoted text).Sound := trivial

def lineOf (tokens : List Token) : List Char := tokens.flatMap fun t => ' ' :: t.chars

/-- The ways to write a token. -/
inductive Spelled : Token → List Char → Prop
  | word {w : String} (h : IsWord w) : Spelled (.word w) w.toList
  | quoted {text : String} {parts : List (List Char)} (h : List.Forall₂ Spelling text.toList parts) :
    Spelled (.quoted text) ('"' :: (parts.flatten ++ ['"']))

abbrev Blank (cs : List Char) : Prop := cs.all Text.isBlank = true

/-- The lines that some tokens can stand in: blanks are between them, and a comment may be behind them. -/
inductive Line : List Token → List Char → Prop
  | blank {gap : List Char} (hgap : Blank gap) : Line [] gap
  | comment {gap : List Char} (hgap : Blank gap) (text : List Char) : Line [] (gap ++ '#' :: text)
  | token {gap cs rest : List Char} {t : Token} {tokens : List Token} (hgap : Blank gap) (ht : t.Spelled cs)
    (hrest : Line tokens rest) (hapart : Blank rest.head?.toList) : Line (t :: tokens) (gap ++ (cs ++ rest))

namespace Scan

variable {s : Scan} {tokens : List Token}

/-- The tokens of a line of which some was read. -/
def scanFrom (s : Scan) (cs : List Char) : Except Fault (List Token) :=
  match s.readAll cs with
  | .ok s => s.finish
  | .error fault => .error fault

theorem scanFrom_cons {s' : Scan} {c : Char} (h : s.step c = .ok s') (cs : List Char) :
    s.scanFrom (c :: cs) = s'.scanFrom cs := by
  rw [scanFrom, scanFrom, readAll, h]

theorem scanFrom_blank {gap : List Char} (hgap : Blank gap) (rest : List Char) :
    scanFrom ⟨tokens, .between⟩ (gap ++ rest) = scanFrom ⟨tokens, .between⟩ rest := by
  induction gap with
  | nil => rfl
  | cons c gap ih =>
    obtain ⟨hc, hgap⟩ := Bool.and_eq_true_iff.1 hgap
    have hstep : step ⟨tokens, .between⟩ c = .ok ⟨tokens, .between⟩ := by simp [step, start, hc]
    rw [List.cons_append, scanFrom_cons hstep, ih hgap]

theorem scanFrom_comment (tokens : List Token) (text : List Char) : scanFrom ⟨tokens, .comment⟩ text = .ok tokens.reverse := by
  induction text with
  | nil => rfl
  | cons c text ih => exact ih

theorem scanFrom_word (tokens : List Token) (chars cs rest : List Char) (h : ∀ c ∈ cs, endsWord c = false) :
    scanFrom ⟨tokens, .word chars⟩ (cs ++ rest) = scanFrom ⟨tokens, .word (cs.reverse ++ chars)⟩ rest := by
  induction cs generalizing chars with
  | nil => rfl
  | cons c cs ih =>
    have hstep : step ⟨tokens, .word chars⟩ c = .ok ⟨tokens, .word (c :: chars)⟩ := if_neg (by simp [h c List.mem_cons_self])
    rw [List.cons_append, scanFrom_cons hstep, ih _ fun c' hc' => h c' (List.mem_cons_of_mem _ hc')]
    simp

theorem escaped?_of_mem {c d : Char} (h : (d, c) ∈ letters) : d ≠ 'u' ∧ escaped? d = some c := by
  simp only [letters, List.mem_cons, Prod.mk.injEq, List.not_mem_nil, or_false] at h
  rcases h with ⟨rfl, rfl⟩ | ⟨rfl, rfl⟩ | ⟨rfl, rfl⟩ | ⟨rfl, rfl⟩ | ⟨rfl, rfl⟩ | ⟨rfl, rfl⟩ | ⟨rfl, rfl⟩ <;>
    exact ⟨by decide, rfl⟩

theorem hexDigit?_lt {c : Char} {n : Nat} (h : Number.hexDigit? c = some n) : n < 16 := by
  unfold Number.hexDigit? at h
  split_ifs at h with hdigit hlower hupper
  all_goals
    cases h
    simp only [Char.le_def, UInt32.le_iff_toNat_le, Char.toNat_val, Char.reduceToNat] at *
    omega

/-- Four digits are read as one unit, whichever they are. -/
theorem scanFrom_hexUnit {u : Nat} {digits : List Char} (h : HexUnit u digits) (tokens : List Token) (units : List Nat)
    (rest : List Char) : scanFrom ⟨tokens, .text units⟩ ('\\' :: 'u' :: digits ++ rest) = scanFrom ⟨tokens, .text (u :: units)⟩ rest := by
  obtain ⟨ha, hb, hc, hd⟩ := h
  rename_i a b c d i j k l
  have hunit : unicodeUnit [a, b, c, d] = .ok (((i * 16 + j) * 16 + k) * 16 + l) := by
    have := hexDigit?_lt ha
    have := hexDigit?_lt hb
    have := hexDigit?_lt hc
    have := hexDigit?_lt hd
    have hsign : a ≠ '+' := by
      rintro rfl
      cases ha
    have hread : Number.hex16? [a, b, c, d] = some (((i * 16 + j) * 16 + k) * 16 + l) := by
      simp [Number.hex16?, Number.number?, hsign, ha, hb, hc, hd, Number.spellHalves_eq_spell, Number.spell]
      omega
    rw [unicodeUnit, hread]
  have hstep : step ⟨tokens, .unicode units [c, b, a]⟩ d = .ok ⟨tokens, .text ((((i * 16 + j) * 16 + k) * 16 + l) :: units)⟩ := by
    show (unicodeUnit [a, b, c, d]).bind _ = _
    rw [hunit]
    rfl
  exact scanFrom_cons hstep rest

theorem scanFrom_hexUnits {us : List Nat} {groups : List (List Char)} (h : List.Forall₂ HexUnit us groups) (tokens : List Token)
    (units : List Nat) (rest : List Char) : scanFrom ⟨tokens, .text units⟩ (groups.flatMap ('\\' :: 'u' :: ·) ++ rest) =
      scanFrom ⟨tokens, .text (us.reverse ++ units)⟩ rest := by
  induction h generalizing units with
  | nil => rfl
  | cons hu _ ih =>
    rw [List.flatMap_cons, List.append_assoc, scanFrom_hexUnit hu, ih]
    simp

/-- A character is read as its units, however it is written. -/
theorem scanFrom_spelling {c : Char} {cs : List Char} (h : Spelling c cs) (tokens : List Token) (units : List Nat)
    (rest : List Char) : scanFrom ⟨tokens, .text units⟩ (cs ++ rest) = scanFrom ⟨tokens, .text (pushChar units c)⟩ rest := by
  cases h with
  | raw hquote hslash =>
    have hstep : step ⟨tokens, .text units⟩ c = .ok ⟨tokens, .text (pushChar units c)⟩ := by
      simp only [step]
      rw [if_neg hquote, if_neg hslash]
    exact scanFrom_cons hstep rest
  | @letter d h =>
    obtain ⟨hd, hmeant⟩ := escaped?_of_mem h
    have hstep : step ⟨tokens, .escape units⟩ d = .ok ⟨tokens, .text (pushChar units c)⟩ := by
      simp only [step]
      rw [if_neg hd, hmeant]
    exact scanFrom_cons hstep rest
  | units h => exact scanFrom_hexUnits h tokens units rest

theorem scanFrom_text {cs : List Char} {parts : List (List Char)} (h : List.Forall₂ Spelling cs parts) (tokens : List Token)
    (units : List Nat) (rest : List Char) : scanFrom ⟨tokens, .text units⟩ (parts.flatten ++ rest) =
      scanFrom ⟨tokens, .text ((cs.flatMap Text.units).reverse ++ units)⟩ rest := by
  induction h generalizing units with
  | nil => rfl
  | cons hc _ ih =>
    rw [List.flatten_cons, List.append_assoc, scanFrom_spelling hc, ih, List.flatMap_cons]
    simp [pushChar]

/-- The tokens that were read, in reverse order, if the last one ends here. -/
inductive Rests : Scan → List Token → Prop
  | between (tokens : List Token) : Rests ⟨tokens, .between⟩ tokens
  | word (tokens : List Token) (chars : List Char) : Rests ⟨tokens, .word chars⟩ (wordOf chars :: tokens)

/-- A token ends before a blank and at the end of the line. -/
theorem Rests.apart (h : Rests s tokens) {rest : List Char} (hrest : Blank rest.head?.toList) :
    s.scanFrom rest = scanFrom ⟨tokens, .between⟩ rest := by
  cases h with
  | between => rfl
  | word before chars =>
    cases rest with
    | nil => rfl
    | cons c rest =>
      have hblank : Text.isBlank c = true := by simpa using hrest
      have hstep : step ⟨before, .word chars⟩ c = .ok ⟨wordOf chars :: before, .between⟩ := by
        simp [step, endsWord, start, hblank]
      have hstep' : step ⟨wordOf chars :: before, .between⟩ c = .ok ⟨wordOf chars :: before, .between⟩ := by
        simp [step, start, hblank]
      rw [scanFrom_cons hstep, scanFrom_cons hstep']

/-- A token is read, whatever follows it. -/
theorem scanFrom_token {t : Token} {cs : List Char} (ht : t.Spelled cs) (tokens : List Token) :
    ∃ s, Rests s (t :: tokens) ∧ ∀ rest, scanFrom ⟨tokens, .between⟩ (cs ++ rest) = s.scanFrom rest := by
  cases ht with
  | @word w hw =>
    obtain ⟨hne, hword⟩ := hw
    obtain ⟨c, cs, hcs⟩ := List.exists_cons_of_ne_nil hne
    have hchars : wordOf (cs.reverse ++ [c]) = .word w := by simp [wordOf, ← hcs]
    refine ⟨⟨tokens, .word (cs.reverse ++ [c])⟩, hchars ▸ .word _ _, fun rest => ?_⟩
    have hst : step ⟨tokens, .between⟩ c = .ok ⟨tokens, .word [c]⟩ := by
      have hc := hword c (by simp [hcs])
      simp only [endsWord, Bool.or_eq_false_iff, beq_eq_false_iff_ne] at hc
      simp [step, start, hc]
    rw [hcs, List.cons_append, scanFrom_cons hst]
    exact scanFrom_word _ _ _ _ fun c' hc' => hword c' (by simp [hcs, hc'])
  | @quoted text parts h =>
    refine ⟨⟨.quoted text :: tokens, .between⟩, .between _, fun rest => ?_⟩
    have hclose : step ⟨tokens, .text (text.toList.flatMap Text.units).reverse⟩ '"' = .ok ⟨.quoted text :: tokens, .between⟩ := by
      show closeText _ _ = _
      rw [closeText, List.reverse_reverse, Text.ofUnits?_units]
      simp
    rw [List.cons_append, scanFrom_cons (show step ⟨tokens, .between⟩ '"' = .ok ⟨tokens, .text []⟩ from rfl), List.append_assoc,
      scanFrom_text h, List.append_nil]
    exact scanFrom_cons hclose rest

/-- A line is read token by token. -/
theorem scanFrom_line {cs : List Char} (h : Line tokens cs) (before : List Token) :
    scanFrom ⟨before, .between⟩ cs = .ok (before.reverse ++ tokens) := by
  induction h generalizing before with
  | @blank gap hgap =>
    have hread : scanFrom ⟨before, .between⟩ (gap ++ []) = _ := scanFrom_blank hgap []
    rw [List.append_nil] at hread
    rw [hread, List.append_nil]
    rfl
  | comment hgap text =>
    rw [scanFrom_blank hgap, scanFrom_cons (show step ⟨before, .between⟩ '#' = .ok ⟨before, .comment⟩ from rfl),
      scanFrom_comment, List.append_nil]
  | @token gap cs rest t tokens hgap ht _ hapart ih =>
    obtain ⟨s, hs, hread⟩ := scanFrom_token ht before
    rw [scanFrom_blank hgap, hread, hs.apart hapart, ih]
    simp

end Scan

/-- **Tokens are read back** from every line that they can stand in, however they are written. -/
theorem scan_line {tokens : List Token} {line : List Char} (h : Line tokens line) : scan line = .ok tokens :=
  Scan.scanFrom_line h []

/-- A letter escape, a character as it is, and two halves of a character stand side by side. -/
theorem scan_line_mixed :
    let line := "ldc".toList ++ ' ' :: '"' :: '\\' :: 't' :: '#' :: "\\uD83d\\uDE00".toList ++ ['"', '\u00a0', 'x', ' ', '#', '#']
    Line [.word "ldc", .quoted "\t#😀", .word "x"] line ∧ scan line = .ok [.word "ldc", .quoted "\t#😀", .word "x"] := by
  have hface : List.Forall₂ HexUnit (Text.units '😀') ["D83d".toList, "DE00".toList] :=
    .cons (@HexUnit.digits 'D' '8' '3' 'd' 13 8 3 13 rfl rfl rfl rfl)
      (.cons (@HexUnit.digits 'D' 'E' '0' '0' 13 14 0 0 rfl rfl rfl rfl) .nil)
  have hparts : List.Forall₂ Spelling "\t#😀".toList [['\\', 't'], ['#'], "\\uD83d\\uDE00".toList] :=
    .cons (.letter (by decide)) (.cons (.raw (by decide) (by decide)) (.cons (.units hface) .nil))
  have hend : Line [.word "x"] ['\u00a0', 'x', ' ', '#', '#'] :=
    @Line.token ['\u00a0'] _ _ _ _ (by decide) (.word (by decide)) (@Line.comment [' '] (by decide) ['#']) (by decide)
  have hline := @Line.token [] _ _ _ _ (by decide) (.word (show IsWord "ldc" by decide))
    (@Line.token [' '] _ _ _ _ (by decide) (.quoted hparts) hend (by decide)) (by decide)
  exact ⟨hline, scan_line hline⟩

theorem Sound.spelled {t : Token} (h : t.Sound) : t.Spelled t.chars := by
  cases t with
  | word w => exact .word h
  | quoted text =>
    rw [chars, List.flatMap_def]
    exact .quoted (List.forall₂_map_right_iff.2 (List.forall₂_same.2 fun c _ => spelling_escape c))

/-- The printed line is one of these. -/
theorem line_lineOf {tokens : List Token} (h : ∀ t ∈ tokens, t.Sound) : Line tokens (lineOf tokens) := by
  induction tokens with
  | nil => exact .blank rfl
  | cons t tokens ih =>
    have hgap : Blank [' '] := rfl
    have hrest := ih fun t' ht' => h t' (List.mem_cons_of_mem _ ht')
    refine @Line.token [' '] _ _ _ _ hgap (h t List.mem_cons_self).spelled hrest ?_
    cases tokens with
    | nil => rfl
    | cons t' tokens => exact hgap

theorem scan_lineOf {tokens : List Token} (h : ∀ t ∈ tokens, t.Sound) : scan (lineOf tokens) = .ok tokens :=
  Scan.scanFrom_line (line_lineOf h) []

/-- A line has no line ends in it. -/
theorem lineOf_unbroken {tokens : List Token} (h : ∀ t ∈ tokens, t.Sound) : ∀ c ∈ lineOf tokens, c ≠ '\n' ∧ c ≠ '\r' := by
  have hescape : ∀ c, ∀ d ∈ escape c, d ≠ '\n' ∧ d ≠ '\r' := by
    intro c d hd
    unfold escape at hd
    split at hd
    case h_5 hline hret =>
      rw [List.mem_singleton.1 hd]
      exact ⟨hline, hret⟩
    all_goals
      simp only [List.mem_cons, List.not_mem_nil, or_false] at hd
      rcases hd with rfl | rfl <;> decide
  intro c hc
  obtain ⟨t, ht, hct⟩ := List.mem_flatMap.1 hc
  rcases List.mem_cons.1 hct with rfl | hct
  · decide
  · cases t with
    | word w =>
      have hword := (h _ ht).2 c hct
      constructor <;> rintro rfl <;> cases hword
    | quoted text =>
      have hcases : c = '"' ∨ ∃ d, c ∈ escape d := by
        rcases List.mem_cons.1 hct with rfl | hct
        · exact .inl rfl
        · rcases List.mem_append.1 hct with hct | hct
          · obtain ⟨d, -, hd⟩ := List.mem_flatMap.1 hct
            exact .inr ⟨d, hd⟩
          · exact .inl (List.mem_singleton.1 hct)
      rcases hcases with rfl | ⟨d, hd⟩
      · decide
      · exact hescape d c hd

end Token

/-- **Lines** are read back from their text. -/
theorem lines_flatMap {lines : List (List Char)} (h : ∀ l ∈ lines, ∀ c ∈ l, c ≠ '\n' ∧ c ≠ '\r') :
    Text.lines (lines.flatMap (· ++ ['\n'])) = lines := by
  have hline : ∀ (l : List Char) (done : List (List Char)) (read rest : List Char), (∀ c ∈ l, c ≠ '\n' ∧ c ≠ '\r') →
      Text.splitLines done read (l ++ '\n' :: rest) = Text.splitLines (Text.finishedLine (l.reverse ++ read) :: done) [] rest := by
    intro l
    induction l with
    | nil => exact fun _ _ _ _ => if_pos rfl
    | cons c l ih =>
      intro done read rest hl
      rw [List.cons_append, Text.splitLines, if_neg (hl c List.mem_cons_self).1,
        ih _ _ _ fun c' hc' => hl c' (List.mem_cons_of_mem _ hc')]
      simp
  have hfinished : ∀ l : List Char, (∀ c ∈ l, c ≠ '\n' ∧ c ≠ '\r') → Text.finishedLine (l.reverse ++ []) = l := by
    intro l hl
    rw [List.append_nil]
    unfold Text.finishedLine
    split
    · rename_i chars heq
      exact absurd rfl (hl '\r' (List.mem_reverse.1 (heq ▸ List.mem_cons_self))).2
    · exact List.reverse_reverse l
  have hall : ∀ (ls done : List (List Char)), (∀ l ∈ ls, ∀ c ∈ l, c ≠ '\n' ∧ c ≠ '\r') →
      Text.splitLines done [] (ls.flatMap (· ++ ['\n'])) = done.reverse ++ ls := by
    intro ls
    induction ls with
    | nil => simp [Text.splitLines]
    | cons l ls ih =>
      intro done hls
      have hl := hls l List.mem_cons_self
      rw [List.flatMap_cons, List.append_assoc, List.singleton_append, hline l done [] _ hl, hfinished l hl,
        ih _ fun l' hl' => hls l' (List.mem_cons_of_mem _ hl')]
      simp
  simpa [Text.lines] using hall lines [] h

end Listing

end JvmAssembler
