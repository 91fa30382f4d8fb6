import JvmAssembler.Error
import JvmAssembler.Proofs.Success
import Mathlib.Data.List.TakeDrop
import Mathlib.Data.List.TakeWhile

/-!
# JvmAssembler.Proofs.Descriptor

Descriptors are read exactly if they are the written form of a valid type.

* `Reads` says of a reader that it takes the written form of a valid value off the characters, whatever follows it, and
  nothing else. Each reader has this property by that of the readers it uses.
* `parse_eq_ok_iff` is the result for whole texts.
-/

namespace JvmAssembler

open Success

open Descriptor

/-! ### Valid types -/

def ClassName.IsPart (ch : Char) : Prop := ch ≠ ';' ∧ ch ≠ '.' ∧ ch ≠ '['

def ClassName.IsValid (c : ClassName) : Prop := c.name ≠ "" ∧ ∀ ch ∈ c.name.toList, IsPart ch

/-- Arrays have at least one dimension and at most 255. -/
def RefType.IsValid : RefType → Prop
  | .object c => c.IsValid
  | .objectArray dims c => (1 ≤ dims ∧ dims ≤ 255) ∧ c.IsValid
  | .primitiveArray dims _ => 1 ≤ dims ∧ dims ≤ 255

def FieldType.IsValid : FieldType → Prop
  | .base _ => True
  | .ref r => r.IsValid

/-- The parameters of a method take at most 255 slots, the receiver included. -/
structure MethodDescriptor.IsValid (d : MethodDescriptor) : Prop where
  parameters : ∀ t ∈ d.parameters, t.IsValid
  returnType : ∀ t, d.returnType = some t → t.IsValid
  slots : d.parameterLength true ≤ 255

/-! ### Readers -/

/-- A reader takes exactly the written forms of valid values off the characters. -/
structure Descriptor.Reads {α : Type} (read : Reader α) (valid : α → Prop) (render : α → String) : Prop where
  sound : ∀ {cs rest : List Char} {a : α}, read cs = .ok (a, rest) → valid a ∧ cs = (render a).toList ++ rest
  complete : ∀ {a : α}, valid a → ∀ rest, read ((render a).toList ++ rest) = .ok (a, rest)

variable {α : Type} {cs rest : List Char} {text : String}

theorem run_ok_iff {reader : Reader α} {a : α} : Reader.run reader text = .ok a ↔ reader text.toList = .ok (a, []) := by
  unfold Reader.run
  split <;> simp_all

theorem Descriptor.Reads.run_iff {read : Reader α} {valid : α → Prop} {render : α → String} (h : Reads read valid render)
    {a : α} : Reader.run read text = .ok a ↔ valid a ∧ render a = text := by
  rw [run_ok_iff]
  constructor
  · intro hread
    obtain ⟨hvld, htext⟩ := h.sound hread
    exact ⟨hvld, String.toList_inj.1 (by simpa using htext.symm)⟩
  · rintro ⟨hvld, rfl⟩
    simpa using h.complete hvld []

theorem BaseType.letter_of_ofLetter? {c : Char} {b : BaseType} (h : ofLetter? c = some b) : b.letter = c := by
  unfold ofLetter? at h
  split at h <;> cases h <;> rfl

theorem reads_baseType : Reads BaseType.read (fun _ => True) BaseType.render where
  sound := by
    intro cs rest b h
    unfold BaseType.read at h
    split at h
    · cases h
    · split at h <;> cases h
      next hletter => simp [BaseType.render, BaseType.letter_of_ofLetter? hletter]
  complete := by
    intro b _ rest
    simp [BaseType.render, BaseType.read]

theorem ClassName.readName_sound {seen : List Char} {c : ClassName} (h : readName seen cs = .ok (c, rest)) :
    ∃ chars, cs = chars ++ ';' :: rest ∧ c.name.toList = seen.reverse ++ chars ∧ c.name.toList ≠ [] ∧
      ∀ ch ∈ chars, IsPart ch := by
  induction cs generalizing seen with
  | nil => cases h
  | cons ch cs ih =>
    rw [readName] at h
    split at h
    next hsemicolon =>
      split at h <;> cases h
      next hseen => exact ⟨[], by simp [hsemicolon], by simp, by simpa using hseen, by simp⟩
    next hsemicolon =>
      split at h
      · cases h
      next hgood =>
        obtain ⟨chars, rfl, hname, hne, hparts⟩ := ih h
        rw [not_or] at hgood
        exact ⟨ch :: chars, rfl, by simpa using hname, hne, List.forall_mem_cons.2 ⟨⟨hsemicolon, hgood⟩, hparts⟩⟩

theorem ClassName.readName_complete {seen chars : List Char} (hparts : ∀ ch ∈ chars, IsPart ch)
    (hne : seen.reverse ++ chars ≠ []) (rest : List Char) :
    readName seen (chars ++ ';' :: rest) = .ok (⟨String.ofList (seen.reverse ++ chars)⟩, rest) := by
  induction chars generalizing seen with
  | nil =>
    have hseen : seen.isEmpty = false := by simpa using hne
    simp [readName, hseen]
  | cons ch chars ih =>
    obtain ⟨⟨hsemicolon, hgood⟩, hparts⟩ := List.forall_mem_cons.1 hparts
    rw [List.cons_append, readName, if_neg hsemicolon, if_neg (not_or.2 hgood), ih hparts (by simp)]
    simp

theorem reads_className : Reads ClassName.read ClassName.IsValid ClassName.render where
  sound := by
    intro cs rest c h
    unfold ClassName.read at h
    split at h
    · obtain ⟨chars, rfl, hname, hne, hparts⟩ := ClassName.readName_sound h
      rw [List.reverse_nil, List.nil_append] at hname
      exact ⟨⟨by simpa using hne, hname ▸ hparts⟩, by simp [ClassName.render, hname]⟩
    · cases h
  complete := by
    rintro ⟨name⟩ ⟨hne, hparts⟩ rest
    have hread := @ClassName.readName_complete [] _ hparts (by simpa using hne) rest
    simpa [ClassName.render, ClassName.read] using hread

/-- One bracket per dimension, then what is no bracket. -/
theorem span_brackets {n : Nat} (hcs : cs.head? ≠ some '[') :
    (List.replicate n '[' ++ cs).span (· == '[') = (List.replicate n '[', cs) := by
  have hstop : cs.takeWhile (· == '[') = [] ∧ cs.dropWhile (· == '[') = cs := by
    cases cs with
    | nil => simp
    | cons c cs =>
      have hc : ¬ c = '[' := by simpa using hcs
      simp [hc]
  rw [List.span_eq_takeWhile_dropWhile, List.takeWhile_append_of_pos (by simp), List.dropWhile_append_of_pos (by simp),
    hstop.1, hstop.2, List.append_nil]

theorem brackets_of_span {opening element : List Char} (h : cs.span (· == '[') = (opening, element)) :
    cs = List.replicate opening.length '[' ++ element := by
  rw [List.span_eq_takeWhile_dropWhile] at h
  cases h
  have hall : cs.takeWhile (· == '[') = List.replicate (cs.takeWhile (· == '[')).length '[' :=
    List.eq_replicate_iff.2 ⟨rfl, fun c hc => by simpa using List.mem_takeWhile_imp hc⟩
  rw [← hall, List.takeWhile_append_dropWhile]

/-- An array type is as many brackets as it has dimensions and its element type. -/
theorem RefType.read_brackets {n : Nat} (hn : 1 ≤ n ∧ n ≤ 255) (hcs : cs.head? ≠ some '[') :
    RefType.read (List.replicate n '[' ++ cs) =
      if cs.head? = some 'L' then return ((← ClassName.read cs).map (.objectArray n) id)
      else return ((← BaseType.read cs).map (.primitiveArray n) id) := by
  have hspan := span_brackets (n := n) hcs
  obtain ⟨k, rfl⟩ : ∃ k, n = k + 1 := ⟨n - 1, by omega⟩
  rw [List.replicate_succ, List.cons_append] at hspan ⊢
  rw [RefType.read, if_neg (by decide), if_pos rfl, hspan]
  simp [show ¬ 255 < k + 1 by omega]

theorem reads_refType : Reads RefType.read RefType.IsValid RefType.render where
  sound := by
    intro cs rest r h
    cases cs with
    | nil => cases h
    | cons c cs =>
      unfold RefType.read at h
      dsimp only at h
      split at h
      · obtain ⟨⟨name, _⟩, hread, h⟩ := bind_ok.1 h
        cases h
        exact Reads.sound reads_className hread
      · split at h
        next hbracket =>
          subst hbracket
          cases hspan : ('[' :: cs).span (· == '[') with
          | mk opening element =>
            have htext := brackets_of_span hspan
            rw [hspan] at h
            dsimp only at h
            split at h
            · cases h
            next hfew =>
              have hdimensions : 1 ≤ opening.length ∧ opening.length ≤ 255 := by
                rw [List.span_eq_takeWhile_dropWhile] at hspan
                cases hspan
                exact ⟨by simp, Nat.le_of_not_lt hfew⟩
              rw [htext]
              split at h
              · obtain ⟨⟨name, _⟩, hread, h⟩ := bind_ok.1 h
                cases h
                obtain ⟨hname, rfl⟩ := Reads.sound reads_className hread
                exact ⟨⟨hdimensions, hname⟩, by simp [RefType.render, RefType.brackets]⟩
              · obtain ⟨⟨b, _⟩, hread, h⟩ := bind_ok.1 h
                cases h
                obtain ⟨-, rfl⟩ := Reads.sound reads_baseType hread
                exact ⟨hdimensions, by simp [RefType.render, RefType.brackets]⟩
        next => cases h
  complete := by
    intro r hr rest
    cases r with
    | object c =>
      have htext : c.render.toList ++ rest = 'L' :: (c.name.toList ++ ';' :: rest) := by simp [ClassName.render]
      have hread := Reads.complete reads_className hr rest
      rw [htext] at hread
      rw [RefType.render, htext, RefType.read, if_pos rfl, hread]
      rfl
    | objectArray dims c =>
      have htext : (c.render.toList ++ rest).head? = some 'L' := by simp [ClassName.render]
      rw [RefType.render, String.toList_append, RefType.brackets, String.toList_ofList, List.append_assoc,
        RefType.read_brackets hr.1 (by simp [htext]), if_pos htext, Reads.complete reads_className hr.2]
      rfl
    | primitiveArray dims b =>
      have htext : (b.render.toList ++ rest).head? = some b.letter := by simp [BaseType.render]
      have hletter : b.letter ≠ '[' ∧ b.letter ≠ 'L' := by cases b <;> decide
      rw [RefType.render, String.toList_append, RefType.brackets, String.toList_ofList, List.append_assoc,
        RefType.read_brackets hr (by simpa [htext] using hletter.1), if_neg (by simpa [htext] using hletter.2),
        Reads.complete reads_baseType trivial]
      rfl

/-- The first character of a reference type. -/
theorem RefType.head_render {r : RefType} (hr : r.IsValid) :
    ∃ cs, r.render.toList = 'L' :: cs ∨ r.render.toList = '[' :: cs := by
  cases r with
  | object c => exact ⟨_, .inl (by simp [RefType.render, ClassName.render]; rfl)⟩
  | objectArray dims c =>
    obtain ⟨k, rfl⟩ : ∃ k, dims = k + 1 := ⟨dims - 1, by have := hr.1; omega⟩
    exact ⟨_, .inr (by simp [RefType.render, RefType.brackets, List.replicate_succ]; rfl)⟩
  | primitiveArray dims b =>
    obtain ⟨k, rfl⟩ : ∃ k, dims = k + 1 := ⟨dims - 1, by have : 1 ≤ dims ∧ _ := hr; omega⟩
    exact ⟨_, .inr (by simp [RefType.render, RefType.brackets, List.replicate_succ]; rfl)⟩

theorem reads_fieldType : Reads FieldType.read FieldType.IsValid FieldType.render where
  sound := by
    intro cs rest t h
    cases cs with
    | nil => cases h
    | cons c cs =>
      unfold FieldType.read at h
      dsimp only at h
      split at h
      · obtain ⟨⟨b, _⟩, hread, h⟩ := bind_ok.1 h
        cases h
        exact Reads.sound reads_baseType hread
      · split at h
        · obtain ⟨⟨r, _⟩, hread, h⟩ := bind_ok.1 h
          cases h
          exact Reads.sound reads_refType hread
        · cases h
  complete := by
    intro t ht rest
    cases t with
    | base b =>
      have hread := Reads.complete reads_baseType (a := b) trivial rest
      rw [BaseType.render, String.toList_singleton, List.singleton_append] at hread
      rw [FieldType.render, BaseType.render, String.toList_singleton, List.singleton_append]
      rw [FieldType.read, if_pos (by simp), hread]
      rfl
    | ref r =>
      obtain ⟨cs, hhead⟩ := RefType.head_render ht
      have hread := Reads.complete reads_refType ht rest
      rw [FieldType.render]
      rcases hhead with hhead | hhead <;>
      · rw [hhead, List.cons_append] at hread ⊢
        rw [FieldType.read, if_neg (by decide), if_pos (by decide), hread]
        rfl

/-- The first character of a field type is neither that of `void` nor the end of the parameters. -/
theorem FieldType.head_render {t : FieldType} (ht : t.IsValid) :
    ∃ c cs, t.render.toList = c :: cs ∧ c ≠ 'V' ∧ c ≠ ')' := by
  cases t with
  | base b => exact ⟨b.letter, [], by simp [FieldType.render, BaseType.render], by cases b <;> decide, by cases b <;> decide⟩
  | ref r =>
    obtain ⟨cs, hhead | hhead⟩ := RefType.head_render ht
    · exact ⟨'L', cs, hhead, by decide, by decide⟩
    · exact ⟨'[', cs, hhead, by decide, by decide⟩

/-! ### Methods -/

namespace MethodDescriptor

variable {ts : List FieldType}

/-- The written forms of some types, one after the other. -/
def spelled (ts : List FieldType) : List Char := ts.flatMap (·.render.toList)

theorem readParameters_sound {fuel : Nat} {seen : List FieldType} (h : readParameters fuel seen cs = .ok (ts, rest)) :
    ∃ new, ts = seen.reverse ++ new ∧ (∀ t ∈ new, t.IsValid) ∧ cs = spelled new ++ ')' :: rest := by
  induction fuel generalizing seen cs with
  | zero => cases h
  | succ fuel ih =>
    rw [readParameters] at h
    split at h
    next hend =>
      cases h
      obtain ⟨rest, rfl⟩ := List.head?_eq_some_iff.1 hend
      exact ⟨[], by simp, by simp, rfl⟩
    next =>
      split at h
      · cases h
      next t cs' hread =>
        obtain ⟨new, rfl, hnew, rfl⟩ := ih h
        obtain ⟨ht, rfl⟩ := Reads.sound reads_fieldType hread
        exact ⟨t :: new, by simp, List.forall_mem_cons.2 ⟨ht, hnew⟩, by simp [spelled]⟩

theorem readParameters_complete {fuel : Nat} {seen : List FieldType} (hts : ∀ t ∈ ts, t.IsValid) (hfuel : ts.length < fuel) :
    readParameters fuel seen (spelled ts ++ ')' :: rest) = .ok (seen.reverse ++ ts, rest) := by
  induction ts generalizing fuel seen with
  | nil =>
    obtain ⟨fuel, rfl⟩ : ∃ k, fuel = k + 1 := ⟨fuel - 1, by omega⟩
    simp [readParameters, spelled]
  | cons t ts ih =>
    obtain ⟨ht, hts⟩ := List.forall_mem_cons.1 hts
    rw [List.length_cons] at hfuel
    obtain ⟨fuel, rfl⟩ : ∃ k, fuel = k + 1 := ⟨fuel - 1, by omega⟩
    have htext : spelled (t :: ts) ++ ')' :: rest = t.render.toList ++ (spelled ts ++ ')' :: rest) := by simp [spelled]
    obtain ⟨c, cs, hhead, -, hparenthesis⟩ := FieldType.head_render ht
    rw [htext, readParameters, if_neg (by simpa [hhead] using hparenthesis), Reads.complete reads_fieldType ht]
    dsimp only
    rw [ih hts (by omega)]
    simp

theorem length_le_spelled (hts : ∀ t ∈ ts, t.IsValid) : ts.length ≤ (spelled ts).length := by
  induction ts with
  | nil => simp
  | cons t ts ih =>
    obtain ⟨ht, hts⟩ := List.forall_mem_cons.1 hts
    obtain ⟨c, cs, hhead, -⟩ := FieldType.head_render ht
    have := ih hts
    simp only [spelled, List.flatMap_cons, List.length_append, hhead, List.length_cons] at this ⊢
    omega

def renderReturn : Option FieldType → String
  | none => "V"
  | some t => t.render

theorem reads_return : Reads readReturn (fun r => ∀ t, r = some t → t.IsValid) renderReturn where
  sound := by
    intro cs rest r h
    unfold readReturn at h
    split at h
    · cases h
      exact ⟨by simp, rfl⟩
    · obtain ⟨⟨t, _⟩, hread, h⟩ := bind_ok.1 h
      cases h
      obtain ⟨ht, htext⟩ := Reads.sound reads_fieldType hread
      exact ⟨fun _ heq => Option.some.inj heq ▸ ht, htext⟩
  complete := by
    intro r hr rest
    cases r with
    | none => rfl
    | some t =>
      have ht := hr t rfl
      have hread := Reads.complete reads_fieldType ht rest
      obtain ⟨c, cs, hhead, hvoid, -⟩ := FieldType.head_render ht
      rw [renderReturn]
      rw [hhead, List.cons_append] at hread ⊢
      unfold readReturn
      split
      next heq => cases heq; exact absurd rfl hvoid
      next => rw [hread]; rfl

theorem toList_render (d : MethodDescriptor) (rest : List Char) : d.render.toList ++ rest =
    '(' :: (spelled d.parameters ++ ')' :: ((renderReturn d.returnType).toList ++ rest)) := by
  have hret : d.render = "(" ++ String.join (d.parameters.map FieldType.render) ++ ")" ++ renderReturn d.returnType := by
    unfold render renderReturn
    cases d.returnType <;> rfl
  simp [hret, spelled, String.toList_join, List.flatMap_map]

theorem reads_methodDescriptor : Reads read IsValid render where
  sound := by
    intro cs rest d h
    unfold read at h
    split at h
    · obtain ⟨⟨parameters, cs₁⟩, hpars, h⟩ := bind_ok.1 h
      obtain ⟨⟨returnType, cs₂⟩, hret, h⟩ := bind_ok.1 h
      dsimp only at h
      split at h
      · cases h
      next hsl =>
        cases h
        obtain ⟨new, rfl, hvld, rfl⟩ := readParameters_sound hpars
        obtain ⟨htype, rfl⟩ := Reads.sound reads_return hret
        exact ⟨⟨hvld, htype, Nat.le_of_not_lt hsl⟩, (toList_render ⟨parameters, returnType⟩ rest).symm⟩
    · cases h
  complete := by
    intro d hd rest
    have hlen := length_le_spelled hd.parameters
    rw [toList_render, read, readParameters_complete hd.parameters (by simp; omega)]
    simp only [bind, Except.bind, Reads.complete reads_return hd.returnType]
    exact if_neg (Nat.not_lt.2 hd.slots)

end MethodDescriptor

/-- **Descriptors parse exactly their grammar.** A text is read as a class, a reference type, a field type or a method
descriptor exactly if the value is valid and the text is its written form. -/
theorem parse_eq_ok_iff (text : String) :
    (∀ c, ClassName.parse text = .ok c ↔ c.IsValid ∧ c.render = text) ∧
      (∀ r, RefType.parse text = .ok r ↔ r.IsValid ∧ r.render = text) ∧
      (∀ t, FieldType.parse text = .ok t ↔ t.IsValid ∧ t.render = text) ∧
      ∀ d, MethodDescriptor.parse text = .ok d ↔ d.IsValid ∧ d.render = text :=
  ⟨fun _ => Reads.run_iff reads_className, fun _ => Reads.run_iff reads_refType, fun _ => Reads.run_iff reads_fieldType,
    fun _ => Reads.run_iff MethodDescriptor.reads_methodDescriptor⟩

/-! ### Descriptors of the assembler -/

theorem FieldType.valid_of_ofDescriptor {t : FieldType} (h : FieldType.ofDescriptor text = .ok t) : t.IsValid := by
  unfold FieldType.ofDescriptor at h
  cases hparse : FieldType.parse text with
  | error fault =>
    rw [hparse] at h
    cases h
  | ok t' =>
    rw [hparse] at h
    cases h
    exact ((Reads.run_iff reads_fieldType).1 hparse).1

theorem MethodDescriptor.valid_of_ofDescriptor {d : MethodDescriptor} (h : MethodDescriptor.ofDescriptor text = .ok d) :
    d.IsValid := by
  unfold MethodDescriptor.ofDescriptor at h
  cases hparse : MethodDescriptor.parse text with
  | error fault =>
    rw [hparse] at h
    cases h
  | ok d' =>
    rw [hparse] at h
    cases h
    exact ((Reads.run_iff reads_methodDescriptor).1 hparse).1

end JvmAssembler
