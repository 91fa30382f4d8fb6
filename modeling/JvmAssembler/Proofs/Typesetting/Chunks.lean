import JvmAssembler.Method.Writer
import JvmAssembler.Proofs.Bytes
import JvmAssembler.Proofs.Labels
import JvmAssembler.Widening

/-!
# JvmAssembler.Proofs.Typesetting.Chunks

Code while its labels are being placed, with jumps that may turn out too long.

A short jump is one chunk: when its label is placed out of range, its opcode becomes a marker, so that opcode and offset
are written together. `foldl_patchReference` says that filling in the offsets which wait for a label renders the same
chunks once more.
-/

namespace JvmAssembler

namespace Typesetting

open Bytes MethodWriter

/-- A piece of code. -/
inductive Chunk
  | bytes (bs : List UInt8)
  /-- The offset of a label from a position, in four bytes. -/
  | wide (label : Label) (source : Nat)
  /-- A jump to a label from a position, with an offset of two bytes. -/
  | short (op : Opcode) (label : Label) (source : Nat)
  deriving DecidableEq

def offsetTo (place : Label → Option Nat) (label : Label) (source : Nat) : Int :=
  ((place label).map fun p => (p : Int) - source).getD (-1)

theorem offsetTo_of_placed {place : Label → Option Nat} {label : Label} {p : Nat} (h : place label = some p)
    (source : Nat) : offsetTo place label source = p - source := by
  rw [offsetTo, h]
  rfl

namespace Chunk

/-- How many bytes a chunk takes. -/
def length : Chunk → Nat
  | bytes bs => bs.length
  | wide .. => 4
  | short .. => 3

def label? : Chunk → Option Label
  | bytes _ => none
  | wide l _ | short _ l _ => some l

/-- A jump with a two byte offset, or its marker if the offset does not fit. -/
def jump (op : Opcode) (offset : Int) : List UInt8 :=
  (if Widening.fitsShort offset then op else op.marker) :: i2 offset

def render (place : Label → Option Nat) : Chunk → List UInt8
  | bytes bs => bs
  | wide l source => i4 (offsetTo place l source)
  | short op l source => jump op (offsetTo place l source)

@[simp] theorem length_render (place : Label → Option Nat) (c : Chunk) : (c.render place).length = c.length := by
  cases c <;> rfl

/-- Whether a chunk is a jump to a label that is out of its range when the label is placed somewhere. -/
def overflows (label : Label) (pos : Nat) : Chunk → Bool
  | short _ l source => l = label && !Widening.fitsShort (pos - source)
  | _ => false

end Chunk

def render (place : Label → Option Nat) (chunks : List Chunk) : List UInt8 := chunks.flatMap (·.render place)

/-- How many bytes some chunks take. -/
def size (chunks : List Chunk) : Nat := (chunks.map Chunk.length).foldr (· + ·) 0

@[simp] theorem render_nil (place : Label → Option Nat) : render place [] = [] := rfl

@[simp] theorem render_cons (place : Label → Option Nat) (c : Chunk) (chunks : List Chunk) :
    render place (c :: chunks) = c.render place ++ render place chunks := rfl

@[simp] theorem render_append (place : Label → Option Nat) (chunks chunks' : List Chunk) :
    render place (chunks ++ chunks') = render place chunks ++ render place chunks' :=
  List.flatMap_append

@[simp] theorem size_nil : size [] = 0 := rfl

@[simp] theorem size_cons (c : Chunk) (chunks : List Chunk) : size (c :: chunks) = c.length + size chunks := rfl

@[simp] theorem size_append (chunks chunks' : List Chunk) : size (chunks ++ chunks') = size chunks + size chunks' := by
  induction chunks with
  | nil => simp
  | cons c chunks ih => simp [ih, Nat.add_assoc]

@[simp] theorem length_render (place : Label → Option Nat) (chunks : List Chunk) :
    (render place chunks).length = size chunks := by
  induction chunks with
  | nil => rfl
  | cons c chunks ih => simp [ih]

variable {place place' : Label → Option Nat} {chunks : List Chunk} {label : Label} {c : Chunk}

/-- Only the labels that chunks refer to matter. -/
theorem render_congr
    (h : ∀ c ∈ chunks, ∀ l, c.label? = some l → place l = place' l) : render place chunks = render place' chunks := by
  induction chunks with
  | nil => rfl
  | cons c chunks ih =>
    obtain ⟨hc, hrest⟩ := List.forall_mem_cons.1 h
    rw [render_cons, render_cons, ih hrest]
    cases c with
    | bytes bs => rfl
    | wide l source => rw [Chunk.render, Chunk.render, offsetTo, offsetTo, hc l rfl]
    | short op l source => rw [Chunk.render, Chunk.render, offsetTo, offsetTo, hc l rfl]

/-! ### Waiting for a label -/

/-- The offset of a chunk that starts at a position, if it is that of some label. -/
def Chunk.site? (label : Label) (start : Nat) : Chunk → Option ForwardRef
  | .bytes _ => none
  | .wide l source => if l = label then some ⟨source, start, true⟩ else none
  | .short _ l source => if l = label then some ⟨source, start + 1, false⟩ else none

/-- The places of the offsets of a label, in code that starts at a position. -/
def sites (label : Label) : Nat → List Chunk → List ForwardRef
  | _, [] => []
  | start, c :: chunks => (c.site? label start).toList ++ sites label (start + c.length) chunks

theorem sites_append (label : Label) (start : Nat) (chunks chunks' : List Chunk) :
    sites label start (chunks ++ chunks') =
      sites label start chunks ++ sites label (start + size chunks) chunks' := by
  induction chunks generalizing start with
  | nil => rfl
  | cons c chunks ih => simp [sites, ih, Nat.add_assoc]

/-- Every label that a chunk refers to is waited for. -/
theorem sites_ne_nil (hc : c ∈ chunks) (hlab : c.label? = some label) (start : Nat) : sites label start chunks ≠ [] := by
  induction chunks generalizing start with
  | nil => cases hc
  | cons c' chunks ih =>
    rw [sites]
    rcases List.mem_cons.1 hc with rfl | hrest
    · cases c with
      | bytes bs => cases hlab
      | wide l source => cases hlab; simp [Chunk.site?]
      | short op l source => cases hlab; simp [Chunk.site?]
    · intro hnil
      exact ih hrest _ (List.append_eq_nil_iff.1 hnil).2

/-- Filling in one offset. -/
theorem patchReference_site {pos : Nat} (hunpl : place label = none) (hpl : place' label = some pos)
    {before : List UInt8} {r : ForwardRef} (hr : c.site? label before.length = some r)
    {w : MethodWriter} {after : List UInt8} (h : w.code.toList = before ++ c.render place ++ after) :
    ∃ code, patchReference pos w r =
        { w with code := code, hasOversized := w.hasOversized || c.overflows label pos } ∧
      code.toList = before ++ c.render place' ++ after := by
  cases c with
  | bytes bs => cases hr
  | wide l source =>
    by_cases hl : l = label
    · subst hl
      rw [Chunk.site?, if_pos rfl] at hr
      cases hr
      refine ⟨w.code.patch before.length (i4 (pos - source)), ?_, ?_⟩
      · simp [patchReference, Chunk.overflows]
      · rw [toList_patch _ h (by simp [Chunk.length]), Chunk.render, offsetTo_of_placed hpl]
    · rw [Chunk.site?, if_neg hl] at hr
      cases hr
  | short op l source =>
    by_cases hl : l = label
    · subst hl
      rw [Chunk.site?, if_pos rfl] at hr
      cases hr
      have hreserved : Chunk.render place (.short op l source) = [op] ++ i2 (-1) := by
        simp [Chunk.render, offsetTo, hunpl, Chunk.jump, Widening.fitsShort]
      rw [hreserved] at h
      cases hfits : Widening.fitsShort ((pos : Int) - source) with
      | true =>
        have hrng : -32768 ≤ (pos : Int) - source ∧ (pos : Int) - source ≤ 32767 := by
          simpa [Widening.fitsShort] using hfits
        have hcode : w.code.toList = (before ++ [op]) ++ i2 (-1) ++ after := by rw [h]; simp
        refine ⟨w.code.patch (before.length + 1) (i2 (pos - source)), ?_, ?_⟩
        · simp [patchReference, Chunk.overflows, hrng, hfits]
        · have hpatched := toList_patch (i2 ((pos : Int) - source)) hcode rfl
          rw [List.length_append] at hpatched
          rw [show before.length + 1 = before.length + [op].length from rfl, hpatched, Chunk.render,
            offsetTo_of_placed hpl, Chunk.jump, if_pos hfits]
          simp
      | false =>
        have hrng : ¬ (-32768 ≤ (pos : Int) - source ∧ (pos : Int) - source ≤ 32767) := by
          simpa [Widening.fitsShort] using hfits
        have hop : w.code.byteAt before.length = op := by
          have hhold : w.code.HoldsAt before.length [op] := by
            refine ⟨i2 (-1) ++ after, ?_⟩
            rw [h]
            simp
          exact hhold.byteAt
        refine ⟨w.code.patch before.length (op.marker :: i2 (pos - source)), ?_, ?_⟩
        · unfold patchReference
          dsimp only
          rw [if_neg (by decide), if_neg hrng]
          simp [Chunk.overflows, hfits, hop]
        · rw [toList_patch (op.marker :: i2 ((pos : Int) - source)) h rfl, Chunk.render,
            offsetTo_of_placed hpl, Chunk.jump, hfits]
          rfl
    · rw [Chunk.site?, if_neg hl] at hr
      cases hr

/-- A chunk that does not wait for a label is not affected by it. -/
theorem render_of_site?_eq_none (hothers : ∀ l, l ≠ label → place' l = place l) {start : Nat} (h : c.site? label start = none) :
    c.render place' = c.render place ∧ ∀ pos, c.overflows label pos = false := by
  cases c with
  | bytes bs => exact ⟨rfl, fun _ => rfl⟩
  | wide l source =>
    have hl : l ≠ label := by
      intro heq
      rw [Chunk.site?, if_pos heq] at h
      cases h
    rw [Chunk.render, Chunk.render, offsetTo, offsetTo, hothers l hl]
    exact ⟨rfl, fun _ => rfl⟩
  | short op l source =>
    have hl : l ≠ label := by
      intro heq
      rw [Chunk.site?, if_pos heq] at h
      cases h
    rw [Chunk.render, Chunk.render, offsetTo, offsetTo, hothers l hl]
    exact ⟨rfl, fun _ => by simp [Chunk.overflows, hl]⟩

/-- **Filling in all offsets of a label** renders the code with the label placed. -/
theorem foldl_patchReference {pos : Nat} (hunpl : place label = none) (hpl : place' label = some pos)
    (hothers : ∀ l, l ≠ label → place' l = place l) {w : MethodWriter} {before : List UInt8}
    (h : w.code.toList = before ++ render place chunks) :
    ∃ code, (sites label before.length chunks).foldl (patchReference pos) w =
        { w with code := code, hasOversized := w.hasOversized || chunks.any (·.overflows label pos) } ∧
      code.toList = before ++ render place' chunks := by
  -- everything up to the next chunk is rendered anew already
  induction chunks generalizing w before with
  | nil => exact ⟨w.code, by simp [sites], by simpa using h⟩
  | cons c chunks ih =>
    rw [render_cons, ← List.append_assoc] at h
    cases hsite : c.site? label before.length with
    | none =>
      obtain ⟨hsame, hfits⟩ := render_of_site?_eq_none hothers hsite
      obtain ⟨code, hrest, hcode⟩ := ih h
      rw [List.length_append, Chunk.length_render] at hrest
      refine ⟨code, ?_, ?_⟩
      · rw [sites, hsite, Option.toList_none, List.nil_append, hrest, List.any_cons, hfits, Bool.false_or]
      · rw [hcode, render_cons, hsame, List.append_assoc]
    | some r =>
      obtain ⟨code₁, hpatch, hcode₁⟩ := patchReference_site hunpl hpl hsite h
      obtain ⟨code, hrest, hcode⟩ := @ih
        { w with code := code₁, hasOversized := w.hasOversized || c.overflows label pos } _ hcode₁
      rw [List.length_append, Chunk.length_render] at hrest
      refine ⟨code, ?_, ?_⟩
      · rw [sites, hsite, Option.toList_some, List.singleton_append, List.foldl_cons, hpatch, hrest, List.any_cons,
          Bool.or_assoc]
      · rw [hcode, render_cons, List.append_assoc]

end Typesetting

end JvmAssembler
