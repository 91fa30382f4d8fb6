import JvmAssembler.Proofs.Invariant
import JvmAssembler.Proofs.Typesetting.Chunks

/-!
# JvmAssembler.Proofs.Typesetting.Steps

What the steps of writing a method do to its code, whatever is computed.

* `Typeset` relates the code and the label table of a method to chunks.
* Most steps are `Quiet`: they keep records about blocks, and place labels that no one waits for.
* Steps that `Emits` append chunks.
-/

namespace JvmAssembler

open Success

namespace Typesetting

open Bytes MethodWriter LabelTable

/-- The code of a method is rendered from chunks, and each label that is not placed knows the offsets that wait for it. -/
structure Typeset (w : MethodWriter) (chunks : List Chunk) : Prop where
  code : w.code.toList = render w.labels.position? chunks
  waiting : ∀ l, w.labels.position? l = none → (w.labels.info l).waiting.toList = sites l 0 chunks
  behind : ∀ l p, w.labels.position? l = some p → p ≤ w.code.size
  /-- There is a marker only if some jump has turned out too long. -/
  marked : w.hasOversized = true →
    ∃ op l, ∃ source p : Nat, .short op l source ∈ chunks ∧ w.labels.position? l = some p ∧
      Widening.fitsShort (p - source) = false

theorem Typeset.size_eq {w : MethodWriter} {chunks : List Chunk} (h : Typeset w chunks) : w.code.size = size chunks := by
  rw [← Array.length_toList, h.code, length_render]

/-! ### Steps that write nothing -/

/-- Nothing is written. Labels from a number on may be placed here, if no one waits for them. -/
structure Quiet (n : Nat) (R : Pool → Pool → Prop) (w w' : MethodWriter) : Prop where
  code : w'.code = w.code
  oversized : w'.hasOversized = w.hasOversized
  pool : R w.pool w'.pool
  size : w.labels.size ≤ w'.labels.size
  waiting : ∀ l, (w'.labels.info l).waiting = (w.labels.info l).waiting
  places : ∀ l, w'.labels.position? l = w.labels.position? l ∨
    n ≤ l ∧ w.labels.position? l = none ∧ (w.labels.info l).waiting = #[] ∧ w'.labels.position? l = some w.code.size

section
variable {n : Nat} {R : Pool → Pool → Prop}

instance [Std.Refl R] : Std.Refl (Quiet n R) :=
  ⟨fun _ => ⟨rfl, rfl, Std.Refl.refl _, Nat.le_refl _, fun _ => rfl, fun _ => .inl rfl⟩⟩

variable {w w' : MethodWriter}

theorem Quiet.trans [Trans R R R] {u v : MethodWriter} (h : Quiet n R u v) (h' : Quiet n R v w) : Quiet n R u w := by
  refine ⟨h'.code.trans h.code, h'.oversized.trans h.oversized, Trans.trans h.pool h'.pool,
    Nat.le_trans h.size h'.size, fun l => (h'.waiting l).trans (h.waiting l), fun l => ?_⟩
  rcases h'.places l with hsame | ⟨hn, hnone, hwait, hpl⟩
  · rcases h.places l with hsame' | ⟨hn, hnone, hwait, hpl⟩
    · exact .inl (hsame.trans hsame')
    · exact .inr ⟨hn, hnone, hwait, hsame.trans hpl⟩
  · rcases h.places l with hsame' | ⟨-, -, -, hpl'⟩
    · rw [hsame'] at hnone
      rw [h.waiting l] at hwait
      rw [h.code] at hpl
      exact .inr ⟨hn, hnone, hwait, hpl⟩
    · rw [hnone] at hpl'
      cases hpl'

theorem Quiet.mono {R' : Pool → Pool → Prop} {m : Nat} (h : Quiet n R w w')
    (hR : R w.pool w'.pool → R' w.pool w'.pool) (hm : m ≤ n) : Quiet m R' w w' :=
  ⟨h.code, h.oversized, hR h.pool, h.size, h.waiting,
    fun l => (h.places l).imp_right fun hl => ⟨Nat.le_trans hm hl.1, hl.2⟩⟩

/-- Labels that are placed stay where they are. -/
theorem Quiet.kept (h : Quiet n R w w') (l : Label) (p : Nat) (hp : w.labels.position? l = some p) :
    w'.labels.position? l = some p := by
  rcases h.places l with hsame | ⟨-, hnone, -⟩
  · exact hsame.trans hp
  · rw [hnone] at hp
    cases hp

/-- Labels are placed at the end of the code. -/
theorem Quiet.placed (h : Quiet n R w w') (l : Label) (p : Nat) (hp : w'.labels.position? l = some p) :
    w.labels.position? l = some p ∨ p = w.code.size := by
  rcases h.places l with hsame | ⟨-, -, -, hpl⟩
  · exact .inl (hsame.symm.trans hp)
  · exact .inr (Option.some.inj (hp.symm.trans hpl))

/-- A label that someone waits for is not affected. -/
theorem Quiet.position_of_waiting (h : Quiet n R w w') {l : Label}
    (hl : (w.labels.info l).waiting ≠ #[] ∨ w.labels.position? l ≠ none) : w'.labels.position? l = w.labels.position? l := by
  rcases h.places l with hsame | ⟨-, hnone, hwait, -⟩
  · exact hsame
  · rcases hl with hl | hl
    · exact absurd hwait hl
    · exact absurd hnone hl

theorem Typeset.quiet {chunks : List Chunk} (ht : Typeset w chunks) (h : Quiet n R w w') :
    Typeset w' chunks := by
  -- the labels of chunks are placed, or their offsets wait
  have hsame : ∀ c ∈ chunks, ∀ l, c.label? = some l → w'.labels.position? l = w.labels.position? l := by
    intro c hc l hl
    refine h.position_of_waiting ?_
    cases hp : w.labels.position? l with
    | some p => exact .inr (by simp)
    | none =>
      refine .inl fun hwait => ?_
      have hsites := ht.waiting l hp
      rw [hwait] at hsites
      exact sites_ne_nil hc hl 0 hsites.symm
  refine ⟨?_, fun l hl => ?_, fun l p hp => ?_, fun hmark => ?_⟩
  · rw [h.code, ht.code]
    exact render_congr fun c hc l hl => (hsame c hc l hl).symm
  · rw [h.waiting l]
    rcases h.places l with heq | ⟨-, -, -, hpl⟩
    · exact ht.waiting l (heq ▸ hl)
    · rw [hpl] at hl
      cases hl
  · rw [h.code]
    rcases h.places l with heq | ⟨-, -, -, hpl⟩
    · exact ht.behind l p (heq ▸ hp)
    · rw [hpl] at hp
      cases hp
      exact Nat.le_refl _
  · obtain ⟨op, l, src, p, hmem, hp, hfar⟩ := ht.marked (h.oversized ▸ hmark)
    exact ⟨op, l, src, p, hmem, (hsame _ hmem l rfl).trans hp, hfar⟩

/-- Nothing but records about blocks is changed. -/
theorem quiet_recorded [Std.Refl R] (hcode : w'.code = w.code) (hrest : w'.hasOversized = w.hasOversized ∧ w'.pool = w.pool)
    (hlabs : w.labels.Recorded w'.labels) : Quiet n R w w' :=
  ⟨hcode, hrest.1, hrest.2 ▸ Std.Refl.refl _, hlabs.size, hlabs.waiting, fun l => .inl (hlabs.retouched l).position⟩

/-- Steps that write nothing, among labels of which at least a number have been made. -/
def Stays (n : Nat) (R : Pool → Pool → Prop) {α : Type} (m : MethodM α) : Prop :=
  ∀ w a w', n ≤ w.labels.size → m w = .ok a w' → Quiet n R w w'

theorem stays_modifyGet {α : Type} {f : MethodWriter → α × MethodWriter} (h : ∀ w, Quiet n R w (f w).2) :
    Stays n R (MonadStateOf.modifyGet f : MethodM α) := by
  intro w a w' _ hrun
  cases hrun
  exact h w

theorem stays_fromPool {α : Type} {action : PoolM α} (h : Moves R action) : Stays n R (fromPool action) := by
  intro w a w' _ hrun
  obtain ⟨pool, hpool, rfl⟩ := fromPool_ok hrun
  exact ⟨rfl, rfl, h _ _ _ hpool, Nat.le_refl _, fun _ => rfl, fun _ => .inl rfl⟩

instance [Std.Refl R] [Trans R R R] : Recording (@Stays n R) where
  pure a w b w' _ h := by
    cases h
    exact Std.Refl.refl _
  throw _ _ _ _ _ h := nomatch h
  get w a w' _ h := by
    cases h
    exact Std.Refl.refl _
  bind hx hk w b w' hn h := by
    obtain ⟨a, u, hfst, hrest⟩ := run_bind_ok.1 h
    have hquiet := hx w a u hn hfst
    exact hquiet.trans (hk a u b w' (Nat.le_trans hn hquiet.size) hrest)
  record h := stays_modifyGet fun w => by
    obtain ⟨⟨_, _, _, _, _, _, _, heq⟩, hlabs⟩ := h w
    exact quiet_recorded (by rw [heq]) (by rw [heq]; exact ⟨rfl, rfl⟩) hlabs

instance [Std.Refl R] [Trans R R R] : Counting (@Stays n R) where
  count h := stays_modifyGet fun w => by
    obtain ⟨_, _, heq⟩ := h w
    rw [heq]
    exact quiet_recorded rfl ⟨rfl, rfl⟩ (.refl _)

instance : Naming (@Stays n Pool.Enlarges) where
  utf8 text := stays_fromPool (Pool.interning_utf8 text).settles.moves
  cls name := stays_fromPool (Pool.interning_cls name).settles.moves

end

/-! ### Blocks -/

section
variable {n : Nat}

/-- The rows of the pool stay as they are. -/
abbrev Silent (n : Nat) : MethodWriter → MethodWriter → Prop := Quiet n Pool.SameRows

theorem stays_interpret (op : Opcode) (arg : Nat) (operand : Operand) : Stays n Pool.SameRows (interpret op arg operand) := by
  intro w u w' _ hrun
  unfold interpret at hrun
  split at hrun
  · split at hrun
    · cases hrun
      exact Std.Refl.refl _
    · dsimp only at hrun
      split at hrun
      next hexecute =>
        cases hrun
        simp only [updateTyped_updateTyped]
        refine ⟨rfl, rfl, Interpreter.sameRows_of_execute hexecute, by simp, fun l => ?_, fun l => .inl ?_⟩
        · exact w.labels.info_update_cases (P := fun i i' => i'.waiting = i.waiting) _ l _ (fun _ => rfl) fun _ => rfl
        · exact w.labels.info_update_cases (P := fun i i' => i'.position = i.position) _ l _ (fun _ => rfl) fun _ => rfl
      next => cases hrun
  · cases hrun
    exact Std.Refl.refl _

variable {w w' : MethodWriter} {u : Unit}

/-- Placing a label that no one waits for. -/
theorem silent_resolve {label : Label} (hlab : n ≤ label)
    (hsize : label < w.labels.size) (hwait : (w.labels.info label).waiting = #[]) (h : resolve label w = .ok u w') :
    Silent n w w' := by
  unfold resolve at h
  rw [run_get_bind] at h
  split at h
  · cases h
  next hunpl =>
    obtain rfl := run_modify_ok.1 h
    simp only [hwait, List.foldl_nil]
    have hnone : w.labels.position? label = none := by simpa [isPlaced] using hunpl
    refine ⟨rfl, rfl, Std.Refl.refl _, by simp, fun l => ?_, fun l => ?_⟩
    · by_cases hl : l = label
      · subst hl
        rw [info_update_self _ _ _ hsize, hwait]
      · rw [info_update_of_ne _ _ _ _ hl]
    · by_cases hl : l = label
      · subst hl
        refine .inr ⟨hlab, hnone, hwait, ?_⟩
        rw [position?, info_update_self _ _ _ hsize]
      · rw [position?, info_update_of_ne _ _ _ _ hl]
        exact .inl rfl

theorem silent_placeLabel {label : Label} (hlab : n ≤ label)
    (hwait : (w.labels.info label).waiting = #[]) (h : placeLabel label w = .ok u w') : Silent n w w' := by
  obtain ⟨_, w₁, hchk, h⟩ := run_bind_ok.1 h
  obtain ⟨hsize, rfl⟩ := checkLabel_ok hchk
  obtain ⟨_, w₁, hres, h⟩ := run_bind_ok.1 h
  have hquiet := silent_resolve hlab hsize hwait hres
  exact hquiet.trans (tame_head (C := @Stays n Pool.SameRows) label _ _ _ (Nat.le_trans (Nat.le_trans hlab (Nat.le_of_lt hsize)) hquiet.size) h)

theorem newLabel_ok {l : Label} (h : newLabel w = .ok l w') :
    l = w.labels.size ∧ w' = { w with labels := w.labels.push {} } := by
  obtain ⟨rfl, rfl⟩ := Prod.mk.inj (run_modifyGet_ok.1 h)
  exact ⟨rfl, rfl⟩

/-- Something is done with a new label. -/
theorem stays_new {k : Label → MethodM Unit}
    (hk : ∀ label w u w', n ≤ label → label < w.labels.size → (w.labels.info label).waiting = #[] → k label w = .ok u w' →
      Silent n w w') : Stays n Pool.SameRows (newLabel >>= k) := by
  intro w u w' hn h
  obtain ⟨label, w₁, hnew, h⟩ := run_bind_ok.1 h
  have hquiet := Recording.newLabel (C := @Stays n Pool.SameRows) _ _ _ hn hnew
  obtain ⟨rfl, rfl⟩ := newLabel_ok hnew
  refine hquiet.trans (hk _ _ _ _ hn (by simp) ?_ h)
  show (LabelTable.info (w.labels.push {}) w.labels.size).waiting = #[]
  rw [info_push, info_of_size_le _ _ (Nat.le_refl _)]

instance : Dividing (@Stays n Pool.SameRows) where
  interpret := stays_interpret
  placeNew := stays_new fun _ _ _ _ hlab _ hwait hplc => silent_placeLabel hlab hwait hplc
  endBlock := by
    refine Steps.bind Steps.get fun w => ?_
    split
    · refine stays_new fun label v u v' hlab hsize hwait hrun => ?_
      obtain ⟨_, v₁, hres, hrun⟩ := run_bind_ok.1 hrun
      have hquiet := silent_resolve hlab hsize hwait hres
      have hrest : Stays n Pool.SameRows (do startFrame label; pushBlock label; modify fun w => { w with current := none }) :=
        Steps.bind (tame_startFrame label) fun _ => Steps.bind (tame_pushBlock label) fun _ => tame_enter none
      exact hquiet.trans (hrest _ _ _ (Nat.le_trans (Nat.le_trans hlab (Nat.le_of_lt hsize)) hquiet.size) hrun)
    · exact Steps.bind (tame_leave _) fun _ => tame_enter none
    · exact tame_enter none

end

/-! ### Steps that write -/

/-- Chunks are appended, and nothing else happens but that labels wait for them. -/
structure Emits (w w' : MethodWriter) (new : List Chunk) : Prop where
  typeset : ∀ {chunks}, Typeset w chunks → Typeset w' (chunks ++ new)
  places : w'.labels.position? = w.labels.position?
  /-- Labels that are not referred to are not waited for either. -/
  waiting : ∀ l, (∀ c ∈ new, c.label? ≠ some l) → (w'.labels.info l).waiting = (w.labels.info l).waiting
  labels : w'.labels.size = w.labels.size
  size : w'.code.size = w.code.size + size new
  rest : w' = { w with code := w'.code, labels := w'.labels }

variable {w w' : MethodWriter} {u : Unit} {label : Label} {src : Nat}

theorem emits_nil : Emits w w [] where
  typeset ht := by rwa [List.append_nil]
  places := rfl
  waiting _ _ := rfl
  labels := rfl
  size := rfl
  rest := rfl

theorem Emits.trans {u v : MethodWriter} {new new' : List Chunk} (h : Emits u v new) (h' : Emits v w new') :
    Emits u w (new ++ new') where
  typeset ht := by
    rw [← List.append_assoc]
    exact h'.typeset (h.typeset ht)
  places := h'.places.trans h.places
  waiting l hl := by
    rw [h'.waiting l fun c hc => hl c (List.mem_append_right _ hc),
      h.waiting l fun c hc => hl c (List.mem_append_left _ hc)]
  labels := h'.labels.trans h.labels
  size := by rw [h'.size, h.size, size_append, Nat.add_assoc]
  rest := by rw [h'.rest, h.rest]

/-- One chunk is appended. -/
theorem emits_chunk {labels : LabelTable} (c : Chunk)
    (hpls : labels.position? = w.labels.position?) (hsize : labels.size = w.labels.size)
    (hwait : ∀ l, (labels.info l).waiting.toList =
      (w.labels.info l).waiting.toList ++
        if w.labels.position? l = none then (c.site? l w.code.size).toList else []) :
    Emits w { w with code := w.code.write (c.render w.labels.position?), labels := labels } [c] := by
  have hlen : (w.code.write (c.render w.labels.position?)).size = w.code.size + c.length := by simp
  refine ⟨fun {chunks} ht => ⟨?_, fun l hl => ?_, fun l p hp => ?_, fun hmark => ?_⟩, hpls, fun l hl => ?_, hsize,
    hlen, rfl⟩
  · dsimp only
    rw [toList_write, ht.code, render_append, hpls]
    simp
  · dsimp only at hl ⊢
    rw [hpls] at hl
    rw [hwait l, if_pos hl, ht.waiting l hl, ht.size_eq, sites_append, Nat.zero_add]
    simp [sites]
  · dsimp only at hp ⊢
    rw [hpls] at hp
    rw [hlen]
    exact Nat.le_add_right_of_le (ht.behind l p hp)
  · obtain ⟨op, l, src, p, hmem, hp, hfar⟩ := ht.marked hmark
    refine ⟨op, l, src, p, List.mem_append_left _ hmem, ?_, hfar⟩
    dsimp only
    rw [hpls]
    exact hp
  · have hnone : c.site? l w.code.size = none := by
      have hc := hl c List.mem_cons_self
      cases c with
      | bytes bs => rfl
      | wide k src => rw [Chunk.site?, if_neg fun heq => hc (by rw [heq]; rfl)]
      | short op k src => rw [Chunk.site?, if_neg fun heq => hc (by rw [heq]; rfl)]
    have heq := hwait l
    rw [hnone] at heq
    exact Array.ext' (by simpa using heq)

theorem emits_emit {bs : List UInt8} (h : emit bs w = .ok u w') :
    Emits w w' [.bytes bs] := by
  obtain rfl := run_modify_ok.1 h
  exact emits_chunk (.bytes bs) rfl rfl fun l => by simp [Chunk.site?]

/-- A label waits for the offset of a chunk. -/
theorem emits_waiting {label : Nat} {wide : Bool} (hlab : label < w.labels.size)
    (hnone : w.labels.position? label = none) (c : Chunk) {site : Nat}
    (hsite : ∀ l, c.site? l w.code.size = if label = l then some ⟨src, site, wide⟩ else none) :
    Emits w
      { w with
        code := w.code.write (c.render w.labels.position?)
        labels := w.labels.update label fun info => { info with waiting := info.waiting.push ⟨src, site, wide⟩ } } [c] := by
  refine emits_chunk c (by funext l; exact (w.labels.info_update_cases (P := fun i i' => i'.position = i.position) label l _
    (fun _ => rfl) fun _ => rfl)) (by simp) fun l => ?_
  by_cases hl : l = label
  · subst hl
    rw [info_update_self _ _ _ hlab, if_pos hnone, hsite, if_pos rfl]
    simp
  · rw [info_update_of_ne _ _ _ _ hl, hsite, if_neg (Ne.symm hl)]
    simp

/-- Nothing waits for the offset of a label that is placed. -/
theorem emits_known {label : Nat} {wide : Bool} {p : Nat} (hplc : w.labels.position? label = some p) (c : Chunk) {site : Nat}
    (hsite : ∀ l, c.site? l w.code.size = if label = l then some ⟨src, site, wide⟩ else none) :
    Emits w { w with code := w.code.write (c.render w.labels.position?) } [c] := by
  refine emits_chunk c rfl rfl fun l => ?_
  rw [hsite]
  by_cases hl : label = l
  · subst hl
    simp [hplc]
  · simp [hl]

/-- An offset of four bytes. -/
theorem emits_wide (hlab : label < w.labels.size)
    (h : emitReference label src true w = .ok u w') : Emits w w' [.wide label src] := by
  unfold emitReference at h
  rw [run_get_bind] at h
  cases hplc : w.labels.position? label with
  | some p =>
    rw [hplc] at h
    obtain rfl := run_modify_ok.1 h
    have hchunk := emits_known hplc (.wide label src) fun l => rfl
    rwa [Chunk.render, offsetTo_of_placed hplc] at hchunk
  | none =>
    rw [hplc] at h
    obtain ⟨site, w₁, hpos, h⟩ := run_bind_ok.1 h
    obtain ⟨rfl, rfl⟩ := run_pure_ok.1 hpos
    obtain ⟨_, w₂, hupd, h⟩ := run_bind_ok.1 h
    obtain rfl := run_modify_ok.1 hupd
    obtain rfl := run_modify_ok.1 h
    have hchunk := emits_waiting hlab hplc (.wide label src) fun l => rfl
    rwa [Chunk.render, offsetTo, hplc] at hchunk

/-- A jump with an offset of two bytes. Where it goes is not known yet, or within its range. -/
theorem emits_short {op : Opcode} (hlab : label < w.labels.size)
    (hfits : ∀ p, w.labels.position? label = some p → Widening.fitsShort ((p : Int) - w.code.size) = true)
    (h : (do emit [op]; emitReference label w.code.size false : MethodM Unit) w = .ok u w') :
    Emits w w' [.short op label w.code.size] := by
  obtain ⟨_, w₁, hemit, h⟩ := run_bind_ok.1 h
  obtain rfl := run_modify_ok.1 hemit
  unfold emitReference at h
  rw [run_get_bind] at h
  cases hplc : w.labels.position? label with
  | some p =>
    dsimp only at h
    rw [hplc] at h
    obtain rfl := run_modify_ok.1 h
    have hchunk := emits_known hplc (.short op label w.code.size) fun l => rfl
    rw [Chunk.render, offsetTo_of_placed hplc, Chunk.jump, if_pos (hfits p hplc)] at hchunk
    exact hchunk
  | none =>
    dsimp only at h
    rw [hplc] at h
    obtain ⟨site, w₁, hpos, h⟩ := run_bind_ok.1 h
    obtain ⟨rfl, rfl⟩ := run_pure_ok.1 hpos
    obtain ⟨_, w₂, hupd, h⟩ := run_bind_ok.1 h
    obtain rfl := run_modify_ok.1 hupd
    obtain rfl := run_modify_ok.1 h
    have hchunk := emits_waiting hlab hplc (.short op label w.code.size) fun l => rfl
    rw [Chunk.render, offsetTo, hplc] at hchunk
    rw [show (w.code.write [op]).size = w.code.size + 1 by simp]
    exact hchunk

/-! ### Placing labels -/

/-- A label is placed here, and the offsets that wait for it are filled in. -/
structure Settled (w w' : MethodWriter) (label : Label) : Prop where
  typeset : ∀ {chunks}, Typeset w chunks → Typeset w' chunks
  unplaced : w.labels.position? label = none
  self : w'.labels.position? label = some w.code.size
  others : ∀ l, l ≠ label → w'.labels.position? l = w.labels.position? l
  pool : w'.pool = w.pool

theorem resolve_settled (hlab : label < w.labels.size) (h : resolve label w = .ok u w') : Settled w w' label := by
  unfold resolve at h
  rw [run_get_bind] at h
  split at h
  · cases h
  next hunpl =>
    have hnone : w.labels.position? label = none := by simpa [isPlaced] using hunpl
    obtain rfl := run_modify_ok.1 h
    dsimp only
    generalize hpl : (w.labels.update label fun info =>
      { info with position := some w.code.size, waiting := #[] }) = labels
    have hself : labels.position? label = some w.code.size := by
      rw [← hpl, position?, info_update_self _ _ _ hlab]
    have hinfo : ∀ l, l ≠ label → labels.info l = w.labels.info l := by
      intro l hl
      rw [← hpl, info_update_of_ne _ _ _ _ hl]
    have hothers : ∀ l, l ≠ label → labels.position? l = w.labels.position? l := by
      intro l hl
      rw [position?, hinfo l hl, position?]
    obtain ⟨code, marks, hpatched, -⟩ :=
      MethodWriter.foldl_patchReference w.code.size (w.labels.info label).waiting.toList { w with labels := labels }
    refine ⟨fun {chunks} ht => ?_, hnone, ?_, ?_, ?_⟩
    · -- the offsets that wait are those of the chunks, so that these are rendered anew
      have hcode : ({ w with labels := labels } : MethodWriter).code.toList = [] ++ render w.labels.position? chunks := ht.code
      obtain ⟨code, hpatched, hrendered⟩ := foldl_patchReference hnone hself hothers hcode
      have hlen : code.size = w.code.size := by
        rw [← Array.length_toList, hrendered, List.nil_append, length_render, ht.size_eq]
      rw [ht.waiting label hnone, show (0 : Nat) = ([] : List UInt8).length from rfl, hpatched]
      refine ⟨hrendered, fun l hl => ?_, fun l p hp => ?_, fun hmark => ?_⟩
      · have hne : l ≠ label := by
          rintro rfl
          rw [hself] at hl
          cases hl
        dsimp only
        rw [hinfo l hne]
        exact ht.waiting l (hothers l hne ▸ hl)
      · dsimp only at hp ⊢
        rw [hlen]
        by_cases hl : l = label
        · rw [hl, hself] at hp
          cases hp
          exact Nat.le_refl _
        · exact ht.behind l p (hothers l hl ▸ hp)
      · rcases Bool.or_eq_true_iff.1 hmark with hold | hnew
        · obtain ⟨op, l, src, p, hmem, hp, hfar⟩ := ht.marked hold
          have hne : l ≠ label := by
            rintro rfl
            rw [hnone] at hp
            cases hp
          exact ⟨op, l, src, p, hmem, (hothers l hne).trans hp, hfar⟩
        · obtain ⟨c, hc, hover⟩ := List.any_eq_true.1 hnew
          cases c with
          | bytes bs => cases hover
          | wide l src => cases hover
          | short op l src =>
            obtain ⟨rfl, hfar⟩ : l = label ∧ Widening.fitsShort ((w.code.size : Int) - src) = false := by
              simpa [Chunk.overflows] using hover
            exact ⟨op, l, src, w.code.size, hc, hself, hfar⟩
    · rw [hpatched]
      exact hself
    · rw [hpatched]
      exact hothers
    · rw [hpatched]

/-- A label that the caller places. -/
theorem placeLabel_settled (h : placeLabel label w = .ok u w') :
    ∃ v, Settled w v label ∧ Silent w.labels.size v w' := by
  obtain ⟨_, w₁, hchk, h⟩ := run_bind_ok.1 h
  obtain ⟨hlab, rfl⟩ := checkLabel_ok hchk
  obtain ⟨_, v, hres, h⟩ := run_bind_ok.1 h
  have hsize : w.labels.size ≤ v.labels.size := by
    rcases resolve_cases label w with ⟨-, hrun⟩ | ⟨-, _, _, -, hrun⟩ <;> cases hrun.symm.trans hres
    simp [placed]
  exact ⟨v, resolve_settled hlab hres, tame_head (C := @Stays _ Pool.SameRows) label _ _ _ hsize h⟩

end Typesetting

end JvmAssembler
