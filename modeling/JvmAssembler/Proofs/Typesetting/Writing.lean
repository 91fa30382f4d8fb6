import JvmAssembler.Proofs.Instructions
import JvmAssembler.Proofs.Typesetting.Steps

/-!
# JvmAssembler.Proofs.Typesetting.Writing

The chunks of an instruction, whatever is computed.

An instruction without labels is a function of its operands and of the rows of the pool (`plainBytes`). Jumps and switches
refer to labels; their chunks are listed by `Form`.
-/

namespace JvmAssembler

open Success

namespace Typesetting

open Bytes MethodWriter

/-! ### The bytes of instructions -/

/-- The bytes between the opcode of a switch and its operands, which are aligned. -/
def padding (position : Nat) : List UInt8 := List.replicate ((4 - (position + 1) % 4) % 4) 0

/-- The chunks of an instruction, whose bytes are given if it has no labels. Which ones a jump has depends on where its label
is, as far as that is known. -/
inductive Form (place : Label → Option Nat) (position : Nat) (bs : List UInt8) : Instruction Label → List Chunk → Prop
  | plain {i : Instruction Label} (hi : hasLabels i = false) : Form place position bs i [.bytes bs]
  | jump {op : Opcode} {label : Label} (hop : op.isShortJump = true)
      (hnear : ∀ p : Nat, place label = some p → -32768 ≤ (p : Int) - position) :
      Form place position bs (.jump op label) [.short op label position]
  | wideJump {op : Opcode} {label : Label} (hop : op = Opcode.gotoW ∨ op = Opcode.jsrW) :
      Form place position bs (.jump op label) [.bytes [op], .wide label position]
  | farJump {op op' : Opcode} {label : Label} {p : Nat}
      (hop : op = Opcode.goto ∧ op' = Opcode.gotoW ∨ op = Opcode.jsr ∧ op' = Opcode.jsrW)
      (hp : place label = some p) (hfar : (p : Int) - position < -32768) :
      Form place position bs (.jump op label) [.bytes [op'], .wide label position]
  | farCondition {op : Opcode} {label : Label} {p : Nat} (hop : op.isShortJump = true)
      (hcond : op ≠ Opcode.goto ∧ op ≠ Opcode.jsr) (hp : place label = some p)
      (hfar : (p : Int) - position < -32768) :
      Form place position bs (.jump op label)
        [.bytes (op.invert :: u2 8), .bytes [Opcode.gotoW], .wide label (position + 3)]
  | tableSwitch {low high : Int32} {fallback : Label} {targets : List Label} :
      Form place position bs (.tableSwitch low high fallback targets)
        ([.bytes [Opcode.tableSwitch], .bytes (padding position), .wide fallback position,
          .bytes (i4 low.toInt ++ i4 high.toInt)] ++ targets.map (.wide · position))
  | lookupSwitch {fallback : Label} {keys : List Int32} {targets : List Label} :
      Form place position bs (.lookupSwitch fallback keys targets)
        ([.bytes [Opcode.lookupSwitch], .bytes (padding position), .wide fallback position,
          .bytes (i4 keys.length)] ++
          (keys.zip targets).flatMap fun pair => [.bytes (i4 pair.1.toInt), .wide pair.2 position])

section
variable {place : Label → Option Nat} {position : Nat} {bs : List UInt8} {i : Instruction Label} {chunks : List Chunk}

/-- Chunks stay as they are when more labels are placed, further on. -/
theorem Form.later {place' : Label → Option Nat} (h : Form place position bs i chunks)
    (hkept : ∀ l p, place l = some p → place' l = some p)
    (hnew : ∀ l p, place' l = some p → place l = some p ∨ position ≤ p) : Form place' position bs i chunks := by
  cases h with
  | plain hi => exact .plain hi
  | @jump op label hop hnear =>
    refine .jump hop fun p hp => ?_
    rcases hnew label p hp with hold | hle
    · exact hnear p hold
    · omega
  | wideJump hop => exact .wideJump hop
  | farJump hop hp hfar => exact .farJump hop (hkept _ _ hp) hfar
  | farCondition hop hcond hp hfar => exact .farCondition hop hcond (hkept _ _ hp) hfar
  | tableSwitch => exact .tableSwitch
  | lookupSwitch => exact .lookupSwitch

/-- A jump with an offset of two bytes is that of a short jump. -/
theorem Form.of_short (h : Form place position bs i chunks) {op : Opcode} {l : Label} {source : Nat}
    (hmem : .short op l source ∈ chunks) : op.isShortJump = true ∧ i = .jump op l ∧ source = position := by
  cases h with
  | @jump op' l' hop hnear =>
    obtain ⟨rfl, rfl, rfl⟩ : op = op' ∧ l = l' ∧ source = position := by simpa using hmem
    exact ⟨hop, rfl, rfl⟩
  | _ => simp at hmem

/-- Every label of an instruction is that of a chunk. -/
theorem Form.label (h : Form place position bs i chunks) (hi : Valid i) {l : Label} (hl : l ∈ i.places) : ∃ c ∈ chunks, c.label? = some l := by
  cases h with
  | plain hpln =>
    cases i with
    | jump | tableSwitch | lookupSwitch => cases hpln
    | _ => cases hl
  | jump | wideJump | farJump | farCondition =>
    obtain rfl : l = _ := by simpa [Instruction.places] using hl
    simp [Chunk.label?]
  | @tableSwitch low high dflt targets =>
    rcases List.mem_cons.1 hl with rfl | hl
    · exact ⟨.wide l position, by simp, rfl⟩
    · exact ⟨.wide l position, by simp [hl], rfl⟩
  | @lookupSwitch dflt keys targets =>
    rcases List.mem_cons.1 hl with rfl | hl
    · exact ⟨.wide l position, by simp, rfl⟩
    · obtain ⟨hcnt, -⟩ := hi
      have hzip : ((keys.zip targets).map Prod.snd) = targets := List.map_snd_zip (Nat.le_of_eq hcnt.symm)
      rw [← hzip] at hl
      obtain ⟨pair, hpair, rfl⟩ := List.mem_map.1 hl
      refine ⟨.wide pair.2 position, List.mem_append_right _ (List.mem_flatMap.2 ⟨pair, hpair, by simp⟩), rfl⟩

end

/-! ### Writing -/

/-- Labels are placed within the code. -/
def Behind (w : MethodWriter) : Prop := ∀ l p, w.labels.position? l = some p → p ≤ w.code.size

theorem Behind.quiet {n : Nat} {R : Pool → Pool → Prop} {w w' : MethodWriter} (hw : Behind w) (h : Quiet n R w w') :
    Behind w' := by
  intro l p hp
  rw [h.code]
  rcases h.places l with heq | ⟨-, -, -, hpl⟩
  · exact hw l p (heq ▸ hp)
  · rw [hpl] at hp
    cases hp
    exact Nat.le_refl _

def Written (n : Nat) (w : MethodWriter) (new : List Chunk) (w' : MethodWriter) : Prop :=
  ∃ u v, Silent n w u ∧ Emits u v new ∧ Silent n v w'

/-- Steps that write chunks, which depend on the position. -/
def Writes {α : Type} (n : Nat) (m : MethodM α) (new : Nat → List Chunk) : Prop :=
  ∀ w a w', n ≤ w.labels.size → Behind w → m w = .ok a w' → Written n w (new w.code.size) w'

section
variable {α β : Type} {n : Nat} {new : Nat → List Chunk}

variable {x : MethodM α} {k : α → MethodM β}

theorem writes_emit (bs : List UInt8) : Writes n (emit bs) fun _ => [.bytes bs] := by
  intro w u w' _ _ h
  exact ⟨w, w', Std.Refl.refl _, emits_emit h, Std.Refl.refl _⟩

/-- Something silent comes first. -/
theorem Writes.after (hx : Stays n Pool.SameRows x) (hk : ∀ a, Writes n (k a) new) :
    Writes n (x >>= k) new := by
  intro w b w' hn hw h
  obtain ⟨a, w₁, hfst, hrest⟩ := run_bind_ok.1 h
  have hquiet := hx w a w₁ hn hfst
  obtain ⟨u, v, hbef, hem, haft⟩ := hk a w₁ b w' (Nat.le_trans hn hquiet.size) (hw.quiet hquiet) hrest
  rw [hquiet.code] at hem
  exact ⟨u, v, hquiet.trans hbef, hem, haft⟩

/-- Something silent comes last. -/
theorem Writes.before (hx : Writes n x new) (hk : ∀ a, Stays n Pool.SameRows (k a)) :
    Writes n (x >>= k) new := by
  intro w b w' hn hw h
  obtain ⟨a, w₁, hfst, hrest⟩ := run_bind_ok.1 h
  obtain ⟨u, v, hbef, hem, haft⟩ := hx w a w₁ hn hw hfst
  have hsize : n ≤ w₁.labels.size :=
    Nat.le_trans (Nat.le_trans hn hbef.size) (Nat.le_trans (Nat.le_of_eq hem.labels.symm) haft.size)
  exact ⟨u, v, hbef, hem, haft.trans (hk a w₁ b w' hsize hrest)⟩

end

/-! ### Instructions without labels -/

section
variable {w w' : MethodWriter} {u : Unit}

/-- What writing an instruction comes to: its constants are put into the pool, and then its chunks are written. -/
def Sets (i : Instruction Label) (w w' : MethodWriter) : Prop :=
  Valid i ∧ ∃ bs pool new, plainBytes i w.pool = .ok bs pool ∧ Form w.labels.position? w.code.size bs i new ∧
    Written w.labels.size { w with pool := pool } new w'

variable {pool : Pool} {m : MemberRef} {index : UInt16} {name : String} {base : Opcode} {rest : MethodM Unit}

variable {op : Opcode} {label dflt : Label} {next : Option Label} {source : Nat} {targets : List Label}

theorem writePlain_sets {i : Instruction Label} (hi : hasLabels i = false) (hw : Behind w) (h : write i w = .ok u w') :
    Sets i w w' := by
  obtain ⟨hvld, bs, pool, hbs, h⟩ := write_plain_ok hi h
  have hwrites : Writes w.labels.size (writeBytes i bs) fun _ => [.bytes bs] :=
    .after (tame_account i) fun _ => .before (writes_emit bs) fun _ => tame_conclude i
  exact ⟨hvld, bs, pool, _, hbs, .plain hi, hwrites _ _ _ (Nat.le_refl _) hw h⟩

/-! ### Jumps -/

/-- Recording a jump may make a label, for the next instruction. -/
theorem recordJump_ok {n : Nat} (hn : n ≤ w.labels.size) (h : recordJump op base label w = .ok next w') :
    Silent n w w' ∧ ∀ l, next = some l → n ≤ l ∧ (w'.labels.info l).waiting = #[] := by
  have hquiet : Silent n w w' := tame_recordJump (C := @Stays n Pool.SameRows) op base label w next w' hn h
  suffices hmade : ∀ l, next = some l → w.labels.size ≤ l from
    ⟨hquiet, fun l hl => ⟨Nat.le_trans hn (hmade l hl), by rw [hquiet.waiting, LabelTable.info_of_size_le _ _ (hmade l hl)]⟩⟩
  rintro l rfl
  -- other steps come first
  have hnew : ∀ {v : MethodWriter}, w.labels.size ≤ v.labels.size → (do return some (← newLabel) : MethodM (Option Label)) v = .ok (some l) w' →
      w.labels.size ≤ l := by
    intro v hbef hrun
    obtain ⟨made, v₁, hmade, hrun⟩ := run_bind_ok.1 hrun
    obtain ⟨heq, -⟩ := run_pure_ok.1 hrun
    cases heq
    obtain ⟨rfl, -⟩ := newLabel_ok hmade
    exact hbef
  unfold recordJump at h
  rw [run_get_bind] at h
  cases hcomp : w.compute <;> cases hcur : w.current <;> rw [hcomp, hcur] at h
  case frames.some block =>
    obtain ⟨_, w₁, hintr, h⟩ := run_bind_ok.1 h
    obtain ⟨_, w₂, hedge, h⟩ := run_bind_ok.1 h
    split at h
    · cases h
    · obtain rfl := run_modify_ok.1 hedge
      refine hnew (Nat.le_trans (stays_interpret _ _ _ _ _ _ hn hintr).size ?_) h
      simp [LabelTable.addTypeEdge, LabelTable.markTarget]
  case maxs.some block =>
    dsimp only at h
    split at h
    · obtain ⟨_, w₁, hedge, h⟩ := run_bind_ok.1 h
      obtain ⟨_, w₂, hcalls, h⟩ := run_bind_ok.1 h
      obtain rfl := run_modify_ok.1 hedge
      obtain rfl := run_modify_ok.1 hcalls
      exact hnew (by simp [LabelTable.addHeightEdge]) h
    · obtain ⟨_, w₁, -, h⟩ := run_bind_ok.1 h
      obtain ⟨_, w₂, -, h⟩ := run_bind_ok.1 h
      cases h
  all_goals cases h

/-- Some bytes and an offset of four bytes. -/
theorem emits_bytes_wide {bs : List UInt8} (hlab : label < w.labels.size)
    (h : (do emit bs; emitReference label source true) w = .ok u w') : Emits w w' [.bytes bs, .wide label source] := by
  obtain ⟨_, w₁, hemit, h⟩ := run_bind_ok.1 h
  have hem := emits_emit hemit
  exact hem.trans (emits_wide (by rw [hem.labels]; exact hlab) h)

/-- A jump in one of its forms. Before the long form of a condition, the next instruction becomes a target. -/
theorem emitJump_ok {wide : Bool} {n : Nat} (hw : Behind w)
    (hform : jumpForm? op = some (base, wide)) (hlab : label < w.labels.size)
    (h : emitJump op base wide label next w = .ok u w') :
    ∃ v new, Form w.labels.position? w.code.size [] (.jump op label) new ∧ Silent n w v ∧ Emits v w' new := by
  rw [emitJump, run_bind_of_ok (run_position w), run_get_bind] at h
  dsimp only at h
  rcases jumpForm_cases hform with ⟨rfl, hop⟩ | ⟨rfl, rfl, hop⟩
  · rw [if_pos rfl] at h
    exact ⟨w, _, .wideJump hop, Std.Refl.refl _, emits_bytes_wide hlab h⟩
  · rw [if_neg (by simp)] at h
    cases hplc : w.labels.position? label with
    | none =>
      rw [hplc, if_pos (by simp)] at h
      have hnone : ∀ p, w.labels.position? label ≠ some p := by
        rw [hplc]
        exact nofun
      exact ⟨w, _, .jump hop fun p hp => absurd hp (hnone p), Std.Refl.refl _,
        emits_short hlab (fun p hp => absurd hp (hnone p)) h⟩
    | some p =>
      have hle := hw label p hplc
      rw [hplc] at h
      by_cases hfar : (p : Int) - w.code.size < -32768
      · have hisFar : (!decide ((p : Int) - w.code.size < -32768)) = false := by rw [decide_eq_true hfar]; rfl
        rw [if_neg (ne_true_of_eq_false hisFar)] at h
        by_cases hgoto : base = Opcode.goto
        · rw [if_pos hgoto] at h
          exact ⟨w, _, .farJump (.inl ⟨hgoto, rfl⟩) hplc hfar, Std.Refl.refl _, emits_bytes_wide hlab h⟩
        · rw [if_neg hgoto] at h
          by_cases hjsr : base = Opcode.jsr
          · rw [if_pos hjsr] at h
            exact ⟨w, _, .farJump (.inr ⟨hjsr, rfl⟩) hplc hfar, Std.Refl.refl _, emits_bytes_wide hlab h⟩
          · rw [if_neg hjsr] at h
            have hlong : ∀ {v : MethodWriter}, Silent n w v → label < v.labels.size → (do
                emitShort base.invert 8
                emit [Opcode.gotoW]
                emitReference label (w.code.size + 3) true : MethodM Unit) v = .ok u w' →
                ∃ v new, Form w.labels.position? w.code.size [] (.jump base label) new ∧ Silent n w v ∧ Emits v w' new := by
              intro v hquiet hkn hrun
              obtain ⟨_, w₁, hemit, hrun⟩ := run_bind_ok.1 hrun
              have hem : Emits v w₁ [.bytes (base.invert :: u2 8)] := emits_emit hemit
              have hrest := emits_bytes_wide (by rw [hem.labels]; exact hkn) hrun
              exact ⟨v, _, .farCondition hop ⟨hgoto, hjsr⟩ hplc hfar, hquiet, hem.trans hrest⟩
            cases next with
            | none => exact hlong (Std.Refl.refl _) hlab h
            | some l =>
              obtain ⟨_, v, htgt, hrun⟩ := run_bind_ok.1 h
              have hquiet : Silent n w v := by
                obtain rfl := run_modify_ok.1 htgt
                exact quiet_recorded rfl ⟨rfl, rfl⟩ (.markTarget _ _)
              exact hlong hquiet (Nat.lt_of_lt_of_le hlab hquiet.size) hrun
      · have hisNear : (!decide ((p : Int) - w.code.size < -32768)) = true := by rw [decide_eq_false hfar]; rfl
        rw [if_pos hisNear] at h
        refine ⟨w, _, .jump hop fun q hq => ?_, Std.Refl.refl _, emits_short hlab (fun q hq => ?_) h⟩ <;>
          cases hplc.symm.trans hq
        · omega
        simp only [Widening.fitsShort, Bool.and_eq_true, decide_eq_true_iff]
        omega

/-- What follows a jump. The label that it made is placed, and no one waits for it. -/
theorem silent_next {n : Nat} (hrest : Stays n Pool.SameRows rest) (hn : n ≤ w.labels.size) (h : (match next with
      | some next => do placeLabel next; rest
      | none => rest : MethodM Unit) w = .ok u w')
    (hnext : ∀ l, next = some l → n ≤ l ∧ (w.labels.info l).waiting = #[]) : Silent n w w' := by
  cases next with
  | none => exact hrest _ _ _ hn h
  | some l =>
    obtain ⟨hl, hwait⟩ := hnext l rfl
    obtain ⟨_, w₁, hplc, h⟩ := run_bind_ok.1 h
    have hpl := silent_placeLabel hl hwait hplc
    exact hpl.trans (hrest _ _ _ (Nat.le_trans hn hpl.size) h)

/-- Only the label of a jump matters. -/
theorem Form.congr_jump {place place' : Label → Option Nat} {position : Nat} {bs : List UInt8}
    {chunks : List Chunk} (h : Form place position bs (.jump op label) chunks) (hplc : place' label = place label) :
    Form place' position bs (.jump op label) chunks := by
  cases h with
  | plain hi => cases hi
  | jump hop hnear => exact .jump hop fun p hp => hnear p (hplc ▸ hp)
  | wideJump hop => exact .wideJump hop
  | farJump hop hp hfar => exact .farJump hop (hplc.trans hp) hfar
  | farCondition hop hcond hp hfar => exact .farCondition hop hcond (hplc.trans hp) hfar

/-- A jump refers to no other label than its own. -/
theorem Form.label_jump {place : Label → Option Nat} {position : Nat} {bs : List UInt8}
    {chunks : List Chunk} (h : Form place position bs (.jump op label) chunks) {c : Chunk} (hc : c ∈ chunks) {l : Label} (hl : c.label? = some l) :
    l = label := by
  cases h with
  | plain hi => cases hi
  | jump | wideJump | farJump | farCondition =>
    simp only [List.mem_cons, List.not_mem_nil, or_false] at hc
    rcases hc with rfl | rfl | rfl <;> simp_all [Chunk.label?]

theorem writeJump_sets (hw : Behind w) (h : writeJump op label w = .ok u w') :
    Sets (.jump op label) w w' := by
  obtain ⟨base, wide, next, w₁, w₂, hlab, hform, -, hrec, hemit, h⟩ := writeJump_ok h
  obtain ⟨hquiet, hnext⟩ := recordJump_ok (Nat.le_refl w.labels.size) hrec
  have hkn : label < w₁.labels.size := Nat.lt_of_lt_of_le hlab hquiet.size
  obtain ⟨v, new, hnew, hquiet', hem⟩ := emitJump_ok (n := w.labels.size) (hw.quiet hquiet) hform hkn hemit
  rw [hquiet.code] at hnew
  have hsame : w.labels.position? label = w₁.labels.position? label :=
    ((hquiet.places label).resolve_right fun hpl => Nat.not_lt.2 hpl.1 hlab).symm
  have hvld : Valid (.jump op label) := by
    show jumpForm? op ≠ none
    rw [hform]
    nofun
  have hnext' : ∀ l, next = some l → w.labels.size ≤ l ∧ (w₂.labels.info l).waiting = #[] := by
    intro l hl
    obtain ⟨hle, hwait⟩ := hnext l hl
    refine ⟨hle, ?_⟩
    rw [hem.waiting l, hquiet'.waiting l, hwait]
    intro c hc hself
    rw [hnew.label_jump hc hself] at hle
    exact Nat.not_lt.2 hle hlab
  refine ⟨hvld, [], w.pool, new, rfl, hnew.congr_jump hsame, v, w₂, hquiet.trans hquiet', hem, ?_⟩
  have hsize : w.labels.size ≤ w₂.labels.size := by
    rw [hem.labels]
    exact (hquiet.trans hquiet').size
  split at h
  · exact silent_next (Steps.ite Dividing.endBlock (Steps.pure _)) hsize h hnext'
  · obtain ⟨-, rfl⟩ := run_pure_ok.1 h
    exact Std.Refl.refl _

/-! ### Switches -/

theorem emits_references {labels : List Label} (hlabs : ∀ l ∈ labels, l < w.labels.size)
    (h : emitReferences source labels w = .ok u w') : Emits w w' (labels.map (.wide · source)) := by
  induction labels generalizing w with
  | nil =>
    obtain ⟨-, rfl⟩ := run_pure_ok.1 h
    exact emits_nil
  | cons l labels ih =>
    obtain ⟨_, w₁, hfst, h⟩ := run_bind_ok.1 h
    have hem := emits_wide (hlabs l List.mem_cons_self) hfst
    refine hem.trans (ih (fun l' hl' => ?_) h)
    rw [hem.labels]
    exact hlabs l' (List.mem_cons_of_mem _ hl')

theorem emits_pairs {pairs : List (Int32 × Label)} (hlabs : ∀ pair ∈ pairs, pair.2 < w.labels.size)
    (h : emitPairs source pairs w = .ok u w') :
    Emits w w' (pairs.flatMap fun pair => [.bytes (i4 pair.1.toInt), .wide pair.2 source]) := by
  induction pairs generalizing w with
  | nil =>
    obtain ⟨-, rfl⟩ := run_pure_ok.1 h
    exact emits_nil
  | cons pair pairs ih =>
    obtain ⟨_, w₁, hkey, h⟩ := run_bind_ok.1 h
    have hem := emits_emit hkey
    obtain ⟨_, w₂, hoff, h⟩ := run_bind_ok.1 h
    have hem' := emits_wide (by rw [hem.labels]; exact hlabs pair List.mem_cons_self) hoff
    refine (hem.trans hem').trans (ih (fun pair' hpair' => ?_) h)
    rw [(hem.trans hem').labels]
    exact hlabs pair' (List.mem_cons_of_mem _ hpair')

theorem emits_switch (h : emitSwitch op w = .ok u w') :
    Emits w w' [.bytes [op], .bytes (padding w.code.size)] := by
  obtain ⟨_, w₁, hop, h⟩ := run_bind_ok.1 h
  have hem := emits_emit hop
  rw [run_bind_of_ok (run_position w₁), hem.size] at h
  exact hem.trans (emits_emit h)

/-- What tables have in common: an aligned offset of the fallback, some bytes, the rest of the table, and the record of
the targets. -/
theorem writes_table {bs : List UInt8} {new : List Chunk} (hlab : dflt < w.labels.size)
    (hrest : ∀ {v v' : MethodWriter} {u : Unit}, v.labels.size = w.labels.size → rest v = .ok u v' → Emits v v' new)
    (h : (do
      emitSwitch op
      emitReference dflt w.code.size true
      emit bs
      rest
      recordSwitch targets) w = .ok u w') :
    Written w.labels.size w
      ([.bytes [op], .bytes (padding w.code.size), .wide dflt w.code.size, .bytes bs] ++ new) w' := by
  obtain ⟨_, w₁, hop, h⟩ := run_bind_ok.1 h
  have hem₁ := emits_switch hop
  obtain ⟨_, w₂, hoff, h⟩ := run_bind_ok.1 h
  have hem₂ := hem₁.trans (emits_wide (by rw [hem₁.labels]; exact hlab) hoff)
  obtain ⟨_, w₃, hemit, h⟩ := run_bind_ok.1 h
  have hem₃ := hem₂.trans (emits_emit hemit)
  obtain ⟨_, w₄, htable, h⟩ := run_bind_ok.1 h
  have hem := hem₃.trans (hrest hem₃.labels htable)
  exact ⟨w, w₄, Std.Refl.refl _, hem, tame_recordSwitch (C := @Stays _ Pool.SameRows) targets _ _ _ (Nat.le_of_eq hem.labels.symm) h⟩

theorem writeTableSwitch_sets {low high : Int32} (h : writeTableSwitch low.toInt high.toInt dflt targets w = .ok u w') :
    Sets (.tableSwitch low high dflt targets) w w' := by
  unfold writeTableSwitch at h
  split at h
  · cases h
  next hbnd =>
    dsimp only at h
    obtain ⟨_, w₁, hchk, h⟩ := run_bind_ok.1 h
    obtain ⟨hlabs, rfl⟩ := checkLabels_ok hchk
    obtain ⟨hfb, htgts⟩ := List.forall_mem_cons.1 hlabs
    rw [run_bind_of_ok (run_position w)] at h
    have hvld : Valid (.tableSwitch low high dflt targets) := ⟨by omega, by omega⟩
    refine ⟨hvld, [], w.pool, _, rfl, .tableSwitch, writes_table hfb (fun hsize hrun => ?_) h⟩
    exact emits_references (fun l hl => by rw [hsize]; exact htgts l hl) hrun

theorem writeLookupSwitch_sets {keys : List Int32}
    (h : writeLookupSwitch dflt keys targets w = .ok u w') : Sets (.lookupSwitch dflt keys targets) w w' := by
  unfold writeLookupSwitch at h
  split at h
  · cases h
  next hcnt =>
    dsimp only at h
    split at h
    · cases h
    next hinc =>
      obtain ⟨_, w₁, hchk, h⟩ := run_bind_ok.1 h
      obtain ⟨hlabs, rfl⟩ := checkLabels_ok hchk
      obtain ⟨hfb, htgts⟩ := List.forall_mem_cons.1 hlabs
      rw [run_bind_of_ok (run_position w)] at h
      have hvld : Valid (.lookupSwitch dflt keys targets) :=
        ⟨Decidable.of_not_not hcnt, by simpa using hinc⟩
      refine ⟨hvld, [], w.pool, _, rfl, .lookupSwitch, writes_table hfb (fun hsize hrun => ?_) h⟩
      exact emits_pairs (fun pair hpair => by rw [hsize]; exact htgts _ (List.of_mem_zip hpair).2) hrun

/-! ### All instructions -/

/-- **Writing an instruction** puts its constants into the pool, and appends its chunks. -/
theorem write_sets {i : Instruction Label} (hw : Behind w) (h : write i w = .ok u w') : Sets i w w' := by
  cases i with
  | jump op target => exact writeJump_sets hw h
  | tableSwitch low high dflt targets => exact writeTableSwitch_sets h
  | lookupSwitch dflt keys targets => exact writeLookupSwitch_sets h
  | _ => exact writePlain_sets rfl hw h

end

end Typesetting

end JvmAssembler
