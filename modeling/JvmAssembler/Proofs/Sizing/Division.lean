import JvmAssembler.Proofs.Sizing.View

/-!
# JvmAssembler.Proofs.Sizing.Division

How sizing divides a method into blocks.

* `View.Turns` says all that an event does: which edges the current block gets, whether a block starts, and where the next
  event finds itself.
* `View.Tidy` is what holds between events.
-/

namespace JvmAssembler

namespace Sizing

def isCall : MethodEvent Label → Bool
  | .instruction i => i.isCall
  | _ => false

def isReturn : MethodEvent Label → Bool
  | .instruction i => i.isReturn
  | _ => false

namespace View

/-- The current block, and the height relative to that on its entry. -/
def location (v : View) : Option (Label × Int) := v.current.map fun b => (b, v.height)

/-- The largest height in a block so far, relative to that on entry. -/
def peakOf (v : View) (b : Label) : Int := if v.current = some b then v.peak else (v.sized b).peak

/-- The edges that the current block gets by an event. -/
def edgesBy (v : View) : MethodEvent Label → List (HeightEdge × Label)
  | .label l => [(.flow v.height, l)]
  | .instruction i =>
    if i.isCall then [(.call (v.height + 1), i.places.headD 0), (.returnSite v.height, v.fresh)]
    else if i.isReturn then []
    else i.places.map fun l => (.flow (v.height + i.delta), l)
  | _ => []

def startedBy (v : View) : MethodEvent Label → Option Label
  | .code => some v.fresh
  | .label l => some l
  | .instruction i => if i.isCall && v.current.isSome then some v.fresh else none
  | _ => none

/-- Where the next event finds itself. -/
def locationAfter (v : View) (e : MethodEvent Label) : Option (Label × Int) :=
  match v.startedBy e, e with
  | some b, _ => some (b, 0)
  | none, .instruction i => if i.fallsThrough then v.location.map fun at_ => (at_.1, at_.2 + i.delta) else none
  | none, _ => v.location

variable {v v' : View} {e : MethodEvent Label} {i : Instruction Label} {l c : Label}

theorem locationAfter_started {b : Label} (h : v.startedBy e = some b) :
    v.locationAfter e = some (b, 0) := by
  simp [locationAfter, h]

theorem locationAfter_instruction (h : v.startedBy (.instruction i) = none) :
    v.locationAfter (.instruction i) =
      if i.fallsThrough then v.location.map fun at_ => (at_.1, at_.2 + i.delta) else none := by
  simp [locationAfter, h]

theorem locationAfter_other (h : v.startedBy e = none) (hoth : ∀ i, e ≠ .instruction i) : v.locationAfter e = v.location := by
  cases e with
  | instruction i => exact absurd rfl (hoth i)
  | _ => simp [locationAfter, h]

/-- The largest height in a block when some height is reached somewhere. -/
def raised (location : Option (Label × Int)) (b : Label) (peak : Int) : Int :=
  match location with
  | some (c, height) => if c = b then max peak height else peak
  | none => peak

/-- What holds between events. -/
structure Tidy (v : View) : Prop where
  peak : ∀ b, v.current = some b → v.height ≤ v.peak
  declared : v.stage = .declared → v.blocks = [] ∧ v.current = none
  placed : ∀ l, v.placed l = true ↔ l ∈ v.blocks
  blocks : ∀ b ∈ v.blocks, b < v.fresh
  nodup : v.blocks.Nodup
  entered : ∀ b, v.current = some b → b ∈ v.blocks ∧ (v.sized b).calls = false
  untouched : ∀ b, b ∉ v.blocks → v.sized b = {}

/-- What an event does. -/
structure Turns (v : View) (e : MethodEvent Label) (v' : View) : Prop where
  location : v'.location = v.locationAfter e
  blocks : v'.blocks = v.blocks ++ (v.startedBy e).toList
  edges : ∀ b, (v'.sized b).edges.toList =
    (v.sized b).edges.toList ++ if v.current = some b then v.edgesBy e else []
  peaks : ∀ b, v'.peakOf b = raised v'.location b (v.peakOf b)
  returns : ∀ b, (v'.sized b).returnHeight =
    if v.current = some b ∧ isReturn e = true then some v.height else (v.sized b).returnHeight
  calls : ∀ b, (v'.sized b).calls = ((v.sized b).calls || (decide (v.current = some b) && isCall e))
  others : ∀ b, v.current ≠ some b → v'.sized b = v.sized b
  fresh : v.fresh ≤ v'.fresh

/-- An event that no block notices. -/
theorem turns_unnoticed (hv : v.Tidy) (hstarted : v.locationAfter e = v.location)
    (hedges : v.startedBy e = none ∧ v.edgesBy e = [] ∧ isReturn e = false ∧ isCall e = false)
    (hlocation : v'.current = v.current ∧ v'.height = v.height ∧ v'.peak = v.peak)
    (hblks : v'.blocks = v.blocks ∧ v'.sized = v.sized ∧ v.fresh ≤ v'.fresh) : v.Turns e v' := by
  obtain ⟨hcurrent, hht, hpeak⟩ := hlocation
  obtain ⟨hblks, hsz, hfresh⟩ := hblks
  obtain ⟨hnone, hedges, hreturn, hcall⟩ := hedges
  have hsame : v'.location = v.location := by rw [location, location, hcurrent, hht]
  refine ⟨hsame.trans hstarted.symm, by simp [hblks, hnone], fun b => by simp [hsz, hedges], fun b => ?_,
    fun b => by simp [hsz, hreturn], fun b => by simp [hsz, hcall], fun b _ => by rw [hsz], hfresh⟩
  have hpeaks : v'.peakOf b = v.peakOf b := by rw [peakOf, peakOf, hcurrent, hpeak, hsz]
  rw [hpeaks, hsame]
  cases hcur : v.current with
  | none => simp [raised, location, hcur]
  | some c =>
    have hle := hv.peak c hcur
    by_cases hb : c = b
    · simp only [raised, location, hcur, Option.map_some, peakOf, hb, if_true]
      omega
    · simp [raised, location, hcur, hb]

/-- A label that heads no block is not the current one, and nothing is known of it. -/
theorem Tidy.new (hv : v.Tidy) (hl : l ∉ v.blocks) : v.current ≠ some l ∧ v.peakOf l = 0 := by
  have hcurrent : v.current ≠ some l := fun h => hl (hv.entered l h).1
  exact ⟨hcurrent, by rw [peakOf, if_neg hcurrent, hv.untouched l hl]⟩

/-- A block starts where there is none. -/
theorem turns_start (hv : v.Tidy) (hl : l ∉ v.blocks) (hcur : v.current = none) (hstarted : v.startedBy e = some l)
    (hlocation : v'.current = some l ∧ v'.height = 0 ∧ v'.peak = 0)
    (hblks : v'.blocks = v.blocks ++ [l] ∧ v'.sized = v.sized ∧ v.fresh ≤ v'.fresh) : v.Turns e v' := by
  obtain ⟨hcurrent, hht, hzero⟩ := hlocation
  obtain ⟨hblks, hsz, hfresh⟩ := hblks
  obtain ⟨-, hpeak⟩ := hv.new hl
  have hat : v'.location = some (l, 0) := by rw [location, hcurrent, hht]; rfl
  refine ⟨by simp [hat, locationAfter, hstarted], by simp [hblks, hstarted], fun b => by simp [hsz, hcur],
    fun b => ?_, fun b => by simp [hsz, hcur], fun b => by simp [hsz, hcur], fun b _ => by rw [hsz], hfresh⟩
  rw [hat, peakOf, hcurrent, hzero, hsz, raised]
  by_cases hb : l = b
  · subst hb
    simp [hpeak]
  · simp [hb, peakOf, hcur]

/-- An event that the current block notices, and no other. -/
theorem turns_noticed (hcur : v.current = some c) (hlocation : v'.location = v.locationAfter e)
    (hblks : v'.blocks = v.blocks ++ (v.startedBy e).toList ∧ v.fresh ≤ v'.fresh)
    (hpeaks : ∀ b, v'.peakOf b = raised v'.location b (v.peakOf b)) (peak : Int)
    (hsz : ∀ b, v'.sized b = if b = c then
      { edges := (v.sized b).edges ++ (v.edgesBy e).toArray
        peak := peak
        returnHeight := if isReturn e then some v.height else (v.sized b).returnHeight
        calls := (v.sized b).calls || isCall e } else v.sized b) : v.Turns e v' := by
  have hoth : ∀ b, b ≠ c → v'.sized b = v.sized b := fun b hb => (hsz b).trans (if_neg hb)
  refine ⟨hlocation, hblks.1, fun b => ?_, hpeaks, fun b => ?_, fun b => ?_, fun b hb => ?_, hblks.2⟩
  · by_cases hb : c = b
    · simp [← hb, hsz, hcur]
    · simp [hoth b (Ne.symm hb), hcur, hb]
  · by_cases hb : c = b
    · simp [← hb, hsz, hcur]
    · simp [hoth b (Ne.symm hb), hcur, hb]
  · by_cases hb : c = b
    · simp [← hb, hsz, hcur]
    · simp [hoth b (Ne.symm hb), hcur, hb]
  · exact hoth b fun h => hb (h ▸ hcur)

/-- The current block is left, and its largest height becomes known. -/
theorem peaks_left (hcur : v.current = some c) (hleft : v'.current = none)
    (hsz : ∀ b, (v'.sized b).peak = if b = c then v.peak else (v.sized b).peak) (b : Label) :
    v'.peakOf b = raised v'.location b (v.peakOf b) := by
  have hat : v'.location = none := by rw [location, hleft]; rfl
  rw [hat, raised, peakOf, hleft, if_neg nofun, hsz, peakOf, hcur]
  by_cases hb : b = c
  · simp [hb]
  · simp [hb, Ne.symm hb]

/-- A block starts behind the current one. -/
theorem turns_next (hv : v.Tidy) (hl : l ∉ v.blocks)
    (hcur : v.current = some c) (hstarted : v.startedBy e = some l) (hreturn : isReturn e = false)
    (hlocation : v'.current = some l ∧ v'.height = 0 ∧ v'.peak = 0)
    (hblks : v'.blocks = v.blocks ++ [l] ∧ v.fresh ≤ v'.fresh)
    (hsz : ∀ b, v'.sized b =
      if b = c then
        { v.sized b with peak := v.peak, edges := (v.sized b).edges ++ (v.edgesBy e).toArray, calls := isCall e }
      else v.sized b) : v.Turns e v' := by
  obtain ⟨hcurrent, hht, hzero⟩ := hlocation
  obtain ⟨hnew, hpeak⟩ := hv.new hl
  obtain ⟨-, hcalls⟩ := hv.entered c hcur
  have hat : v'.location = some (l, 0) := by rw [location, hcurrent, hht]; rfl
  refine turns_noticed hcur (by simp [hat, locationAfter, hstarted]) (by simpa [hstarted] using hblks) (fun b => ?_)
    v.peak fun b => ?_
  · rw [hat, peakOf, hcurrent, hzero, hsz, raised]
    by_cases hb : l = b
    · subst hb
      simp [hpeak]
    · by_cases hbc : b = c
      · subst hbc
        simp [hb, peakOf, hcur]
      · simp [hb, hbc, peakOf, hcur, Ne.symm hbc]
  · rw [hsz]
    by_cases hb : b = c
    · simp [hb, hreturn, hcalls]
    · simp [hb]

/-- A label starts a block. -/
theorem turns_label (hv : v.Tidy) (hl : l ∉ v.blocks) : v.Turns (.label l) (v.begin l) := by
  cases hcur : v.current with
  | none =>
    have hbegin : v.begin l = (v.place l).enter l := by simp [begin, onCurrent, place, hcur]
    rw [hbegin]
    exact turns_start hv hl hcur rfl ⟨rfl, rfl, rfl⟩ ⟨rfl, rfl, Nat.le_refl _⟩
  | some c =>
    obtain ⟨-, hcalls⟩ := hv.entered c hcur
    refine turns_next hv hl hcur rfl rfl ⟨rfl, rfl, rfl⟩ ?_ fun b => ?_
    · simp [begin, enter, onCurrent, place, hcur]
    · by_cases hb : b = c
      · simp [begin, enter, onCurrent, place, hcur, hb, hcalls, edgesBy, isCall]
      · simp [begin, enter, onCurrent, place, hcur, hb]

/-- The body opens with a block. -/
theorem turns_code (hv : v.Tidy) (hstg : v.stage = .declared) :
    v.Turns .code ({ v with stage := .open, fresh := v.fresh + 1 }.begin v.fresh) := by
  obtain ⟨-, hcur⟩ := hv.declared hstg
  have hnew : v.fresh ∉ v.blocks := fun h => Nat.lt_irrefl _ (hv.blocks _ h)
  refine turns_start hv hnew hcur rfl ⟨rfl, rfl, rfl⟩ ?_
  simp [begin, enter, onCurrent, place, hcur]

/-- A call ends the current block, and the next one is where the subroutine returns to. -/
theorem turns_call (hv : v.Tidy) (hi : i.isCall = true)
    (hcur : v.current = some c) : v.Turns (.instruction i) (v.call (i.places.headD 0)) := by
  have hnew : v.fresh ∉ v.blocks := fun h => Nat.lt_irrefl _ (hv.blocks _ h)
  refine turns_next hv hnew hcur (by simp [startedBy, hi, hcur]) ?_ ⟨rfl, rfl, rfl⟩ ?_ fun b => ?_
  · cases i with
    | jump op target => rfl
    | _ => cases hi
  · simp [call, begin, enter, onCurrent, place, hcur]
  · by_cases hb : b = c
    · simp only [call, begin, enter, onCurrent, place, hcur, hb, edgesBy, isCall, hi, if_true, SizedBlock.mk.injEq, and_true]
      exact Array.ext' (by simp)
    · simp [call, begin, enter, onCurrent, place, hcur, hb]

/-- A return ends the current block. -/
theorem turns_return (hcall : i.isCall = false)
    (hreturn : i.isReturn = true) (hcur : v.current = some c) : v.Turns (.instruction i) v.goBack := by
  have hfalls : i.fallsThrough = false := by
    cases i with
    | var op index => simpa [Instruction.isReturn, Instruction.fallsThrough] using hreturn
    | _ => cases hreturn
  have hat : v.goBack.location = none := rfl
  refine turns_noticed hcur (by simp [hat, locationAfter, startedBy, hcall, hfalls]) ?_
    (peaks_left hcur rfl fun b => ?_) v.peak fun b => ?_
  · simp [goBack, stop, onCurrent, hcur, startedBy, hcall]
  · by_cases hb : b = c <;> simp [goBack, stop, onCurrent, hcur, hb]
  · by_cases hb : b = c <;> simp [goBack, stop, onCurrent, hcur, hb, edgesBy, isReturn, isCall, hcall, hreturn]

/-- Where control does not go on, the stack does not grow. -/
theorem delta_of_not_fallsThrough (h : i.fallsThrough = false) : i.delta ≤ 0 := by
  have hdown (op : Opcode) (hpush : op.effect.use.2 = 0) : (op.effect.use.2 : Int) - op.effect.use.1 ≤ 0 := by omega
  cases i with
  | plain op => exact hdown op ((MethodWriter.use_of_kind op).1 (.inl (by simpa [Instruction.fallsThrough] using h)))
  | jump op target =>
    have hjump : ((op = Opcode.goto ∨ op = Opcode.gotoW) ∨ op = Opcode.jsr) ∨ op = Opcode.jsrW := by
      simpa [Instruction.fallsThrough, or_iff_not_imp_left, and_imp] using h
    refine hdown op ?_
    rcases hjump with (hgoto | hjsr) | hjsr
    · exact (MethodWriter.use_of_kind op).1 (.inr (hgoto.imp_right .inl))
    · exact (MethodWriter.use_of_kind op).2.1 (.inl hjsr)
    · exact (MethodWriter.use_of_kind op).2.1 (.inr hjsr)
  | var op index =>
    have hret : op = Opcode.ret := by simpa [Instruction.fallsThrough] using h
    exact hdown op ((MethodWriter.use_of_kind op).1 (.inr (.inr (.inr hret))))
  | tableSwitch => exact (by decide : (-1 : Int) ≤ 0)
  | lookupSwitch => exact (by decide : (-1 : Int) ≤ 0)
  | _ => cases h

/-- An instruction that neither calls nor returns. -/
theorem turns_plain (hv : v.Tidy) (hcall : i.isCall = false) (hreturn : i.isReturn = false) (hcur : v.current = some c) :
    v.Turns (.instruction i)
      (if i.fallsThrough then (v.grow i.delta).leave i.places else ((v.grow i.delta).leave i.places).stop) := by
  have hnone : v.startedBy (.instruction i) = none := by simp [startedBy, hcall]
  have hedges : v.edgesBy (.instruction i) = i.places.map fun l => (.flow (v.height + i.delta), l) := by
    simp [edgesBy, hcall, hreturn]
  have hle := hv.peak c hcur
  cases hfalls : i.fallsThrough with
  | true =>
    rw [if_pos rfl]
    have hat : ((v.grow i.delta).leave i.places).location = some (c, v.height + i.delta) := by
      simp [leave, grow, onCurrent, location, hcur]
    refine turns_noticed hcur ?_ ?_ (fun b => ?_) (v.sized c).peak fun b => ?_
    · rw [hat]
      simp [locationAfter, hnone, hfalls, location, hcur]
    · simp [leave, grow, onCurrent, hcur, hnone]
    · rw [hat, raised]
      by_cases hb : c = b
      · simp [peakOf, leave, grow, onCurrent, hcur, hb]
      · simp [peakOf, leave, grow, onCurrent, hcur, hb, Ne.symm hb]
    · by_cases hb : b = c <;> simp [leave, grow, onCurrent, hcur, hb, hedges, isReturn, isCall, hcall, hreturn]
  | false =>
    have hdown := delta_of_not_fallsThrough hfalls
    have hpeak : max v.peak (v.height + i.delta) = v.peak := by omega
    rw [if_neg (by simp)]
    have hat : ((v.grow i.delta).leave i.places).stop.location = none := rfl
    refine turns_noticed hcur (by simp [hat, locationAfter, hnone, hfalls]) ?_ (peaks_left hcur rfl fun b => ?_)
      v.peak fun b => ?_
    · simp [stop, leave, grow, onCurrent, hcur, hnone]
    · by_cases hb : b = c <;> simp [stop, leave, grow, onCurrent, hcur, hb, hpeak]
    · by_cases hb : b = c <;>
        simp [stop, leave, grow, onCurrent, hcur, hb, hedges, isReturn, isCall, hcall, hreturn, hpeak]

/-- Nothing happens in dead code. -/
theorem turns_dead (i : Instruction Label) (hcur : v.current = none) : v.Turns (.instruction i) v := by
  have hnone : v.startedBy (.instruction i) = none := by simp [startedBy, hcur]
  have hat : v.location = none := by simp [location, hcur]
  refine ⟨?_, by simp [hnone], fun b => by simp [hcur], fun b => by simp [hat, raised], fun b => by simp [hcur],
    fun b => by simp [hcur], fun b _ => rfl, Nat.le_refl _⟩
  simp [hat, locationAfter, hnone]

/-- **What an event does** to the blocks of a method. -/
theorem event_turns (hv : v.Tidy) (hallowed : v.Allows e) : v.Turns e (v.event e) := by
  cases e with
  | code => exact turns_code hv hallowed
  | label l =>
    obtain ⟨-, -, hunpl⟩ := hallowed
    exact turns_label hv fun hmem => by simp [(hv.placed l).2 hmem] at hunpl
  | instruction i =>
    show v.Turns (.instruction i) (v.instruction i)
    unfold View.instruction execute
    cases hcur : v.current with
    | none => exact turns_dead i hcur
    | some c =>
      rw [if_neg (by simp)]
      cases hcall : i.isCall with
      | true => exact turns_call hv hcall hcur
      | false =>
        cases hreturn : i.isReturn with
        | true => exact turns_return hcall hreturn hcur
        | false => exact turns_plain hv hcall hreturn hcur
  | _ => exact turns_unnoticed hv rfl ⟨rfl, rfl, rfl, rfl⟩ ⟨rfl, rfl, rfl⟩ ⟨rfl, rfl, Nat.le_refl _⟩

theorem rest_begin (v : View) (k : Label) :
    (v.begin k).stage = v.stage ∧ (v.begin k).fresh = v.fresh ∧ (v.begin k).handlers = v.handlers ∧
      (v.begin k).hasSubroutines = v.hasSubroutines ∧ ∀ l, (v.begin k).placed l = (decide (k = l) || v.placed l) := by
  have hsame : ∀ l, (l == k) = decide (k = l) := fun l => by rw [Bool.beq_eq_decide_eq, decide_eq_decide, eq_comm]
  unfold begin enter onCurrent place
  split <;> exact ⟨rfl, rfl, rfl, rfl, fun l => congrArg (· || _) (hsame l)⟩

/-- The handlers that an event gives. -/
@[simp] def handlersBy : MethodEvent Label → List (Handler Label)
  | .tryCatch h => [h]
  | _ => []

/-- The stage, the labels that are made and placed, the handlers, and the calls. -/
theorem event_rest (v : View) (e : MethodEvent Label) :
    (v.Allows e → (v.event e).stage = .open) ∧ (v.event e).handlers = v.handlers ++ handlersBy e ∧
    (v.event e).hasSubroutines = (v.hasSubroutines || (v.current.isSome && isCall e)) ∧
    (∀ l, (v.event e).placed l = (decide (v.startedBy e = some l) || v.placed l)) ∧
    ∀ l, v.startedBy e = some l → v.Allows e → (l = v.fresh ∨ v.placed l = false) ∧ l < (v.event e).fresh := by
  cases e with
  | code => simp [event, rest_begin, isCall, startedBy]
  | label l => simp +contextual [event, rest_begin, isCall, startedBy, Allows]
  | instruction i =>
    cases hcur : v.current with
    | none => simp [event, instruction_of_none hcur, startedBy, hcur, Allows]
    | some c =>
      cases hcall : i.isCall with
      | true => simp [event, View.instruction, execute, call, rest_begin, onCurrent, hcur, isCall, hcall, startedBy, Allows]
      | false =>
        cases hreturn : i.isReturn with
        | true => simp [event, View.instruction, execute, goBack, stop, onCurrent, hcur, isCall, hcall, hreturn, startedBy, Allows]
        | false =>
          cases hfalls : i.fallsThrough <;> simp [event, View.instruction, execute, stop, leave, grow, onCurrent, hcur, isCall,
            hcall, hreturn, hfalls, startedBy, Allows]
  | _ => simp +contextual [event, isCall, startedBy, Allows]

/-- Blocks start at new labels. -/
theorem startedBy_new (hv : v.Tidy) (hallowed : v.Allows e) (hl : v.startedBy e = some l) :
    l ∉ v.blocks ∧ l < (v.event e).fresh := by
  obtain ⟨-, -, -, -, hnew⟩ := v.event_rest e
  obtain ⟨rfl | hunpl, hlt⟩ := hnew l hl hallowed
  · exact ⟨fun hmem => Nat.lt_irrefl _ (hv.blocks _ hmem), hlt⟩
  · exact ⟨fun hmem => by simp [(hv.placed l).2 hmem] at hunpl, hlt⟩

/-- A block that goes on is the one that was current. -/
theorem current_of_locationAfter {b : Label} {height : Int}
    (h : v.locationAfter e = some (b, height)) (hstarted : v.startedBy e ≠ some b) :
    v.current = some b ∧ v.startedBy e = none ∧ isCall e = false := by
  unfold locationAfter at h
  split at h
  next c hc =>
    cases h
    exact absurd hc hstarted
  next i hnone =>
    split at h
    next hfalls =>
      obtain ⟨at_, hat, heq⟩ := Option.map_eq_some_iff.1 h
      obtain ⟨c, hc, rfl⟩ := Option.map_eq_some_iff.1 hat
      cases heq
      refine ⟨hc, hnone, ?_⟩
      cases hcall : i.isCall with
      | false => exact hcall
      | true => simp [startedBy, hcall, hc] at hnone
    next => cases h
  next hoth hnone =>
    obtain ⟨c, hc, heq⟩ := Option.map_eq_some_iff.1 h
    cases heq
    refine ⟨hc, hnone, ?_⟩
    unfold isCall
    split
    next i => exact (hoth i rfl).elim
    next => rfl

theorem Tidy.event (hv : v.Tidy) (hallowed : v.Allows e) : (v.event e).Tidy := by
  have hturns := event_turns hv hallowed
  obtain ⟨hstg, -, -, hpl, -⟩ := v.event_rest e
  have hnew : ∀ l, v.startedBy e = some l → l ∉ v.blocks ∧ l < (v.event e).fresh :=
    fun l hl => startedBy_new hv hallowed hl
  have hmem : ∀ b, b ∈ (v.event e).blocks ↔ b ∈ v.blocks ∨ v.startedBy e = some b := by
    intro b
    simp [hturns.blocks]
  -- the current block is new, or it was current before and this is no call
  have hentered : ∀ b, (v.event e).current = some b →
      v.startedBy e = some b ∨ v.current = some b ∧ v.startedBy e = none ∧ isCall e = false := by
    intro b hb
    have hat : v.locationAfter e = some (b, (v.event e).height) := by
      rw [← hturns.location, location, hb]
      rfl
    by_cases hstarted : v.startedBy e = some b
    · exact .inl hstarted
    · exact .inr (current_of_locationAfter hat hstarted)
  have hblks : ∀ b ∈ (v.event e).blocks, b < (v.event e).fresh := by
    intro b hb
    rcases (hmem b).1 hb with hold | hstarted
    · exact Nat.lt_of_lt_of_le (hv.blocks b hold) hturns.fresh
    · exact (hnew b hstarted).2
  have hcurrent : ∀ b, (v.event e).current = some b → b ∈ (v.event e).blocks := by
    intro b hb
    rcases hentered b hb with hstarted | ⟨hcur, -⟩
    · exact (hmem b).2 (.inr hstarted)
    · exact (hmem b).2 (.inl (hv.entered b hcur).1)
  refine ⟨fun b hb => ?_, fun h => ?_, fun l => ?_, hblks, ?_, fun b hb => ⟨hcurrent b hb, ?_⟩, fun b hb => ?_⟩
  · have hpeak := hturns.peaks b
    rw [peakOf, if_pos hb, location, hb] at hpeak
    simp only [Option.map_some, raised, if_true] at hpeak
    rw [hpeak]
    exact Int.le_max_right _ _
  · rw [hstg hallowed] at h
    cases h
  · rw [hpl, hmem, Bool.or_eq_true, hv.placed, decide_eq_true_iff, or_comm]
  · rw [hturns.blocks]
    cases hstarted : v.startedBy e with
    | none => simpa using hv.nodup
    | some l =>
      refine List.nodup_append.2 ⟨hv.nodup, by simp, fun a ha b hb => ?_⟩
      have hbl : b = l := by simpa using hb
      rintro rfl
      exact (hnew a (hbl ▸ hstarted)).1 ha
  · rw [hturns.calls]
    rcases hentered b hb with hstarted | ⟨hcur, -, hcall⟩
    · have hcur : v.current ≠ some b := fun h => (hnew b hstarted).1 (hv.entered b h).1
      simp [hv.untouched b (hnew b hstarted).1, hcur]
    · simp [(hv.entered b hcur).2, hcall]
  · have hold : b ∉ v.blocks := fun h => hb ((hmem b).2 (.inl h))
    rw [hturns.others b fun h => hold (hv.entered b h).1]
    exact hv.untouched b hold

end View

end Sizing

end JvmAssembler
