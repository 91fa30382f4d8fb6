import JvmAssembler.Handler
import Mathlib.Logic.Basic

/-!
# JvmAssembler.Proofs.Handler

Cutting a range out of an exception table. What is caught at a position is the list of the handlers that cover it, in their
order. Cutting leaves nothing at the positions of the range and the same list everywhere else (`remove_covering`).
-/

namespace JvmAssembler

namespace Handler

variable {L : Type} {position : L → UInt32} {start : L} {stop : Option L} {x : Nat}

def Covers (position : L → UInt32) (x : Nat) (h : Handler L) : Prop :=
  (position h.start).toNat ≤ x ∧ x < (position h.stop).toNat

instance : DecidablePred (Covers position x) := fun _ => inferInstanceAs (Decidable (_ ∧ _))

/-- Where control goes from a position of the code, and for which classes. The first one that fits wins. -/
def covering (position : L → UInt32) (handlers : List (Handler L)) (x : Nat) : List (L × Option String) :=
  (handlers.filter (Covers position x)).map fun h => (h.handler, h.catchType)

/-- A position lies in a range. One without a stop reaches to the end of the code. -/
def InRange (position : L → UInt32) (start : L) : Option L → Nat → Prop
  | none, x => (position start).toNat ≤ x
  | some last, x => (position start).toNat ≤ x ∧ x < (position last).toNat

instance : ∀ stop, Decidable (InRange position start stop x)
  | none => inferInstanceAs (Decidable (_ ≤ _))
  | some _ => inferInstanceAs (Decidable (_ ∧ _))

theorem covering_append (handlers handlers' : List (Handler L)) :
    covering position (handlers ++ handlers') x = covering position handlers x ++ covering position handlers' x := by
  simp [covering]

theorem covering_singleton (h : Handler L) :
    covering position [h] x = if Covers position x h then [(h.handler, h.catchType)] else [] := by
  by_cases hcovers : Covers position x h <;> simp [covering, hcovers]

theorem covering_cons (h : Handler L) (handlers : List (Handler L)) : covering position (h :: handlers) x =
    (if Covers position x h then [(h.handler, h.catchType)] else []) ++ covering position handlers x := by
  rw [← covering_singleton, ← covering_append, List.singleton_append]

/-- A part of a handler is left if it has positions to protect. -/
theorem covering_part (first last target : L) (catchType : Option String) :
    covering position (if (position first).toNat < (position last).toNat then [⟨first, last, target, catchType⟩] else [])
      x = if (position first).toNat ≤ x ∧ x < (position last).toNat then [(target, catchType)] else [] := by
  split
  · exact covering_singleton _
  · rw [if_neg (by omega)]
    rfl

/-- Of a handler that a range is cut out of, the part outside of the range is left. -/
theorem covering_cut (hordered : ∀ last, stop = some last → position start < position last) (h : Handler L) :
    covering position (cut (fun l => (position l).toNat) start stop h) x =
      if Covers position x h ∧ ¬ InRange position start stop x then [(h.handler, h.catchType)] else [] := by
  have hend : (position h.stop).toNat ≤ endOfCode := Nat.le_of_lt_succ (position h.stop).toNat_lt
  unfold cut
  dsimp only
  cases stop with
  | none =>
    dsimp only [Option.map_none, Option.getD_none]
    split
    · rw [covering_singleton]
      exact if_congr (by unfold Covers InRange; omega) rfl rfl
    · rw [List.append_nil, covering_part]
      exact if_congr (by unfold Covers InRange; omega) rfl rfl
  | some last =>
    have hlt := UInt32.lt_iff_toNat_lt.1 (hordered last rfl)
    dsimp only [Option.map_some, Option.getD_some]
    split
    · rw [covering_singleton]
      exact if_congr (by unfold Covers InRange; omega) rfl rfl
    · rw [covering_append, covering_part, covering_part]
      by_cases hbef : x < (position start).toNat
      · rw [if_neg (show ¬ ((position last).toNat ≤ x ∧ _) by omega), List.append_nil]
        exact if_congr (by unfold Covers InRange; omega) rfl rfl
      · rw [if_neg (show ¬ (_ ∧ x < (position start).toNat) by omega), List.nil_append]
        exact if_congr (by unfold Covers InRange; omega) rfl rfl

/-- A handler with positions to protect leaves only handlers with positions to protect. -/
theorem cut_nonempty (hordered : ∀ last, stop = some last → position start < position last) {h k : Handler L}
    (hh : position h.start < position h.stop) (hk : k ∈ cut (fun l => (position l).toNat) start stop h) :
    position k.start < position k.stop := by
  unfold cut at hk
  dsimp only at hk
  split at hk
  · rwa [List.mem_singleton.1 hk]
  · rcases List.mem_append.1 hk with hk | hk
    · split at hk
      next hlt =>
        rw [List.mem_singleton.1 hk]
        exact UInt32.lt_iff_toNat_lt.2 hlt
      next => cases hk
    · split at hk
      next last _ =>
        split at hk
        next hlt =>
          rw [List.mem_singleton.1 hk]
          exact UInt32.lt_iff_toNat_lt.2 hlt
        next => cases hk
      next => cases hk

/-- **Excising a range.** After a range is cut out of an exception table, no handler covers a position of the range, and
every other position is covered by the same handlers for the same classes in the same order, so that the first one is the
same. What is left of a handler with positions to protect has positions to protect. -/
theorem remove_covering (position : L → UInt32) (start : L) (stop : Option L)
    (hordered : ∀ last, stop = some last → position start < position last) (handlers : List (Handler L)) :
    (∀ x, covering position (remove (fun l => (position l).toNat) start stop handlers) x =
      if InRange position start stop x then [] else covering position handlers x) ∧
    (∀ x, ¬ InRange position start stop x →
      (covering position (remove (fun l => (position l).toNat) start stop handlers) x).head? =
        (covering position handlers x).head?) ∧
    ∀ h ∈ handlers, position h.start < position h.stop →
      ∀ k ∈ remove (fun l => (position l).toNat) start stop [h], position k.start < position k.stop := by
  have hcovering : ∀ x, covering position (remove (fun l => (position l).toNat) start stop handlers) x =
      if InRange position start stop x then [] else covering position handlers x := by
    intro x
    induction handlers with
    | nil => simp [remove, covering]
    | cons h handlers ih =>
      rw [remove, List.flatMap_cons, covering_append, covering_cut hordered, ← remove, ih, covering_cons]
      by_cases hx : InRange position start stop x <;> simp [hx]
  refine ⟨hcovering, fun x hx => by rw [hcovering, if_neg hx], fun h _ hh k hk => ?_⟩
  rw [remove, List.flatMap_singleton] at hk
  exact cut_nonempty hordered hh hk

/-- A range in the middle of a handler and over the end of another one. -/
theorem remove_covering_split :
    (12 : UInt32) < 15 ∧ covering id (remove UInt32.toNat 12 (some 15) [⟨10, 20, 100, none⟩, ⟨0, 14, 200, some "A"⟩]) 11 =
      [((100 : UInt32), none), (200, some "A")] := by
  refine ⟨by decide, ((remove_covering id 12 (some 15) ?_ _).1 11).trans (by decide)⟩
  intro last hlast
  cases hlast
  decide

end Handler

end JvmAssembler
