import JvmAssembler.Hierarchy
import JvmAssembler.Proofs.Success
import Mathlib.Data.Finset.Card
import Mathlib.Data.List.Nodup
import Mathlib.Logic.Relation

/-!
# JvmAssembler.Proofs.Hierarchy

Super types as reachability, and the least common super class.

* `Above` is one step up the hierarchy and `Reaches` any number of them. A search visits each name once and ends with the
  names that are reached (`search_found`), so `isAssignable` decides `Assignable` unless it meets a name that is not known
  (`isAssignable_cases`).
* The `rank` of a name is the number of known names that it reaches. In a hierarchy without cycles each step up makes it
  smaller, so climbing super classes ends.
* In a `WellFormed` hierarchy two known names have a least common super class (`commonSuperClass_least`).
-/

namespace JvmAssembler

open Success

namespace Hierarchy

variable {h : Hierarchy} {toInterface : Bool} {a b c goal name : String} {info : ClassInfo} {seen toVisit : List String}

/-! ### Steps up the hierarchy -/

def Knows (h : Hierarchy) (name : String) : Prop := ∃ info, h.lookup? name = some info

/-- One step up: to the super class, or to an interface where those are followed. -/
def Above (h : Hierarchy) (toInterface : Bool) (sub sup : String) : Prop :=
  ∃ info, h.lookup? sub = some info ∧ sup ∈ ClassInfo.superTypes info toInterface

/-- Any number of steps up. -/
abbrev Reaches (h : Hierarchy) (toInterface : Bool) : String → String → Prop :=
  Relation.ReflTransGen (h.Above toInterface)

theorem mem_classes_of_lookup? (hinfo : h.lookup? name = some info) : (name, info) ∈ h.classes := by
  obtain ⟨⟨key, info'⟩, hfind, rfl⟩ := Option.map_eq_some_iff.1 hinfo
  obtain rfl : key = name := by simpa using List.find?_some hfind
  exact List.mem_of_find?_eq_some hfind

theorem Knows.mem (hname : h.Knows name) : name ∈ h.classes.map (·.1) := by
  obtain ⟨info, hinfo⟩ := hname
  exact List.mem_map.2 ⟨_, mem_classes_of_lookup? hinfo, rfl⟩

theorem Above.mono (hstep : h.Above toInterface a b) : h.Above true a b := by
  obtain ⟨info, hinfo, hmem⟩ := hstep
  refine ⟨info, hinfo, ?_⟩
  rcases List.mem_append.1 hmem with hmem | hmem
  · exact List.mem_append_left _ hmem
  · exact List.mem_append_right _ (by split at hmem <;> simp_all)

theorem reaches_any (hreach : h.Reaches toInterface a b) : h.Reaches true a b := hreach.lift id fun _ _ => Above.mono

theorem above_superClass (hinfo : h.lookup? a = some info) (hsup : info.superClass = some b) :
    h.Above toInterface a b := ⟨info, hinfo, List.mem_append_left _ (by simp [hsup])⟩

/-- Only super classes are followed on the way to a class. -/
theorem Above.exists_superClass (hstep : h.Above false a b) :
    ∃ info, h.lookup? a = some info ∧ info.superClass = some b := by
  obtain ⟨info, hinfo, hmem⟩ := hstep
  exact ⟨info, hinfo, by simpa [ClassInfo.superTypes] using hmem⟩

theorem superClass_of_above (hinfo : h.lookup? a = some info) (hstep : h.Above false a b) : info.superClass = some b := by
  obtain ⟨info', hinfo', hsup⟩ := hstep.exists_superClass
  cases hinfo.symm.trans hinfo'
  exact hsup

/-! ### Searching -/

theorem enqueue_eq (seen toVisit names : List String) : ∃ new, enqueue seen toVisit names = (new ++ seen, new ++ toVisit) ∧
    new.Nodup ∧ (∀ n ∈ new, n ∉ seen ∧ n ∈ names) ∧ ∀ n ∈ names, n ∈ new ++ seen := by
  induction names generalizing seen toVisit with
  | nil => exact ⟨[], rfl, List.nodup_nil, by simp, by simp⟩
  | cons name names ih =>
    rw [enqueue]
    by_cases hseen : name ∈ seen
    · obtain ⟨new, heq, hnd, hnew, hall⟩ := ih seen toVisit
      rw [if_pos (by simpa using hseen)]
      refine ⟨new, heq, hnd, fun n hn => ⟨(hnew n hn).1, List.mem_cons_of_mem _ (hnew n hn).2⟩, ?_⟩
      intro n hn
      rcases List.mem_cons.1 hn with rfl | hn
      · exact List.mem_append_right _ hseen
      · exact hall n hn
    · obtain ⟨new, heq, hnd, hnew, hall⟩ := ih (name :: seen) (name :: toVisit)
      rw [if_neg (by simpa using hseen)]
      refine ⟨new ++ [name], by rw [heq]; simp, ?_, ?_, ?_⟩
      · rw [List.nodup_append]
        refine ⟨hnd, by simp, fun n hn m hm => ?_⟩
        rw [List.mem_singleton.1 hm]
        exact fun heq => (hnew n hn).1 (heq ▸ List.mem_cons_self)
      · intro n hn
        rcases List.mem_append.1 hn with hn | hn
        · exact ⟨fun hmem => (hnew n hn).1 (List.mem_cons_of_mem _ hmem), List.mem_cons_of_mem _ (hnew n hn).2⟩
        · rw [List.mem_singleton.1 hn]
          exact ⟨hseen, List.mem_cons_self⟩
      · intro n hn
        rcases List.mem_cons.1 hn with rfl | hn
        · simp
        · simpa using hall n hn

/-- A search under way: the names that are done are known and are not the goal, what is above them has been seen, and no
name is visited twice. -/
structure Searching (h : Hierarchy) (goal : String) (toInterface : Bool) (done seen toVisit : List String) : Prop where
  nodup : (done ++ toVisit).Nodup
  mem_seen : ∀ n, n ∈ seen ↔ n ∈ done ∨ n ∈ toVisit
  known : ∀ n ∈ done, h.Knows n
  apart : goal ∉ done
  above : ∀ n ∈ done, ∀ m, h.Above toInterface n m → m ∈ seen

/-- The course of a search, for as long as it takes. -/
inductive SearchEnds (h : Hierarchy) (goal : String) (toInterface : Bool) :
    List String → List String → Except Error Bool → Prop
  | exhausted (seen : List String) : SearchEnds h goal toInterface seen [] (.ok false)
  | found (seen toVisit : List String) : SearchEnds h goal toInterface seen (goal :: toVisit) (.ok true)
  | missing {name : String} (seen toVisit : List String) (hname : name ≠ goal) (hinfo : h.lookup? name = none) :
    SearchEnds h goal toInterface seen (name :: toVisit) (.error (.missingClass name))
  | step {name : String} {info : ClassInfo} {seen toVisit seen' toVisit' : List String} {r : Except Error Bool}
    (hname : name ≠ goal) (hinfo : h.lookup? name = some info)
    (hnext : enqueue seen toVisit (ClassInfo.superTypes info toInterface) = (seen', toVisit'))
    (hends : SearchEnds h goal toInterface seen' toVisit' r) : SearchEnds h goal toInterface seen (name :: toVisit) r

/-- What a search that has seen some names tells of the goal. -/
def Finds (h : Hierarchy) (goal : String) (toInterface : Bool) (seen : List String) : Except Error Bool → Prop
  | .ok true => ∃ n ∈ seen, h.Reaches toInterface n goal
  | .ok false => ∀ n ∈ seen, ∀ m, h.Reaches toInterface n m → m ≠ goal ∧ h.Knows m
  | .error e => ∃ n ∈ seen, ∃ m, h.Reaches toInterface n m ∧ ¬ h.Knows m ∧ e = .missingClass m

variable {done : List String}

/-- There are no more names to be done than the hierarchy knows. -/
theorem Searching.length_le (hsrch : Searching h goal toInterface done seen toVisit) : done.length ≤ h.size := by
  have hsub : done ⊆ h.classes.map (·.1) := fun n hn => (hsrch.known n hn).mem
  have hlen := ((List.nodup_append.1 hsrch.nodup).1.subperm hsub).length_le
  rwa [List.length_map] at hlen

/-- Where nothing is left to visit, what was seen leads only to names that are done. -/
theorem Searching.reaches_done (hsrch : Searching h goal toInterface done seen []) {n m : String} (hn : n ∈ seen)
    (hreach : h.Reaches toInterface n m) : m ∈ done := by
  have hdone : ∀ m, m ∈ seen → m ∈ done := fun m hm => by simpa using (hsrch.mem_seen m).1 hm
  induction hreach with
  | refl => exact hdone n hn
  | tail _ hstep ih => exact hdone _ (hsrch.above _ ih _ hstep)

theorem Searching.step (hsrch : Searching h goal toInterface done seen (name :: toVisit)) (hname : name ≠ goal)
    (hinfo : h.lookup? name = some info) {new : List String} (hnd : new.Nodup) (hnew : ∀ n ∈ new, n ∉ seen)
    (hall : ∀ n ∈ ClassInfo.superTypes info toInterface, n ∈ new ++ seen) :
    Searching h goal toInterface (name :: done) (new ++ seen) (new ++ toVisit) where
  nodup := by
    have hmem := hsrch.mem_seen
    have hold := hsrch.nodup
    have hapart : ∀ n ∈ new, n ∉ done ∧ n ≠ name ∧ n ∉ toVisit := by
      intro n hn
      have := hnew n hn
      rw [hmem] at this
      simp_all
    simp only [List.nodup_append, List.cons_append, List.nodup_cons, List.mem_append, List.mem_cons] at hold ⊢
    grind
  mem_seen n := by
    have := hsrch.mem_seen n
    simp only [List.mem_append, List.mem_cons] at this ⊢
    tauto
  known n hn := by
    rcases List.mem_cons.1 hn with rfl | hn
    · exact ⟨info, hinfo⟩
    · exact hsrch.known n hn
  apart hgoal := by
    rcases List.mem_cons.1 hgoal with rfl | hgoal
    · exact hname rfl
    · exact hsrch.apart hgoal
  above n hn m hstep := by
    rcases List.mem_cons.1 hn with rfl | hn
    · obtain ⟨info', hinfo', hmem⟩ := hstep
      cases hinfo.symm.trans hinfo'
      exact hall m hmem
    · exact List.mem_append_right _ (hsrch.above n hn m hstep)

/-- Names above one that was seen lead nowhere new. -/
theorem Finds.of_step (hmem : name ∈ seen) (hinfo : h.lookup? name = some info) {new : List String}
    (hnew : ∀ n ∈ new, n ∈ ClassInfo.superTypes info toInterface) {r : Except Error Bool}
    (hfinds : Finds h goal toInterface (new ++ seen) r) : Finds h goal toInterface seen r := by
  have hback : ∀ n ∈ new ++ seen, ∀ m, h.Reaches toInterface n m → ∃ n ∈ seen, h.Reaches toInterface n m := by
    intro n hn m hreach
    rcases List.mem_append.1 hn with hn | hn
    · exact ⟨name, hmem, .head ⟨info, hinfo, hnew n hn⟩ hreach⟩
    · exact ⟨n, hn, hreach⟩
  cases r with
  | ok found =>
    cases found with
    | true =>
      obtain ⟨n, hn, hreach⟩ := hfinds
      exact hback n hn goal hreach
    | false => exact fun n hn => hfinds n (List.mem_append_right _ hn)
  | error e =>
    obtain ⟨n, hn, m, hreach, hunknown, he⟩ := hfinds
    obtain ⟨n', hn', hreach'⟩ := hback n hn m hreach
    exact ⟨n', hn', m, hreach', hunknown, he⟩

/-- A search ends before its bound is used up. -/
theorem search_ends {fuel : Nat} (hsrch : Searching h goal toInterface done seen toVisit)
    (hfuel : h.size < done.length + fuel) :
    SearchEnds h goal toInterface seen toVisit (search h goal toInterface fuel seen toVisit) := by
  induction fuel generalizing done seen toVisit with
  | zero =>
    have := hsrch.length_le
    omega
  | succ fuel ih =>
    cases toVisit with
    | nil => exact .exhausted seen
    | cons name toVisit =>
      rw [search]
      split
      next hname =>
        subst hname
        exact .found seen toVisit
      next hname =>
        unfold get
        cases hinfo : h.lookup? name with
        | none => exact .missing seen toVisit hname hinfo
        | some info =>
          obtain ⟨new, heq, hnd, hnew, hall⟩ := enqueue_eq seen toVisit (ClassInfo.superTypes info toInterface)
          simp only [heq]
          refine .step hname hinfo heq (ih (hsrch.step hname hinfo hnd (fun n hn => (hnew n hn).1) hall) ?_)
          rw [List.length_cons]
          omega

theorem SearchEnds.finds {r : Except Error Bool} (hends : SearchEnds h goal toInterface seen toVisit r)
    (hsrch : Searching h goal toInterface done seen toVisit) : Finds h goal toInterface seen r := by
  have hmem : ∀ {name seen toVisit done}, Searching h goal toInterface done seen (name :: toVisit) → name ∈ seen :=
    fun hsrch => (hsrch.mem_seen _).2 (.inr List.mem_cons_self)
  induction hends generalizing done with
  | exhausted seen =>
    intro n hn m hreach
    have hdone := hsrch.reaches_done hn hreach
    exact ⟨fun heq => hsrch.apart (heq ▸ hdone), hsrch.known m hdone⟩
  | found seen toVisit => exact ⟨goal, hmem hsrch, .refl⟩
  | missing seen toVisit hname hinfo =>
    exact ⟨_, hmem hsrch, _, .refl, fun hkn => by simp [Knows, hinfo] at hkn, rfl⟩
  | @step name info seen toVisit seen' toVisit' r hname hinfo hnext _ ih =>
    obtain ⟨new, heq, hnd, hnew, hall⟩ := enqueue_eq seen toVisit (ClassInfo.superTypes info toInterface)
    cases hnext.symm.trans heq
    exact (ih (hsrch.step hname hinfo hnd (fun n hn => (hnew n hn).1) hall)).of_step (hmem hsrch) hinfo
      fun n hn => (hnew n hn).2

/-! ### Assignability -/

/-- Values of `sub` can stand where `sup` is wanted. A class is reached through super classes only. -/
def Assignable (h : Hierarchy) (sub sup : String) : Prop :=
  sub = sup ∨ sup = objectClass ∨ ∃ info, h.lookup? sup = some info ∧ h.Reaches info.isInterface sub sup

theorem searching_start (h : Hierarchy) (goal : String) (toInterface : Bool) (name : String) :
    Searching h goal toInterface [] [name] [name] := ⟨by simp, by simp, by simp, by simp, by simp⟩

/-- Assignability is decided, unless a name is met that is not known. A negative answer takes all names above. -/
theorem isAssignable_cases (h : Hierarchy) (a b : String) :
    (h.isAssignable a b = .ok true ∧ h.Assignable a b) ∨
      (h.isAssignable a b = .ok false ∧ ¬ h.Assignable a b ∧
        ∃ info, h.lookup? b = some info ∧ ∀ m, h.Reaches info.isInterface a m → h.Knows m) ∨
      ∃ name, h.isAssignable a b = .error (.missingClass name) ∧ ¬ h.Knows name ∧
        (name = b ∨ ∃ info, h.lookup? b = some info ∧ h.Reaches info.isInterface a name) := by
  unfold isAssignable
  split
  next heq => exact .inl ⟨rfl, heq.elim .inl fun heq => .inr (.inl heq)⟩
  next hne =>
    unfold get
    cases hinfo : h.lookup? b with
    | none => exact .inr (.inr ⟨b, rfl, fun hkn => by simp [Knows, hinfo] at hkn, .inl rfl⟩)
    | some info =>
      have hst := searching_start h b info.isInterface a
      have hends : SearchEnds h b info.isInterface [a] [a] (search h b info.isInterface (h.size + 1) [a] [a]) :=
        search_ends hst (by simp)
      have hfinds := hends.finds hst
      dsimp only
      cases hrun : search h b info.isInterface (h.size + 1) [a] [a] with
      | ok found =>
        rw [hrun] at hfinds
        cases found with
        | true =>
          obtain ⟨n, hn, hreach⟩ := hfinds
          rw [List.mem_singleton.1 hn] at hreach
          exact .inl ⟨rfl, .inr (.inr ⟨info, hinfo, hreach⟩)⟩
        | false =>
          have habove := hfinds a (List.mem_singleton_self a)
          refine .inr (.inl ⟨rfl, ?_, info, rfl, fun m hreach => (habove m hreach).2⟩)
          rintro (heq | hobj | ⟨info', hinfo', hreach⟩)
          · exact hne (.inl heq)
          · exact hne (.inr hobj)
          · cases hinfo.symm.trans hinfo'
            exact (habove b hreach).1 rfl
      | error e =>
        rw [hrun] at hfinds
        obtain ⟨n, hn, m, hreach, hunknown, rfl⟩ := hfinds
        rw [List.mem_singleton.1 hn] at hreach
        exact .inr (.inr ⟨m, rfl, hunknown, .inr ⟨info, rfl, hreach⟩⟩)

theorem knows_of_reaches (hclo : ∀ a b, h.Above true a b → h.Knows b) (ha : h.Knows a) (hreach : h.Reaches true a b) :
    h.Knows b := by
  induction hreach with
  | refl => exact ha
  | tail _ hstep _ => exact hclo _ _ hstep

/-- Where all super types are known, assignability of known names is decided. -/
theorem isAssignable_iff (hclo : ∀ a b, h.Above true a b → h.Knows b) (ha : h.Knows a) (hb : h.Knows b) :
    (h.isAssignable a b = .ok true ↔ h.Assignable a b) ∧ (¬ h.Assignable a b → h.isAssignable a b = .ok false) := by
  rcases isAssignable_cases h a b with ⟨hrun, hyes⟩ | ⟨hrun, hno, -⟩ | ⟨name, -, hunknown, hname⟩
  · exact ⟨iff_of_true hrun hyes, fun hno => absurd hyes hno⟩
  · exact ⟨iff_of_false (by simp [hrun]) hno, fun _ => hrun⟩
  · refine absurd ?_ hunknown
    rcases hname with rfl | ⟨info, -, hreach⟩
    · exact hb
    · exact knows_of_reaches hclo ha (reaches_any hreach)

/-- Where something is assigned to, it is above, or it is the root. -/
theorem Assignable.reaches (hab : h.Assignable a b) : b = objectClass ∨ h.Reaches true a b := by
  rcases hab with rfl | hobj | ⟨info, -, hreach⟩
  · exact .inr .refl
  · exact .inl hobj
  · exact .inr (reaches_any hreach)

/-! ### Rank -/

/-- No name is above itself. -/
def Acyclic (h : Hierarchy) : Prop := ∀ name, ¬ Relation.TransGen (h.Above true) name name

open Classical in
/-- The number of known names that a name reaches. -/
noncomputable def rank (h : Hierarchy) (toInterface : Bool) (name : String) : Nat :=
  ((h.classes.map (·.1)).toFinset.filter fun n => h.Reaches toInterface name n).card

theorem rank_le_size (h : Hierarchy) (toInterface : Bool) (name : String) : h.rank toInterface name ≤ h.size := by
  classical
  calc h.rank toInterface name ≤ (h.classes.map (·.1)).toFinset.card := Finset.card_filter_le _ _
    _ ≤ (h.classes.map (·.1)).length := List.toFinset_card_le _
    _ = h.size := List.length_map _

theorem rank_pos (ha : h.Knows a) : 0 < h.rank toInterface a := by
  classical
  exact Finset.card_pos.2 ⟨a, Finset.mem_filter.2 ⟨List.mem_toFinset.2 ha.mem, .refl⟩⟩

section

variable (hacyclic : ∀ name, ¬ Relation.TransGen (h.Above toInterface) name name)

include hacyclic

/-- Steps up make the rank smaller. -/
theorem rank_lt (hup : Relation.TransGen (h.Above toInterface) a b) : h.rank toInterface b < h.rank toInterface a := by
  classical
  refine Finset.card_lt_card ⟨fun n hn => ?_, fun hsub => ?_⟩
  · simp only [Finset.mem_filter] at hn ⊢
    exact ⟨hn.1, hup.to_reflTransGen.trans hn.2⟩
  · -- the lower name is known, since something is above it, and is not reached from the upper one
    obtain ⟨m, ⟨info, hinfo, -⟩, -⟩ := Relation.TransGen.head'_iff.1 hup
    have hmem : a ∈ (h.classes.map (·.1)).toFinset.filter fun n => h.Reaches toInterface b n :=
      hsub (by simpa using ⟨⟨info, mem_classes_of_lookup? hinfo⟩, Relation.ReflTransGen.refl⟩)
    exact hacyclic a (hup.trans_left (Finset.mem_filter.1 hmem).2)

theorem reaches_antisymm (hab : h.Reaches toInterface a b) (hba : h.Reaches toInterface b a) : a = b := by
  rcases Relation.reflTransGen_iff_eq_or_transGen.1 hab with rfl | hup
  · rfl
  · exact absurd (hup.trans_left hba) (hacyclic a)

end

/-! ### Common super classes -/

def IsInterface (h : Hierarchy) (name : String) : Prop := ∃ info, h.lookup? name = some info ∧ info.isInterface = true

theorem assignable_of_reaches (hc : h.Knows c) (hcls : ¬ h.IsInterface c) (hac : h.Reaches false a c) :
    h.Assignable a c := by
  obtain ⟨info, hinfo⟩ := hc
  refine .inr (.inr ⟨info, hinfo, ?_⟩)
  cases hflag : info.isInterface with
  | true => exact absurd ⟨info, hinfo, hflag⟩ hcls
  | false => exact hac

/-- Super classes make chains of classes, without cycles, and the root has none. Not all of them need be known. -/
structure Chained (h : Hierarchy) : Prop where
  acyclic : ∀ name, ¬ Relation.TransGen (h.Above false) name name
  superClasses : ∀ a info b, h.lookup? a = some info → info.superClass = some b → ¬ h.IsInterface b
  root : ∀ info, h.lookup? objectClass = some info → info.superClass = none

/-- The first name where the super classes of two names meet, or the root if they do not. -/
def MeetAt (h : Hierarchy) (a b r : String) : Prop :=
  (h.Reaches false a r ∧ h.Reaches false b r ∧ ∀ c, h.Reaches false a c → h.Reaches false b c → h.Reaches false r c) ∨
    (r = objectClass ∧ ∀ c, h.Reaches false a c → ¬ h.Reaches false b c)

namespace Chained

variable (hh : h.Chained)

include hh

theorem meetAt_unique {r r' : String} (hr : h.MeetAt a b r) (hr' : h.MeetAt b a r') : r = r' := by
  rcases hr with ⟨har, hbr, hleast⟩ | ⟨rfl, hnone⟩ <;> rcases hr' with ⟨hbr', har', hleast'⟩ | ⟨rfl, hnone'⟩
  · exact reaches_antisymm hh.acyclic (hleast r' har' hbr') (hleast' r hbr har)
  · exact absurd har (hnone' r hbr)
  · exact absurd hbr' (hnone r' har')
  · rfl

/-- Whether a name is below a super class can be told where its own super classes are known. -/
theorem isAssignable_superClass (ha : h.lookup? a = some info) (hsup : info.superClass = some c) (hc : h.Knows c)
    (hkn : ∀ m, h.Reaches false b m → h.Knows m) :
    (h.isAssignable b c = .ok true ∧ (c = objectClass ∨ h.Reaches false b c)) ∨
      (h.isAssignable b c = .ok false ∧ ¬ h.Reaches false b c) := by
  have hcls : ∀ info, h.lookup? c = some info → info.isInterface = false := fun infoC hinfo =>
    Bool.eq_false_iff.2 fun hflag => hh.superClasses a info c ha hsup ⟨infoC, hinfo, hflag⟩
  rcases isAssignable_cases h b c with ⟨hrun, hbc⟩ | ⟨hrun, hbc, infoC, hinfo, -⟩ | ⟨name, -, hunknown, hname⟩
  · refine .inl ⟨hrun, ?_⟩
    rcases hbc with rfl | hroot | ⟨infoC, hinfo, hreach⟩
    · exact .inr .refl
    · exact .inl hroot
    · exact .inr (hcls infoC hinfo ▸ hreach)
  · exact .inr ⟨hrun, fun hreach => hbc (.inr (.inr ⟨infoC, hinfo, (hcls infoC hinfo).symm ▸ hreach⟩))⟩
  · refine absurd ?_ hunknown
    rcases hname with rfl | ⟨infoC, hinfo, hreach⟩
    · exact hc
    · exact hkn name (hcls infoC hinfo ▸ hreach)

/-- Climbing ends where the super classes meet, if those of both names are known. -/
theorem climb_meetAt {fuel : Nat} (ha : h.lookup? a = some info) (hkn : ∀ m, h.Reaches false a m → h.Knows m)
    (hkn' : ∀ m, h.Reaches false b m → h.Knows m) (hba : ¬ h.Reaches false b a) (hfuel : h.rank false a ≤ fuel) :
    ∃ r, climb h b fuel info = .ok r ∧ h.MeetAt a b r := by
  induction fuel generalizing a info with
  | zero =>
    have hpos : 0 < h.rank false a := rank_pos ⟨info, ha⟩
    omega
  | succ fuel ih =>
    rw [climb]
    cases hsup : info.superClass with
    | none =>
      refine ⟨objectClass, rfl, .inr ⟨rfl, fun c hac hbc => ?_⟩⟩
      rcases Relation.ReflTransGen.cases_head hac with rfl | ⟨m, hstep, -⟩
      · exact hba hbc
      · cases hsup.symm.trans (superClass_of_above ha hstep)
    | some sup =>
      have hstep : h.Above false a sup := above_superClass ha hsup
      -- whatever is above both is above the super class
      have hbeyond : ∀ c, h.Reaches false a c → h.Reaches false b c → h.Reaches false sup c := by
        intro c hac hbc
        rcases Relation.ReflTransGen.cases_head hac with rfl | ⟨m, hfst, hrest⟩
        · exact absurd hbc hba
        · cases hsup.symm.trans (superClass_of_above ha hfst)
          exact hrest
      dsimp only
      have hsupKnown : h.Knows sup := hkn sup (.single hstep)
      rcases hh.isAssignable_superClass ha hsup hsupKnown hkn' with ⟨hrun, hbs⟩ | ⟨hrun, hbs⟩
      · rw [hrun]
        refine ⟨sup, rfl, ?_⟩
        by_cases hreach : h.Reaches false b sup
        · exact .inl ⟨.single hstep, hreach, hbeyond⟩
        · -- nothing is above the root, so the super classes do not meet
          obtain rfl := hbs.resolve_right hreach
          refine .inr ⟨rfl, fun c hac hbc => ?_⟩
          rcases Relation.ReflTransGen.cases_head (hbeyond c hac hbc) with rfl | ⟨m, hfst, -⟩
          · exact hreach hbc
          · obtain ⟨info', hinfo', hsup'⟩ := hfst.exists_superClass
            cases (hh.root info' hinfo').symm.trans hsup'
      · rw [hrun]
        obtain ⟨info', hinfo'⟩ := hsupKnown
        simp only [get, hinfo']
        have hrank := rank_lt hh.acyclic (.single hstep)
        obtain ⟨r, hclimb, hmeet⟩ := ih hinfo' (fun m hreach => hkn m (.head hstep hreach)) hbs (by omega)
        refine ⟨r, hclimb, ?_⟩
        rcases hmeet with ⟨hreach, hbr, hleast⟩ | ⟨hroot, hnone⟩
        · exact .inl ⟨.head hstep hreach, hbr, fun c hac hbc => hleast c (hbeyond c hac hbc) hbc⟩
        · exact .inr ⟨hroot, fun c hac hbc => hnone c (hbeyond c hac hbc) hbc⟩

end Chained

/-- Every super type is known, there are no cycles, the root class is the only name without a super class, super classes
are classes, and the super class of an interface is the root. -/
structure WellFormed (h : Hierarchy) : Prop where
  closed : ∀ a b, h.Above true a b → h.Knows b
  acyclic : h.Acyclic
  root : ∃ info, h.lookup? objectClass = some info ∧ info.superClass = none
  rooted : ∀ a info, h.lookup? a = some info → info.superClass = none → a = objectClass
  superClasses : ∀ a info b, h.lookup? a = some info → info.superClass = some b → ¬ h.IsInterface b
  interfaces : ∀ a info, h.lookup? a = some info → info.isInterface = true → info.superClass = some objectClass

/-- A name is the least common super class of two names; of related ones it is the upper one. -/
structure Meets (h : Hierarchy) (a b r : String) : Prop where
  knows : h.Knows r
  left : h.Assignable a r
  right : h.Assignable b r
  least : ∀ c, h.Knows c → ¬ h.IsInterface c → h.Assignable a c → h.Assignable b c → h.Assignable r c
  related : h.Assignable a b ∨ h.Assignable b a → r = a ∨ r = b
  unrelated : ¬ h.Assignable a b → ¬ h.Assignable b a → ¬ h.IsInterface r
  interfaces : ¬ h.Assignable a b → ¬ h.Assignable b a → h.IsInterface a ∨ h.IsInterface b → r = objectClass

theorem closed_of_classes
    (hclss : ∀ e ∈ h.classes, ∀ s ∈ ClassInfo.superTypes e.2 true, (h.lookup? s).isSome = true) :
    ∀ a b, h.Above true a b → h.Knows b := by
  rintro a b ⟨info, hinfo, hmem⟩
  exact Option.isSome_iff_exists.1 (hclss _ (mem_classes_of_lookup? hinfo) b hmem)

/-- Some order in which super types come first shows that there are no cycles. -/
theorem acyclic_of_classes (height : String → Nat)
    (hclss : ∀ e ∈ h.classes, ∀ s ∈ ClassInfo.superTypes e.2 toInterface, height s < height e.1) :
    ∀ name, ¬ Relation.TransGen (h.Above toInterface) name name := by
  have hstep : ∀ {a b}, h.Above toInterface a b → height b < height a := by
    rintro a b ⟨info, hinfo, hmem⟩
    exact hclss _ (mem_classes_of_lookup? hinfo) b hmem
  have hlower : ∀ {a b}, Relation.TransGen (h.Above toInterface) a b → height b < height a := by
    intro a b hup
    induction hup with
    | single hfst => exact hstep hfst
    | tail _ hlast ih => exact Nat.lt_trans (hstep hlast) ih
  exact fun name hcycle => Nat.lt_irrefl _ (hlower hcycle)

theorem wellFormed_of_classes (height : String → Nat)
    (hroot : (h.lookup? objectClass).any (·.superClass.isNone) = true)
    (hclss : ∀ e ∈ h.classes,
      (∀ s ∈ ClassInfo.superTypes e.2 true, (h.lookup? s).isSome = true ∧ height s < height e.1) ∧
      (e.2.superClass = none → e.1 = objectClass) ∧
      (∀ s ∈ e.2.superClass, (h.lookup? s).any (·.isInterface) = false) ∧
      (e.2.isInterface = true → e.2.superClass = some objectClass)) : h.WellFormed where
  closed := closed_of_classes fun e he s hs => ((hclss e he).1 s hs).1
  acyclic := acyclic_of_classes height fun e he s hs => ((hclss e he).1 s hs).2
  root := by
    obtain ⟨info, hinfo, hnone⟩ := (Option.any_eq_true _ _).1 hroot
    exact ⟨info, hinfo, Option.isNone_iff_eq_none.1 hnone⟩
  rooted a info hinfo := (hclss _ (mem_classes_of_lookup? hinfo)).2.1
  superClasses a info b hinfo hsup := by
    rintro ⟨info', hinfo', hflag⟩
    have := (hclss _ (mem_classes_of_lookup? hinfo)).2.2.1 b hsup
    simp [hinfo', hflag] at this
  interfaces a info hinfo := (hclss _ (mem_classes_of_lookup? hinfo)).2.2.2

theorem wellFormed_javaLang : javaLang.WellFormed :=
  wellFormed_of_classes (fun name => javaLang.classes.findIdx (·.1 == name)) (by decide +kernel) (by decide +kernel)

namespace WellFormed

variable (hh : h.WellFormed)

include hh

theorem knows_root : h.Knows objectClass := hh.root.imp fun _ hinfo => hinfo.1

/-- Every known name leads to the root through super classes. -/
theorem reaches_root (ha : h.Knows a) : h.Reaches false a objectClass := by
  induction hn : h.rank true a using Nat.strong_induction_on generalizing a with
  | h n ih =>
    obtain ⟨info, hinfo⟩ := ha
    cases hsup : info.superClass with
    | none => rw [hh.rooted a info hinfo hsup]
    | some sup =>
      have hstep : h.Above false a sup := above_superClass hinfo hsup
      exact .head hstep (ih _ (hn ▸ rank_lt hh.acyclic (.single hstep.mono)) (hh.closed _ _ hstep.mono) rfl)

/-- Nothing is above the root. -/
theorem eq_root_of_reaches (hreach : h.Reaches true objectClass a) : a = objectClass := by
  have hkn : h.Knows a := knows_of_reaches hh.closed hh.knows_root hreach
  exact (reaches_antisymm hh.acyclic hreach (reaches_any (hh.reaches_root hkn))).symm

theorem reaches_of_assignable (ha : h.Knows a) (hab : h.Assignable a b) : h.Reaches true a b := by
  rcases hab.reaches with rfl | hreach
  · exact reaches_any (hh.reaches_root ha)
  · exact hreach

theorem assignable_antisymm (ha : h.Knows a) (hb : h.Knows b) (hab : h.Assignable a b) (hba : h.Assignable b a) : a = b :=
  reaches_antisymm hh.acyclic (hh.reaches_of_assignable ha hab) (hh.reaches_of_assignable hb hba)

/-- To a class the way leads through super classes. -/
theorem reaches_of_class (ha : h.Knows a) (hc : ¬ h.IsInterface c) (hac : h.Assignable a c) : h.Reaches false a c := by
  rcases hac with rfl | rfl | ⟨info, hinfo, hreach⟩
  · exact .refl
  · exact hh.reaches_root ha
  · cases hflag : info.isInterface with
    | true => exact absurd ⟨info, hinfo, hflag⟩ hc
    | false => rwa [hflag] at hreach

theorem chained : h.Chained where
  acyclic name hcycle := hh.acyclic name (hcycle.lift id fun _ _ => Above.mono)
  superClasses := hh.superClasses
  root info hinfo := by
    obtain ⟨info', hinfo', hnone⟩ := hh.root
    cases hinfo.symm.trans hinfo'
    exact hnone

theorem commonSuperClass_meets (ha : h.Knows a) (hb : h.Knows b) :
    ∃ r, h.commonSuperClass a b = .ok r ∧ Meets h a b r := by
  unfold commonSuperClass
  by_cases hba : h.Assignable b a
  · rw [((isAssignable_iff hh.closed hb ha).1).2 hba]
    exact ⟨a, rfl, ha, .inl rfl, hba, fun _ _ _ hac _ => hac, fun _ => .inl rfl, fun _ hno => absurd hba hno,
      fun _ hno => absurd hba hno⟩
  rw [(isAssignable_iff hh.closed hb ha).2 hba]
  by_cases hab : h.Assignable a b
  · rw [((isAssignable_iff hh.closed ha hb).1).2 hab]
    exact ⟨b, rfl, hb, hab, .inl rfl, fun _ _ _ _ hbc => hbc, fun _ => .inr rfl, fun hno => absurd hab hno,
      fun hno => absurd hab hno⟩
  rw [(isAssignable_iff hh.closed ha hb).2 hab]
  obtain ⟨infoA, hA⟩ := ha
  obtain ⟨infoB, hB⟩ := hb
  have hrelated : ∀ r, h.Assignable a b ∨ h.Assignable b a → r = a ∨ r = b := fun _ hor => absurd hor (by tauto)
  have hget : h.get a = .ok infoA ∧ h.get b = .ok infoB := by simp [get, hA, hB]
  simp only [bind, Except.bind, hget.1, hget.2, Bool.false_eq_true, if_false]
  split
  next hintf =>
    have hcls : ¬ h.IsInterface objectClass := by
      rintro ⟨info, hinfo, hflag⟩
      obtain ⟨info', hinfo', hnone⟩ := hh.root
      cases hinfo.symm.trans hinfo'
      rw [hh.interfaces _ _ hinfo hflag] at hnone
      cases hnone
    -- the only class above an interface is the root
    have honly : ∀ x info c, h.lookup? x = some info → info.isInterface = true → ¬ h.IsInterface c → h.Assignable x c →
        c = objectClass := by
      intro x info c hinfo hflag hc hxc
      rcases Relation.ReflTransGen.cases_head (hh.reaches_of_class ⟨info, hinfo⟩ hc hxc) with rfl | ⟨m, hstep, hrest⟩
      · exact absurd ⟨info, hinfo, hflag⟩ hc
      · cases (hh.interfaces x info hinfo hflag).symm.trans (superClass_of_above hinfo hstep)
        exact hh.eq_root_of_reaches (reaches_any hrest)
    refine ⟨objectClass, rfl, hh.knows_root, .inr (.inl rfl), .inr (.inl rfl), ?_, hrelated _, fun _ _ => hcls,
      fun _ _ _ => rfl⟩
    intro c _ hc hac hbc
    rcases Bool.or_eq_true _ _ ▸ hintf with hflag | hflag
    · exact .inl (honly a infoA c hA hflag hc hac).symm
    · exact .inl (honly b infoB c hB hflag hc hbc).symm
  next hclss =>
    have hkn : ∀ {x}, h.Knows x → ∀ m, h.Reaches false x m → h.Knows m :=
      fun hx m hreach => knows_of_reaches hh.closed hx (reaches_any hreach)
    have haclass : ¬ h.IsInterface a := by
      rintro ⟨info, hinfo, hflag⟩
      cases hA.symm.trans hinfo
      simp [hflag] at hclss
    have hba' : ¬ h.Reaches false b a := fun hreach => hba (assignable_of_reaches ⟨infoA, hA⟩ haclass hreach)
    obtain ⟨r, hrun, hmeet⟩ := hh.chained.climb_meetAt hA (hkn ⟨infoA, hA⟩) (hkn ⟨infoB, hB⟩) hba'
      (Nat.le_succ_of_le (h.rank_le_size false a))
    obtain ⟨hreach, hbr, hleast⟩ := hmeet.resolve_right fun hnone =>
      hnone.2 objectClass (hh.reaches_root ⟨infoA, hA⟩) (hh.reaches_root ⟨infoB, hB⟩)
    have hr : h.Knows r := hkn ⟨infoA, hA⟩ r hreach
    have hrclass : ¬ h.IsInterface r := by
      rcases Relation.ReflTransGen.cases_tail hreach with rfl | ⟨m, -, hstep⟩
      · exact haclass
      · obtain ⟨info, hinfo, hsup⟩ := hstep.exists_superClass
        exact hh.superClasses m info r hinfo hsup
    refine ⟨r, hrun, hr, assignable_of_reaches hr hrclass hreach, assignable_of_reaches hr hrclass hbr, ?_, hrelated r,
      fun _ _ => hrclass, ?_⟩
    · intro c hc hcclass hac hbc
      exact assignable_of_reaches hc hcclass (hleast c (hh.reaches_of_class ⟨infoA, hA⟩ hcclass hac)
        (hh.reaches_of_class ⟨infoB, hB⟩ hcclass hbc))
    · rintro - - (hintf | ⟨info, hinfo, hflag⟩)
      · exact absurd hintf haclass
      · cases hB.symm.trans hinfo
        simp [hflag] at hclss

/-- What two names meet in does not depend on their order. -/
theorem meets_unique {r r' : String} (ha : h.Knows a) (hb : h.Knows b) (hr : Meets h a b r) (hr' : Meets h b a r') :
    r = r' := by
  by_cases hrelated : h.Assignable a b ∨ h.Assignable b a
  · have hor := hr.related hrelated
    have hor' := hr'.related hrelated.symm
    -- each of the two is above both names
    rcases hor with rfl | rfl <;> rcases hor' with rfl | rfl
    · exact hh.assignable_antisymm ha hb hr'.right hr.right
    · rfl
    · rfl
    · exact hh.assignable_antisymm hb ha hr'.left hr.left
  · rw [not_or] at hrelated
    have hcls := hr.unrelated hrelated.1 hrelated.2
    have hcls' := hr'.unrelated hrelated.2 hrelated.1
    exact hh.assignable_antisymm hr.knows hr'.knows (hr.least r' hr'.knows hcls' hr'.right hr'.left)
      (hr'.least r hr.knows hcls hr.right hr.left)

end WellFormed

/-- **The least common super class.** In a well-formed hierarchy two known names have a common super class, to which both
can be assigned. It can be assigned to every class to which both can be. It is one of the two if one can be assigned to the
other, and else the root if one is an interface. The order of the two does not matter. -/
theorem commonSuperClass_least (hh : h.WellFormed) (ha : h.Knows a) (hb : h.Knows b) :
    ∃ r, h.commonSuperClass a b = .ok r ∧ h.commonSuperClass b a = .ok r ∧
      h.isAssignable a r = .ok true ∧ h.isAssignable b r = .ok true ∧
      (∀ c info, h.lookup? c = some info → info.isInterface = false → h.isAssignable a c = .ok true →
        h.isAssignable b c = .ok true → h.isAssignable r c = .ok true) ∧
      (h.isAssignable a b = .ok true ∨ h.isAssignable b a = .ok true → r = a ∨ r = b) ∧
      (h.isAssignable a b = .ok false → h.isAssignable b a = .ok false → h.IsInterface a ∨ h.IsInterface b →
        r = objectClass) := by
  obtain ⟨r, hrun, hr⟩ := hh.commonSuperClass_meets ha hb
  obtain ⟨r', hrun', hr'⟩ := hh.commonSuperClass_meets hb ha
  obtain rfl := hh.meets_unique ha hb hr hr'
  have hiff : ∀ {x y}, h.Knows x → h.Knows y → (h.isAssignable x y = .ok true ↔ h.Assignable x y) :=
    fun hx hy => (isAssignable_iff hh.closed hx hy).1
  have hnot : ∀ {x y}, h.Knows x → h.Knows y → h.isAssignable x y = .ok false → ¬ h.Assignable x y := by
    intro x y hx hy hfalse hyes
    rw [(hiff hx hy).2 hyes] at hfalse
    cases hfalse
  refine ⟨r, hrun, hrun', (hiff ha hr.knows).2 hr.left, (hiff hb hr.knows).2 hr.right, ?_, ?_, ?_⟩
  · intro c info hinfo hflag hac hbc
    have hc : h.Knows c := ⟨info, hinfo⟩
    have hclass : ¬ h.IsInterface c := by
      rintro ⟨info', hinfo', hflag'⟩
      cases hinfo.symm.trans hinfo'
      rw [hflag] at hflag'
      cases hflag'
    exact (hiff hr.knows hc).2 (hr.least c hc hclass ((hiff ha hc).1 hac) ((hiff hb hc).1 hbc))
  · rw [hiff ha hb, hiff hb ha]
    exact hr.related
  · intro hab hba
    exact hr.interfaces (hnot ha hb hab) (hnot hb ha hba)

theorem commonSuperClass_least_numbers :
    javaLang.WellFormed ∧ javaLang.Knows "java/lang/Integer" ∧ javaLang.Knows "java/lang/Long" ∧
      ∃ r, javaLang.commonSuperClass "java/lang/Integer" "java/lang/Long" = .ok r ∧
        javaLang.isAssignable "java/lang/Long" r = .ok true := by
  have hInteger : javaLang.Knows "java/lang/Integer" := Option.isSome_iff_exists.1 (by decide +kernel)
  have hLong : javaLang.Knows "java/lang/Long" := Option.isSome_iff_exists.1 (by decide +kernel)
  obtain ⟨r, hrun, -, -, hright, -⟩ := commonSuperClass_least wellFormed_javaLang hInteger hLong
  exact ⟨wellFormed_javaLang, hInteger, hLong, r, hrun, hright⟩

end Hierarchy

end JvmAssembler
