import JvmAssembler.Proofs.Hierarchy

/-!
# JvmAssembler.Proofs.Assignability

Assignability and common super classes in hierarchies that may have cycles or gaps.

* Where every super type is known, with or without cycles, `isAssignable` decides reachability, and the order of the
  interfaces does not matter (`isAssignable_decides`).
* Where super types are missing, the common super class of two names can depend on their order: the second question is
  not asked if the first one is answered with yes. `commonSuperClass_swap` says exactly when it does not.
-/

namespace JvmAssembler

open Success

namespace Hierarchy

variable {h h' : Hierarchy} {toInterface : Bool} {a b : String} {info : ClassInfo}

/-! ### Hierarchies without gaps -/

/-- A hierarchy knows the names of another one with the same super types; their interfaces may stand in another order. -/
def Reorders (h h' : Hierarchy) : Prop :=
  ∀ name info, h.lookup? name = some info →
    ∃ interfaces, interfaces.Perm info.interfaces ∧ h'.lookup? name = some { info with interfaces }

theorem Reorders.above_iff (horder : h.Reorders h') (ha : h.Knows a) : h'.Above toInterface a b ↔ h.Above toInterface a b := by
  obtain ⟨info, hinfo⟩ := ha
  obtain ⟨interfaces, hperm, hinfo'⟩ := horder a info hinfo
  have hsame : b ∈ ClassInfo.superTypes { info with interfaces } toInterface ↔ b ∈ ClassInfo.superTypes info toInterface := by
    cases toInterface <;> simp [ClassInfo.superTypes, hperm.mem_iff]
  simp [Above, hinfo, hinfo', hsame]

/-- Known names without gaps above them reach the same names. -/
theorem Reorders.reaches_iff (horder : h.Reorders h') (hclo : ∀ a b, h.Above true a b → h.Knows b) (ha : h.Knows a) :
    h'.Reaches toInterface a b ↔ h.Reaches toInterface a b := by
  refine ⟨fun hreach => ?_, fun hreach => ?_⟩
  · induction hreach with
    | refl => exact .refl
    | tail _ hstep ih => exact ih.tail ((horder.above_iff (knows_of_reaches hclo ha (reaches_any ih))).1 hstep)
  · induction hreach with
    | refl => exact .refl
    | tail hreach hstep ih =>
      exact ih.tail ((horder.above_iff (knows_of_reaches hclo ha (reaches_any hreach))).2 hstep)

/-- **Assignability is reachability.** Where every super type is known, of two known names the first can be assigned to the
second exactly if they are the same, or the second is the root, or the first reaches the second: through super classes if
that is a class, through super classes and interfaces if it is an interface. The search ends by itself, and the order of
interfaces does not matter. -/
theorem isAssignable_decides (hclosed : ∀ a b, h.Above true a b → h.Knows b) (ha : h.Knows a)
    (hb : h.lookup? b = some info) :
    ∃ answer, h.isAssignable a b = .ok answer ∧
      (answer = true ↔ a = b ∨ b = objectClass ∨ h.Reaches info.isInterface a b) ∧
      (a ≠ b → b ≠ objectClass → SearchEnds h b info.isInterface [a] [a] (.ok answer)) ∧
      ∀ h', h.Reorders h' → h'.isAssignable a b = .ok answer := by
  have hiff : h.Assignable a b ↔ a = b ∨ b = objectClass ∨ h.Reaches info.isInterface a b := by simp [Assignable, hb]
  obtain ⟨hyes, hno⟩ := isAssignable_iff hclosed ha ⟨info, hb⟩
  obtain ⟨answer, hrun, hanswer⟩ : ∃ answer, h.isAssignable a b = .ok answer ∧ (answer = true ↔ h.Assignable a b) := by
    by_cases hab : h.Assignable a b
    · exact ⟨true, hyes.2 hab, iff_of_true rfl hab⟩
    · exact ⟨false, hno hab, iff_of_false Bool.false_ne_true hab⟩
  refine ⟨answer, hrun, hanswer.trans hiff, fun hne hroot => ?_, fun h' horder => ?_⟩
  · rw [isAssignable, if_neg (by simp [hne, hroot]), get, hb] at hrun
    rw [← hrun]
    exact search_ends (searching_start h b info.isInterface a) (by simp)
  · obtain ⟨interfaces, -, hb'⟩ := horder b info hb
    have hsame : h'.Assignable a b ↔ h.Assignable a b := by
      simp [Assignable, hb, hb', horder.reaches_iff hclosed ha]
    rcases isAssignable_cases h' a b with ⟨hrun', hyes'⟩ | ⟨hrun', hno', -⟩ | ⟨name, -, hunknown, hname⟩
    · rw [hrun', hanswer.2 (hsame.1 hyes')]
    · rw [hrun', Bool.eq_false_iff.2 fun heq => hno' (hsame.2 (hanswer.1 heq))]
    · refine absurd ?_ hunknown
      rcases hname with rfl | ⟨info', -, hreach⟩
      · exact ⟨_, hb'⟩
      · obtain ⟨info'', hinfo''⟩ := knows_of_reaches hclosed ha (reaches_any ((horder.reaches_iff hclosed ha).1 hreach))
        obtain ⟨interfaces', -, hname'⟩ := horder name info'' hinfo''
        exact ⟨_, hname'⟩

/-- Two interfaces that extend each other. -/
theorem isAssignable_decides_circle :
    let h : Hierarchy := ⟨[(objectClass, ⟨none, [], false⟩), ("I", .interface ["J"]), ("J", .interface ["I"])]⟩
    (∀ a b, h.Above true a b → h.Knows b) ∧ h.Knows "I" ∧ h.lookup? "J" = some (.interface ["I"]) ∧
      ∃ answer, h.isAssignable "I" "J" = .ok answer ∧ SearchEnds h "J" true ["I"] ["I"] (.ok answer) := by
  intro h
  have hclosed : ∀ a b, h.Above true a b → h.Knows b := closed_of_classes (by decide)
  have hI : h.Knows "I" := ⟨.interface ["J"], by decide⟩
  have hJ : h.lookup? "J" = some (.interface ["I"]) := by decide
  obtain ⟨answer, hrun, -, hends, -⟩ := isAssignable_decides hclosed hI hJ
  exact ⟨hclosed, hI, hJ, answer, hrun, hends (by decide) (by decide)⟩

/-! ### Hierarchies with gaps -/

/-- If the hierarchy finds `sub` below `sup`, it can tell that `sup` is not below `sub`: it knows all that `sup` leads to. -/
def TellsApart (h : Hierarchy) (sub sup : String) : Prop :=
  h.isAssignable sub sup = .ok true →
    ¬ h.Assignable sup sub ∧ ∃ info, h.lookup? sub = some info ∧ ∀ m, h.Reaches info.isInterface sup m → h.Knows m

theorem isAssignable_eq_false_iff : h.isAssignable a b = .ok false ↔
    ¬ h.Assignable a b ∧ ∃ info, h.lookup? b = some info ∧ ∀ m, h.Reaches info.isInterface a m → h.Knows m := by
  constructor
  · intro hfalse
    rcases isAssignable_cases h a b with ⟨hrun, -⟩ | ⟨-, hno⟩ | ⟨name, hrun, -⟩
    · simp [hrun] at hfalse
    · exact hno
    · simp [hrun] at hfalse
  · rintro ⟨hno, info, hinfo, hkn⟩
    rcases isAssignable_cases h a b with ⟨-, hyes⟩ | ⟨hrun, -⟩ | ⟨name, -, hunknown, hname⟩
    · exact absurd hyes hno
    · exact hrun
    · refine absurd ?_ hunknown
      rcases hname with rfl | ⟨info', hinfo', hreach⟩
      · exact ⟨info, hinfo⟩
      · cases hinfo.symm.trans hinfo'
        exact hkn name hreach

/-- Two names that are unrelated meet in the root if one of them is an interface, and else where their super classes do. -/
theorem Chained.commonSuperClass_unrelated (hh : h.Chained) (hba : h.isAssignable b a = .ok false)
    (hab : h.isAssignable a b = .ok false) :
    ∃ r, h.commonSuperClass a b = .ok r ∧
      ((h.IsInterface a ∨ h.IsInterface b) ∧ r = objectClass ∨
        ¬ h.IsInterface a ∧ ¬ h.IsInterface b ∧ h.MeetAt a b r) := by
  obtain ⟨hnba, infoA, hA, hknownB⟩ := isAssignable_eq_false_iff.1 hba
  obtain ⟨hnab, infoB, hB, hknownA⟩ := isAssignable_eq_false_iff.1 hab
  have hgetA : h.get a = .ok infoA := by simp [get, hA]
  have hgetB : h.get b = .ok infoB := by simp [get, hB]
  unfold commonSuperClass
  simp only [hba, hab, hgetA, hgetB, bind, Except.bind, Bool.false_eq_true, if_false]
  split
  next hintf =>
    rw [Bool.or_eq_true] at hintf
    exact ⟨objectClass, rfl, .inl ⟨hintf.imp (⟨infoA, hA, ·⟩) (⟨infoB, hB, ·⟩), rfl⟩⟩
  next hclss =>
    obtain ⟨hflagA, hflagB⟩ : infoA.isInterface = false ∧ infoB.isInterface = false := by simpa using hclss
    have hclassA : ¬ h.IsInterface a := by simp [IsInterface, hA, hflagA]
    have hclassB : ¬ h.IsInterface b := by simp [IsInterface, hB, hflagB]
    rw [hflagB] at hknownA
    rw [hflagA] at hknownB
    obtain ⟨r, hrun, hmeet⟩ := hh.climb_meetAt hA hknownA hknownB
      (fun hreach => hnba (assignable_of_reaches ⟨infoA, hA⟩ hclassA hreach)) (Nat.le_succ_of_le (h.rank_le_size false a))
    exact ⟨r, hrun, .inr ⟨hclassA, hclassB, hmeet⟩⟩

/-- If the first question settles it, the second one is not asked. -/
theorem commonSuperClass_first (h : Hierarchy) (a b : String) :
    (h.isAssignable b a = .ok true → h.commonSuperClass a b = .ok a) ∧
      ∀ e, h.isAssignable b a = .error e → h.commonSuperClass a b = .error e := by
  constructor
  · intro hba
    simp [commonSuperClass, hba, bind, Except.bind, pure, Except.pure]
  · intro e hba
    simp [commonSuperClass, hba, bind, Except.bind]

theorem commonSuperClass_second (hba : h.isAssignable b a = .ok false) :
    (h.isAssignable a b = .ok true → h.commonSuperClass a b = .ok b) ∧
      ∀ e, h.isAssignable a b = .error e → h.commonSuperClass a b = .error e := by
  constructor
  · intro hab
    simp [commonSuperClass, hba, hab, bind, Except.bind, pure, Except.pure]
  · intro e hab
    simp [commonSuperClass, hba, hab, bind, Except.bind]

/-- **When the order of two names matters.** In a hierarchy that may have gaps, two names have the same common super class
in both orders, or none in both, exactly if the hierarchy tells the upper one from the lower one wherever it finds one below
the other. -/
theorem commonSuperClass_swap (hh : h.Chained) (a b : String) :
    ((∃ r, h.commonSuperClass a b = .ok r ∧ h.commonSuperClass b a = .ok r) ∨
      ((∃ e, h.commonSuperClass a b = .error e) ∧ ∃ e, h.commonSuperClass b a = .error e)) ↔
      a = b ∨ (h.TellsApart a b ∧ h.TellsApart b a) := by
  unfold TellsApart
  rw [← isAssignable_eq_false_iff, ← isAssignable_eq_false_iff]
  by_cases hsame : a = b
  · subst hsame
    have hself : h.commonSuperClass a a = .ok a := (commonSuperClass_first h a a).1 (by simp [isAssignable])
    exact iff_of_true (.inl ⟨a, hself, hself⟩) (.inl rfl)
  rcases isAssignable_cases h b a with ⟨hba, -⟩ | ⟨hba, -⟩ | ⟨m, hba, -⟩ <;>
    rcases isAssignable_cases h a b with ⟨hab, -⟩ | ⟨hab, -⟩ | ⟨n, hab, -⟩
  · simp [(commonSuperClass_first h a b).1 hba, (commonSuperClass_first h b a).1 hab, hab, hba, hsame, Ne.symm hsame]
  · simp [(commonSuperClass_first h a b).1 hba, (commonSuperClass_second hab).1 hba, hab, hba]
  · simp [(commonSuperClass_first h a b).1 hba, (commonSuperClass_first h b a).2 _ hab, hab, hba, hsame]
  · simp [(commonSuperClass_second hba).1 hab, (commonSuperClass_first h b a).1 hab, hab, hba]
  · -- neither is below the other: they meet in the same name, whichever of them climbs
    obtain ⟨r, hrun, hr⟩ := hh.commonSuperClass_unrelated hba hab
    obtain ⟨r', hrun', hr'⟩ := hh.commonSuperClass_unrelated hab hba
    have hmeet : r = r' := by
      rcases hr with ⟨hor, rfl⟩ | ⟨hclassA, hclassB, hmeet⟩ <;> rcases hr' with ⟨hor', rfl⟩ | ⟨hclassB', hclassA', hmeet'⟩
      · rfl
      · exact absurd hor (by tauto)
      · exact absurd hor' (by tauto)
      · exact hh.meetAt_unique hmeet hmeet'
    simp [hrun, hrun', hmeet, hab, hba]
  · simp [(commonSuperClass_second hba).2 _ hab, (commonSuperClass_first h b a).2 _ hab, hab, hba]
  · simp [(commonSuperClass_first h a b).2 _ hba, (commonSuperClass_first h b a).1 hab, hab, hba, hsame]
  · simp [(commonSuperClass_first h a b).2 _ hba, (commonSuperClass_second hab).2 _ hba, hab, hba]
  · simp [(commonSuperClass_first h a b).2 _ hba, (commonSuperClass_first h b a).2 _ hab, hab, hba]

/-- A class whose super class is not known, and a class below it: one order gives the upper class, the other one fails. -/
theorem commonSuperClass_swap_gap :
    let h : Hierarchy := ⟨[("A", .cls "Gone" []), ("B", .cls "A" [])]⟩
    h.Chained ∧ h.commonSuperClass "A" "B" = .ok "A" ∧ h.commonSuperClass "B" "A" = .error (.missingClass "Gone") ∧
      ¬ ("A" = "B" ∨ (h.TellsApart "A" "B" ∧ h.TellsApart "B" "A")) := by
  intro h
  have hh : h.Chained := by
    refine ⟨acyclic_of_classes (fun name => ["Gone", "A", "B"].idxOf name) (by decide), ?_, by decide⟩
    rintro a info b hinfo hsup ⟨info', hinfo', hflag⟩
    have hnone : ∀ e ∈ h.classes, e.2.isInterface = false := by decide
    exact Bool.false_ne_true ((hnone _ (mem_classes_of_lookup? hinfo')).symm.trans hflag)
  have hA : h.commonSuperClass "A" "B" = .ok "A" := by decide
  have hB : h.commonSuperClass "B" "A" = .error (.missingClass "Gone") := by decide
  refine ⟨hh, hA, hB, fun htells => ?_⟩
  have hsame := (commonSuperClass_swap hh "A" "B").2 htells
  simp [hA, hB] at hsame

end Hierarchy

end JvmAssembler
