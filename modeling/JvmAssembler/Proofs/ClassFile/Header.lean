import JvmAssembler.Proofs.ClassFile.Closing

/-!
# JvmAssembler.Proofs.ClassFile.Header

What rejected events leave in a class.

The fields, methods, inner classes and attributes of a class are those of the accepted steps (`ClassStands`). Its header is that
of the one `visit` that is accepted, except that each rejected one may leave interfaces: those in front of the name that it fails at.
-/

namespace JvmAssembler

open Success Pool

/-- What a `visit` says. -/
structure Header where
  version : Version
  flags : AccessFlags .ofClass
  name : String
  superClass : Option String
  interfaces : List String
  deriving DecidableEq

namespace ClassWriter

/-- The header in a step, if the step is accepted, or if it is rejected. -/
def headerIn (accepted : Bool) (w : ClassWriter) : ClassStep → List Header
  | .event (.visit version flags name superClass interfaces) =>
    if succeedsIn (fun _ => true) (send (.visit version flags name superClass interfaces) w) = accepted then
      [⟨version, flags, name, superClass, interfaces⟩]
    else []
  | _ => []

def headers (accepted : Bool) : List ClassStep → ClassWriter → List Header
  | [], _ => []
  | step :: steps, w => w.headerIn accepted step ++ headers accepted steps (stateAfter (step.run w))

/-- A row that names a class. -/
def Names (pool : Pool) (name : String) (i : Nat) : Prop := pool.entry? i = some (.cls name)

/-- A header as it is written stands for what was said, but for some interfaces in front. -/
structure HeaderStands (pool : Pool) (h : Header) (left : List String) (version : Version) (flags : AccessFlags .ofClass)
    (this sup : Option Nat) (interfaces : List Nat) : Prop where
  version : version = h.version
  flags : flags = h.flags
  thisClass : Option.Rel (Names pool) (some h.name) this
  superClass : Option.Rel (Names pool) h.superClass sup
  interfaces : List.Forall₂ (Names pool) (left ++ h.interfaces) interfaces

variable {w : ClassWriter} {pool : Pool} {good bad : List Header} {names : List String}

theorem names_later {pool' : Pool} {rows : List Nat} (hext : Extends 5 pool pool') (h : List.Forall₂ (Names pool) names rows) :
    List.Forall₂ (Names pool') names rows :=
  h.imp fun _ _ => hext.entry?

theorem stays_header {h : Header} {version : Version} {flags : AccessFlags .ofClass} {this sup : Option Nat} {rows : List Nat} :
    Stays fun pool => HeaderStands pool h names version flags this sup rows := by
  intro n pool pool' hext hstands
  exact { hstands with
    thisClass := stays_rows _ _ _ n _ _ hext hstands.thisClass
    superClass := stays_rows _ _ _ n _ _ hext hstands.superClass
    interfaces := stays_forall₂ (fun _ _ => stays_entry _ _) _ _ n _ _ hext hstands.interfaces }

/-- One header is accepted at most, and rejected ones leave interfaces only. -/
def Headed (good bad : List Header) (w : ClassWriter) : Prop :=
  w.pool.Orderly ∧ ∃ left, List.Forall₂ (fun names h => names <+: h.interfaces) left bad ∧
    (w.stage = .fresh ∧ good = [] ∧ List.Forall₂ (Names w.pool) left.flatten w.interfaces.toList ∨
      w.stage ≠ .fresh ∧ ∃ h, good = [h] ∧ HeaderStands w.pool h left.flatten w.version w.flags w.thisClass w.superClass
        w.interfaces.toList)

/-- What is not about the header leaves it as it is. -/
theorem Headed.follow {w' : ClassWriter} {r : Record} (h : Headed good bad w) (hf : Follows w w' r) : Headed good bad w' := by
  obtain ⟨-, left, hleft, hsaid⟩ := h
  obtain ⟨hstg, hsame⟩ := hf.header
  simp only [Prod.mk.injEq] at hsame
  obtain ⟨hver, hflags, hthis, hsup, hint⟩ := hsame
  refine ⟨hf.orderly, left, hleft, ?_⟩
  rw [ne_eq, hstg, hver, hflags, hthis, hsup, hint]
  obtain ⟨hfresh, hgood, hrows⟩ | ⟨hlate, header, hgood, hstands⟩ := hsaid
  · exact .inl ⟨hfresh, hgood, names_later hf.grows hrows⟩
  · exact .inr ⟨hlate, header, hgood, stays_header 5 _ _ hf.grows hstands⟩

/-! ### One step -/

theorem interfaces_outcome (interfaces : List String) (hord : w.pool.Orderly)
    (hrows : List.Forall₂ (Names w.pool) names w.interfaces.toList) :
    Outcome (fun _ w' => ∃ pool rows, w' = { w with pool := pool, interfaces := rows } ∧ pool.Orderly ∧
        Extends 5 w.pool pool ∧ List.Forall₂ (Names pool) (names ++ interfaces) rows.toList)
      (fun w' => w'.pool.Orderly ∧ w'.stage = w.stage ∧ ∃ left, left <+: interfaces ∧
        List.Forall₂ (Names w'.pool) (names ++ left) w'.interfaces.toList)
      ((interfaces.forM fun interface => do
        let index ← fromPool (Pool.cls interface)
        modify fun w => { w with interfaces := w.interfaces.push index } : ClassM Unit) w) := by
  induction interfaces generalizing w names with
  | nil => exact ⟨w.pool, w.interfaces, rfl, hord, .refl 5 _, by simpa using hrows⟩
  | cons interface interfaces ih =>
    rw [List.forM, bind_assoc]
    refine fromPool_bind (by decide) (interns_cls interface) hord
      (fun pool hp he => ⟨hp, rfl, [], List.nil_prefix, by simpa using names_later he hrows⟩) fun i pool hp he hi => ?_
    have hnext : List.Forall₂ (Names pool) (names ++ [interface]) (w.interfaces.push i).toList := by
      rw [Array.toList_push]
      exact List.rel_append (names_later he hrows) (.cons hi .nil)
    refine (ih (w := { w with pool := pool, interfaces := w.interfaces.push i }) hp hnext).mono ?_ ?_
    · rintro _ _ ⟨pool', rows, rfl, hp', he', hrows'⟩
      exact ⟨pool', rows, rfl, hp', he.trans he', by simpa using hrows'⟩
    · rintro w' ⟨hp', hstg, left, hleft, hrows'⟩
      exact ⟨hp', hstg, interface :: left, List.cons_prefix_cons.2 ⟨rfl, hleft⟩, by simpa using hrows'⟩

theorem visit_outcome (h : Header) (hord : w.pool.Orderly) (hrows : List.Forall₂ (Names w.pool) names w.interfaces.toList) :
    Outcome (fun _ w' => w'.pool.Orderly ∧ w'.stage = .open ∧ HeaderStands w'.pool h names w'.version
        w'.flags w'.thisClass w'.superClass w'.interfaces.toList)
      (fun w' => w'.pool.Orderly ∧ w'.stage = w.stage ∧ ∃ left, left <+: h.interfaces ∧
        List.Forall₂ (Names w'.pool) (names ++ left) w'.interfaces.toList)
      (visit h.version h.flags h.name h.superClass h.interfaces w) := by
  refine fromPool_bind (w := { w with
    version := h.version, flags := h.flags, name := h.name, info := ⟨h.superClass, h.interfaces, h.flags.isInterface⟩ })
    (by decide) (interns_cls h.name) hord
    (fun pool hp he => ⟨hp, rfl, [], List.nil_prefix, by simpa using names_later he hrows⟩) fun this pool₁ h₁ e₁ hthis => ?_
  have hrows₁ := names_later e₁ hrows
  refine fromPool_bind (by decide) (interns_optional interns_cls h.superClass) h₁
    (fun pool hp he => ⟨hp, rfl, [], List.nil_prefix, by simpa using names_later he hrows₁⟩)
    fun sup pool₂ h₂ e₂ hsup => ?_
  refine Outcome.bind (Q := fun _ w' => w' = _) rfl ?_
  rintro _ _ rfl
  refine Outcome.bind (interfaces_outcome h.interfaces h₂ (names_later e₂ hrows₁)) ?_
  rintro _ _ ⟨pool₃, rows, rfl, h₃, e₃, hrows₃⟩
  exact ⟨h₃, rfl, rfl, rfl, .some (Extends.entry? (e₂.trans e₃) hthis), stays_rows _ _ _ 5 _ _ e₃ hsup, hrows₃⟩

/-- A rejected `visit` leaves some interfaces, and one that comes too late none. -/
theorem headed_visit (h : Headed good bad w) (header : Header) :
    Outcome (fun _ => Headed (good ++ [header]) bad) (Headed good (bad ++ [header]))
      (send (.visit header.version header.flags header.name header.superClass header.interfaces) w) := by
  obtain ⟨hord, left, hleft, hsaid⟩ := h
  have hmore : ∀ names, names <+: header.interfaces →
      List.Forall₂ (fun names h => names <+: h.interfaces) (left ++ [names]) (bad ++ [header]) :=
    fun names hnames => List.rel_append hleft (.cons hnames .nil)
  refine Outcome.bind ((require_outcome _ _ w).mono (fun _ _ h => h) ?_) ?_
  · rintro _ ⟨rfl, hstg⟩
    obtain ⟨hfresh, -⟩ | ⟨-, h, hgood, hstands⟩ := hsaid
    · exact absurd hfresh hstg
    · exact ⟨hord, _, hmore [] List.nil_prefix, .inr ⟨hstg, h, hgood, by simpa using hstands⟩⟩
  · rintro _ _ ⟨rfl, hstg⟩
    obtain ⟨-, rfl, hrows⟩ | ⟨hlate, -⟩ := hsaid
    · refine (visit_outcome header hord hrows).mono ?_ ?_
      · rintro _ w' ⟨hord', hstg', hstands⟩
        exact ⟨hord', left, hleft, .inr ⟨by simp [hstg'], header, rfl, hstands⟩⟩
      · rintro w' ⟨hord', hstg', names, hnames, hrows'⟩
        exact ⟨hord', _, hmore names hnames, .inl ⟨hstg'.trans hstg, rfl, by simpa using hrows'⟩⟩
    · exact absurd hstg hlate

theorem headed_step {r : Record} (hw : Holds w r) (h : Headed good bad w) (step : ClassStep) :
    Headed (good ++ w.headerIn true step) (bad ++ w.headerIn false step) (stateAfter (step.run w)) := by
  unfold headerIn
  split
  · rename_i version flags name sup interfaces
    have hout := headed_visit h ⟨version, flags, name, sup, interfaces⟩
    simp only [ClassStep.run]
    cases hrun : send (.visit version flags name sup interfaces) w with
    | ok u w' =>
      rw [hrun] at hout
      simpa [succeedsIn, stateAfter, Outcome] using hout
    | error e w' =>
      rw [hrun] at hout
      simpa [succeedsIn, stateAfter, Outcome] using hout
  · rename_i hvisit
    rw [List.append_nil, List.append_nil]
    refine h.follow (step_follows hw step ?_)
    unfold ClassStep.isVisit
    split
    · exact absurd rfl (hvisit _ _ _ _ _)
    · rfl

/-! ### All steps -/

theorem headed_proceed {r : Record} (steps : List ClassStep) (hw : Holds w r) (h : Headed good bad w) :
    Headed (good ++ headers true steps w) (bad ++ headers false steps w) (proceed steps (w, r)).1 := by
  induction steps generalizing w good bad r with
  | nil => simpa [headers, proceed] using h
  | cons step steps ih => simpa [headers, proceed] using ih (step_holds hw step) (headed_step hw h step)

/-- Rejected events leave nothing in a class but rows of the pool, and interfaces: those that a rejected `visit` names before the
one that it fails at. -/
theorem class_of_accepted {compute : Compute} {hierarchy : Hierarchy} {steps : List ClassStep} {bytes : List UInt8}
    (hbytes : (afterAll compute hierarchy steps).1.bytes = .ok bytes) :
    ∃ header left pool c, headers true steps (start compute hierarchy) = [header] ∧
      List.Forall₂ (fun names h => names <+: h.interfaces) left (headers false steps (start compute hierarchy)) ∧
      ClassStands (afterAll compute hierarchy steps).1 (afterAll compute hierarchy steps).2 pool c ∧
      HeaderStands pool header left.flatten c.version c.flags (some c.thisClass) c.superClass c.interfaces ∧
      c.encoded.bytes = bytes := by
  obtain ⟨pool, c, hstands, hlayout⟩ := layout_of_bytes (holds_afterAll compute hierarchy steps) hbytes
  have hstart : Headed [] [] (start compute hierarchy) := ⟨orderly_empty, [], .nil, .inl ⟨rfl, rfl, .nil⟩⟩
  obtain ⟨-, left, hleft, ⟨hfresh, -⟩ | ⟨-, header, hgood, hheader⟩⟩ := headed_proceed steps (holds_start compute hierarchy) hstart
  · -- a class without a header is not written
    have hended : (afterAll compute hierarchy steps).1.stage = .ended := by
      obtain ⟨file, hfile, -⟩ := bind_ok.1 hbytes
      by_contra hstg
      rw [classFile, if_pos hstg] at hfile
      cases hfile
    cases hfresh.symm.trans hended
  · refine ⟨header, left, pool, c, hgood, hleft, hstands, ?_, hlayout⟩
    rw [hstands.version, hstands.flags, ← hstands.thisClass, hstands.superClass, hstands.interfaces]
    exact stays_header 5 _ _ hstands.grows hheader

theorem class_of_accepted_late :
    let steps : List ClassStep := [.event (.visit .default .empty "A" none ["J"]), .event (.visit .default .empty "B" none ["I"]),
      .event .finish]
    ∃ bytes header left pool, ∃ c : ClassLayout, (afterAll .maxs .empty steps).1.bytes = .ok bytes ∧
      headers true steps (start .maxs .empty) = [header] ∧
      List.Forall₂ (fun names h => names <+: h.interfaces) left (headers false steps (start .maxs .empty)) ∧
      HeaderStands pool header left.flatten c.version c.flags (some c.thisClass) c.superClass c.interfaces ∧
      c.encoded.bytes = bytes := by
  intro steps
  have hwritten : (afterAll .maxs .empty steps).1.bytes.toBool = true := by decide +kernel
  obtain ⟨bytes, hbytes⟩ := ok_of_toBool hwritten
  obtain ⟨header, left, pool, c, hgood, hleft, -, hheader, hlayout⟩ := class_of_accepted hbytes
  exact ⟨bytes, header, left, pool, c, hbytes, hgood, hleft, hheader, hlayout⟩

end ClassWriter

end JvmAssembler
