import JvmAssembler.Proofs.ClassFile.Record
import JvmAssembler.Proofs.Parser

/-!
# JvmAssembler.Proofs.ClassFile.Closing

What is in a class file.

The attributes of a class are made at the end, from what the writer holds. `ClassStands` says that a layout is made of
what a record and the header say; each class that is written has such a layout (`layout_of_bytes`).
-/

namespace JvmAssembler

open Pool

namespace ClassWriter

/-! ### The attributes of a class -/

theorem interns_indexAttribute {n : Nat} {action : String → PoolM Nat} {entry : String → Entry} {name : String} (hn : n ≤ 5)
    (haction : ∀ text, Interns n Any (action text) fun i pool => pool.entry? i = some (entry text))
    (part : Nat → ClassPart) (htitle : ∀ i, Part.title (part i) = name) (hbody : ∀ i, Part.body (part i) = Bytes.u2 i)
    (text : Option String) :
    Interns 5 Any (indexAttribute name action text) fun as pool => ∃ row,
      Option.Rel (fun text i => pool.entry? i = some (entry text)) text row ∧ Encodes pool (row.toList.map part) as := by
  refine .bind ((interns_optional haction text).mono hn (fun _ h => h) fun _ _ h => h) fun row => ?_
  cases row with
  | none => exact .pure fun pool h => ⟨none, h, encodes_nil _⟩
  | some i =>
    refine .bind (.keeping (stays_rows entry text (some i)) (interns_namedAttribute _ _)) fun a => .pure fun pool h => ?_
    exact ⟨some i, h.1, encodes_one (part i) (htitle i ▸ h.2.1) (h.2.2.trans (hbody i).symm)⟩

theorem interns_tableAttribute {α : Type} {name : String} {row : α → List UInt8} (part : List α → ClassPart)
    (htitle : ∀ rows, Part.title (part rows) = name) (hbody : ∀ rows, Part.body (part rows) = Bytes.table row rows)
    (rows : List α) :
    Interns 5 Any (tableAttribute name row rows) fun as pool => Encodes pool (nonempty part rows) as := by
  unfold tableAttribute nonempty
  split
  · exact .pure fun pool _ => encodes_nil _
  · refine .bind (interns_namedAttribute _ _) fun a => .pure fun pool h => ?_
    exact encodes_one (part rows) (htitle rows ▸ h.1) (h.2.trans (hbody rows).symm)

end ClassWriter

namespace Pool

/-- What an operation keeps is known behind it. -/
theorem Interns.and_keeps {α : Type} {n : Nat} {P G : Pool → Prop} {x : PoolM α} {Q : α → Pool → Prop} (h : Interns n P x Q)
    (hkeeps : Keeps G x) (hG : ∀ pool, P pool → G pool) : Interns n P x fun a pool => Q a pool ∧ G pool := by
  intro pool hord hP
  have hends := h pool hord hP
  have hkept := hkeeps pool (hG pool hP)
  cases hrun : x pool with
  | error e pool' =>
    rw [hrun] at hends
    exact hends
  | ok a pool' =>
    rw [hrun] at hends hkept
    exact ⟨hends.1, hends.2.1, hends.2.2, hkept⟩

/-- Texts are not in the bootstrap table. -/
theorem keeps_bootstraps_utf8 (text : String) (rows : Array BootstrapEntry) :
    Keeps (fun pool : Pool => pool.bootstraps = rows) (utf8 text) := by
  have hinfo : Keeps (fun pool : Pool => pool.bootstraps = rows) (do
      let length := (Text.ModifiedUtf8.encode text).length
      if 65535 < length then throw (.invalidArgument (.textTooLong length))
      return CpInfo.utf8 text : PoolM CpInfo) := by
    dsimp only
    split
    · exact .throw_bind _ _
    · exact .pure _
  refine .bind .get fun pool => ?_
  cases pool.index.find? (.utf8 text) with
  | some i => exact .pure i
  | none =>
    refine .bind hinfo fun info => ?_
    intro pool' h
    unfold append
    dsimp only
    split
    · exact h
    · exact h

/-- The bootstrap table, as it is at the end. -/
theorem interns_bootstrapAttribute : Interns 5 Any bootstrapAttribute fun a pool =>
    Encodes pool (nonempty ClassPart.bootstrapMethods (pool.bootstraps.toList.map (·.row))) a.toList := by
  have hrest : ∀ rows : Array BootstrapEntry, Interns 5 (fun pool : Pool => pool.bootstraps = rows)
      (if rows.isEmpty then return none
      else do
        let a ← namedAttribute "BootstrapMethods" (Bytes.table (·.row.bytes) rows.toList)
        return some a) fun a pool =>
        Encodes pool (nonempty ClassPart.bootstrapMethods (pool.bootstraps.toList.map (·.row))) a.toList := by
    intro rows
    refine .ite (fun hemp => .pure fun pool hpool => ?_) fun hsome => ?_
    · rw [hpool, Array.isEmpty_iff.1 hemp]
      exact encodes_nil _
    · have hkeeps : ∀ name body, Keeps (fun pool : Pool => pool.bootstraps = rows) (namedAttribute name body) :=
        fun name _ => .bind (keeps_bootstraps_utf8 name rows) fun _ => .pure _
      have hnamed : Interns 5 (fun pool => pool.bootstraps = rows)
          (namedAttribute "BootstrapMethods" (Bytes.table (·.row.bytes) rows.toList)) fun a pool =>
          pool.entry? a.name = some (.utf8 "BootstrapMethods") ∧ a.body = Bytes.table (·.row.bytes) rows.toList :=
        (interns_namedAttribute _ _).mono (Nat.le_refl 5) (fun _ _ => trivial) fun _ _ h => h
      refine .bind (hnamed.and_keeps (hkeeps _ _) fun _ h => h) fun a => .pure fun pool h => ?_
      obtain ⟨⟨hname, hbody⟩, rfl⟩ := h
      have hrows : (pool.bootstraps.toList.map (·.row)).isEmpty = false := by
        rw [List.isEmpty_map, Array.isEmpty_toList]
        simpa using hsome
      rw [nonempty, hrows, if_neg (by simp)]
      exact encodes_one (ClassPart.bootstrapMethods _) hname (hbody.trans (table_map _ _ _).symm)
  intro pool hord _
  exact hrest pool.bootstraps pool hord rfl

end Pool

namespace ClassWriter

variable {w : ClassWriter} {r : Record}

def AttributesStand (pool : Pool) (r : Record) (inner : List InnerClassRow) (parts : List (Nat × ClassPart)) : Prop :=
  ∃ src sig host members,
    Option.Rel (fun text i => pool.entry? i = some (.utf8 text)) r.source src ∧
    Option.Rel (fun text i => pool.entry? i = some (.utf8 text)) r.signature sig ∧
    Option.Rel (fun name i => pool.entry? i = some (.cls name)) r.nestHost host ∧
    List.Forall₂ (fun name i => pool.entry? i = some (.cls name)) r.nestMembers members ∧
    Titled pool (src.toList.map .sourceFile ++ sig.toList.map .signature ++ nonempty .innerClasses inner ++
      host.toList.map .nestHost ++ nonempty .nestMembers members ++
      nonempty .bootstrapMethods (pool.bootstraps.toList.map (·.row))) parts

theorem interns_classAttributes (h : Holds w r) :
    Interns 5 Any w.classAttributes fun as pool => ∃ parts, as = parts.map Part.encoded ∧
      AttributesStand pool r w.innerClasses.toList parts := by
  have hrows : ∀ (entry : String → Entry) (part : Nat → ClassPart) text as, Stays fun pool => ∃ row : Option Nat,
      Option.Rel (fun text i => pool.entry? i = some (entry text)) text row ∧ Encodes pool (row.toList.map part) as := by
    rintro entry part text as n pool pool' hext ⟨row, hrow, hencodes⟩
    exact ⟨row, stays_rows _ _ _ n pool pool' hext hrow, stays_encodes _ _ n pool pool' hext hencodes⟩
  unfold classAttributes
  rw [h.sourceFile, h.signature, h.nestHost, h.nestMembers]
  refine .bind (interns_indexAttribute (by decide) interns_utf8 .sourceFile (fun _ => rfl) (fun _ => rfl) r.source)
    fun src => ?_
  refine .bind (.keeping (hrows _ _ _ src)
    (interns_indexAttribute (by decide) interns_utf8 .signature (fun _ => rfl) (fun _ => rfl) r.signature)) fun sig => ?_
  refine .bind (.keeping (stays_and (hrows _ _ _ src) (hrows _ _ _ sig))
    (interns_tableAttribute .innerClasses (fun _ => rfl) (fun _ => rfl) w.innerClasses.toList)) fun inner => ?_
  refine .bind (.keeping (stays_and (stays_and (hrows _ _ _ src) (hrows _ _ _ sig)) (stays_encodes _ inner))
    (interns_indexAttribute (by decide) interns_cls .nestHost (fun _ => rfl) (fun _ => rfl) r.nestHost)) fun host => ?_
  have hstays := stays_and (stays_and (stays_and (hrows .utf8 .sourceFile r.source src) (hrows .utf8 .signature r.signature sig))
    (stays_encodes (nonempty ClassPart.innerClasses w.innerClasses.toList) inner)) (hrows .cls .nestHost r.nestHost host)
  refine .bind (.keeping hstays (MethodWriter.interns_classes r.nestMembers)) fun rows => ?_
  have hstays := stays_and hstays (stays_forall₂ (fun (name : String) (i : Nat) => stays_entry i (.cls name)) r.nestMembers rows)
  refine .bind (.keeping hstays (interns_tableAttribute .nestMembers (fun _ => rfl) (fun _ => rfl) rows)) fun members => ?_
  have hstays := stays_and hstays (stays_encodes (nonempty ClassPart.nestMembers rows) members)
  refine .bind (.keeping hstays interns_bootstrapAttribute) fun bootstrap => .pure fun pool hpool => ?_
  obtain ⟨⟨⟨⟨⟨⟨⟨sourceRow, hsrc, hsources⟩, signatureRow, hsig, hsignatures⟩, hinner⟩, hostRow, hhost, hhosts⟩,
    hrows⟩, hmembers⟩, hboot⟩ := hpool
  obtain ⟨parts, hparts, htitled⟩ := ((((hsources.append hsignatures).append hinner).append hhosts).append hmembers).append
    hboot
  exact ⟨parts, hparts, sourceRow, signatureRow, hostRow, rows, hsrc, hsig, hhost, hrows, htitled⟩

/-- A class file is made of what was accepted. -/
structure ClassStands (w : ClassWriter) (r : Record) (pool : Pool) (c : ClassLayout) : Prop where
  orderly : pool.Orderly
  grows : Extends 5 w.pool pool
  version : c.version = w.version
  poolCount : c.poolCount = pool.count
  rows : c.pool = pool.bytes.toList
  flags : c.flags = w.flags
  thisClass : w.thisClass = some c.thisClass
  superClass : c.superClass = w.superClass
  interfaces : c.interfaces = w.interfaces.toList
  fields : List.Forall₂ (FieldStands pool) r.fields c.fields
  methods : List.Forall₂ (FinishedStands pool) r.methods c.methods
  innerClasses : List.Forall₂ (InnerStands pool) r.innerClasses w.innerClasses.toList
  attributes : AttributesStand pool r w.innerClasses.toList c.parts

theorem exists_layouts {α : Type} {kind : FlagKind} {R : α → MemberLayout kind → Prop} {as : List α}
    {members : List (Member kind)} (h : List.Forall₂ (Stored R) as members) :
    ∃ layouts, members = layouts.map MemberLayout.encoded ∧ List.Forall₂ R as layouts := by
  induction h with
  | nil => exact ⟨[], rfl, .nil⟩
  | cons hfst _ ih =>
    obtain ⟨m, rfl, hm⟩ := hfst
    obtain ⟨layouts, rfl, hlayouts⟩ := ih
    exact ⟨m :: layouts, rfl, .cons hm hlayouts⟩

/-- Each class that is written has a layout. -/
theorem layout_of_bytes (h : Holds w r) {bytes : List UInt8} (hbs : w.bytes = .ok bytes) :
    ∃ pool c, ClassStands w r pool c ∧ c.encoded.bytes = bytes := by
  obtain ⟨file, hfile, hbs⟩ := Success.bind_ok.1 hbs
  obtain rfl := Success.pure_ok.1 hbs
  unfold classFile at hfile
  dsimp only at hfile
  split at hfile
  · cases hfile
  · cases hthis : w.thisClass with
    | none =>
      rw [hthis] at hfile
      cases hfile
    | some this =>
      rw [hthis] at hfile
      have hends := interns_classAttributes h w.pool h.orderly trivial
      cases hrun : w.classAttributes w.pool with
      | error e pool =>
        rw [hrun] at hfile
        cases hfile
      | ok attributes pool =>
        rw [hrun] at hfile hends
        obtain ⟨hord, hext, parts, rfl, hattributes⟩ := hends
        cases hfile
        have hgr := h.grow hord hext
        obtain ⟨fields, hfields, hfieldsStand⟩ := exists_layouts hgr.fields
        obtain ⟨methods, hmeths, hmethodsStand⟩ := exists_layouts hgr.methods
        refine ⟨pool, ⟨w.version, pool.count, pool.bytes.toList, w.flags, this, w.superClass, w.interfaces.toList, fields,
          methods, parts⟩, ⟨hord, hext, rfl, rfl, rfl, rfl, hthis, rfl, rfl, hfieldsStand, hmethodsStand,
          hgr.innerClasses, hattributes⟩, ?_⟩
        rw [ClassLayout.encoded, ← hfields, ← hmeths]

end ClassWriter

end JvmAssembler
