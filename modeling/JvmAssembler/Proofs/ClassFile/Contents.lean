import JvmAssembler.Proofs.Bookkeeping
import JvmAssembler.Proofs.ClassFile.Layout

/-!
# JvmAssembler.Proofs.ClassFile.Contents

What is written of a method that is finished.

The attributes of a method are made from what its writer holds at the end. They refer to the pool by index: `CodeStands`
and `MethodStands` say that each index leads to what was given, and each position to where the label was placed. More
rows in the pool do not change this.
-/

namespace JvmAssembler

open Success

open Pool

/-! ### Attributes and their names -/

/-- Attributes with given bodies, whose names are rows of the pool. -/
def Titled {β : Type} [Part β] (pool : Pool) (bodies : List β) (parts : List (Nat × β)) : Prop :=
  List.Forall₂ (fun b a => pool.entry? a.1 = some (.utf8 (Part.title b)) ∧ a.2 = b) bodies parts

theorem stays_forall₂ {α β : Type} {R : Pool → α → β → Prop} (h : ∀ a b, Stays fun pool => R pool a b) (as : List α)
    (bs : List β) : Stays fun pool => List.Forall₂ (R pool) as bs :=
  fun n pool pool' hext hall => hall.imp fun a b hab => h a b n pool pool' hext hab

theorem stays_optionRel {α β : Type} {R : Pool → α → β → Prop} (h : ∀ a b, Stays fun pool => R pool a b) (a : Option α)
    (b : Option β) : Stays fun pool => Option.Rel (R pool) a b := by
  intro n pool pool' hext hrel
  cases hrel with
  | none => exact .none
  | some hab => exact .some (h _ _ n pool pool' hext hab)

theorem stays_and {P Q : Pool → Prop} (hP : Stays P) (hQ : Stays Q) : Stays fun pool => P pool ∧ Q pool :=
  fun n pool pool' hext h => ⟨hP n pool pool' hext h.1, hQ n pool pool' hext h.2⟩

theorem stays_const (p : Prop) : Stays fun _ => p := fun _ _ _ _ h => h

theorem stays_titled {β : Type} [Part β] (bodies : List β) (parts : List (Nat × β)) :
    Stays fun pool => Titled pool bodies parts :=
  stays_forall₂ (fun _ _ => stays_and (stays_entry _ _) (stays_const _)) bodies parts

theorem Titled.append {β : Type} [Part β] {pool : Pool} {bodies bodies' : List β} {parts parts' : List (Nat × β)}
    (h : Titled pool bodies parts) (h' : Titled pool bodies' parts') : Titled pool (bodies ++ bodies') (parts ++ parts') :=
  List.rel_append h h'

theorem Titled.length_eq {β : Type} [Part β] {pool : Pool} {bodies : List β} {parts : List (Nat × β)}
    (h : Titled pool bodies parts) : parts.length = bodies.length := (List.Forall₂.length_eq h).symm

def nonempty {α β : Type} (make : List α → β) (rows : List α) : List β := if rows.isEmpty then [] else [make rows]

theorem length_nonempty_le {α β : Type} (make : List α → β) (rows : List α) : (nonempty make rows).length ≤ 1 := by
  unfold nonempty
  split <;> simp

namespace Pool

theorem interns_namedAttribute (name : String) (body : List UInt8) :
    Interns 5 Any (namedAttribute name body) fun a pool => pool.entry? a.name = some (.utf8 name) ∧ a.body = body :=
  .bind ((interns_utf8 name).mono (by decide) (fun _ h => h) fun _ _ h => h) fun _ => .pure fun _ h => ⟨h, rfl⟩

def Encodes {β : Type} [Part β] (pool : Pool) (bodies : List β) (attributes : List Attribute) : Prop :=
  ∃ parts : List (Nat × β), attributes = parts.map Part.encoded ∧ Titled pool bodies parts

theorem stays_encodes {β : Type} [Part β] (bodies : List β) (attributes : List Attribute) :
    Stays fun pool => Encodes pool bodies attributes := by
  rintro n pool pool' hext ⟨parts, heq, htitled⟩
  exact ⟨parts, heq, stays_titled bodies parts n pool pool' hext htitled⟩

theorem encodes_nil {β : Type} [Part β] (pool : Pool) : Encodes pool ([] : List β) [] := ⟨[], rfl, .nil⟩

theorem Encodes.append {β : Type} [Part β] {pool : Pool} {bodies bodies' : List β} {as as' : List Attribute}
    (h : Encodes pool bodies as) (h' : Encodes pool bodies' as') : Encodes pool (bodies ++ bodies') (as ++ as') := by
  obtain ⟨parts, rfl, htitled⟩ := h
  obtain ⟨parts', rfl, htitled'⟩ := h'
  exact ⟨parts ++ parts', List.map_append.symm, htitled.append htitled'⟩

theorem encodes_one {β : Type} [Part β] {pool : Pool} (b : β) {a : Attribute}
    (hname : pool.entry? a.name = some (.utf8 (Part.title b))) (hbody : a.body = Part.body b) : Encodes pool [b] [a] := by
  refine ⟨[(a.name, b)], ?_, .cons ⟨hname, rfl⟩ .nil⟩
  rw [List.map_singleton, Part.encoded, ← hbody]

end Pool

theorem StackMap.mapM_bytes_ok {frames : List StackMapFrame} {texts : List (List UInt8)}
    (h : frames.mapM StackMapFrame.bytes = .ok texts) :
    texts = frames.map StackMapFrame.text ∧ ∀ frame ∈ frames, frame.bytes = .ok frame.text := by
  induction frames generalizing texts with
  | nil =>
    obtain rfl := pure_ok.1 h
    simp
  | cons frame frames ih =>
    rw [List.mapM_cons] at h
    obtain ⟨text, htext, h⟩ := bind_ok.1 h
    obtain ⟨rest, hrest, h⟩ := bind_ok.1 h
    obtain rfl := pure_ok.1 h
    obtain ⟨rfl, hlater⟩ := ih hrest
    have hfst : frame.text = text := by
      rw [StackMapFrame.text, htext]
      rfl
    refine ⟨by rw [List.map_cons, hfst], fun f hf => ?_⟩
    rcases List.mem_cons.1 hf with rfl | hf
    · rw [hfst]
      exact htext
    · exact hlater f hf

/-- What is written of frames that can be written. -/
theorem StackMap.tableBytes_ok {frames : List StackMapFrame} {bytes : List UInt8} (h : tableBytes frames = .ok bytes) :
    bytes = Bytes.table StackMapFrame.text frames ∧ ∀ frame ∈ frames, frame.bytes = .ok frame.text := by
  obtain ⟨texts, htexts, h⟩ := bind_ok.1 h
  obtain ⟨rfl, hwritable⟩ := mapM_bytes_ok htexts
  refine ⟨?_, hwritable⟩
  rw [← pure_ok.1 h, Bytes.table, List.flatMap_def]

namespace MethodWriter

/-! ### Asking the pool and nothing else -/

/-- Steps of a method with an orderly pool change nothing but the pool, and where they succeed the result has a property. -/
def Asks {α : Type} (w : MethodWriter) (pool : Pool) (m : MethodM α) (Q : α → Pool → Prop) : Prop :=
  pool.Orderly → Outcome
    (fun a w' => ∃ pool', w' = { w with pool := pool' } ∧ pool'.Orderly ∧ Extends 5 pool pool' ∧ Q a pool')
    (fun w' => ∃ pool', w' = { w with pool := pool' } ∧ pool'.Orderly ∧ Extends 5 pool pool') (m { w with pool := pool })

namespace Asks

variable {α β : Type} {w : MethodWriter} {pool : Pool}

variable {Q : α → Pool → Prop} {f : α → MethodM β} {x : MethodM α}

theorem pure {a : α} (h : Q a pool) : Asks w pool (Pure.pure a) Q := by
  intro hord
  exact ⟨pool, rfl, hord, .refl 5 _, h⟩

theorem throw (e : Error) : Asks w pool (MonadExcept.throw e) Q := by
  intro hord
  exact ⟨pool, rfl, hord, .refl 5 _⟩

theorem throw_bind (e : Error) (f : α → MethodM β) {Q : β → Pool → Prop} : Asks w pool (MonadExcept.throw e >>= f) Q := by
  intro hord
  exact ⟨pool, rfl, hord, .refl 5 _⟩

theorem get_bind {f : MethodWriter → MethodM β} {Q : β → Pool → Prop} (h : Asks w pool (f { w with pool := pool }) Q) :
    Asks w pool (get >>= f) Q := h

theorem bind {R : β → Pool → Prop} (hx : Asks w pool x Q)
    (hf : ∀ a pool', Extends 5 pool pool' → Q a pool' → Asks w pool' (f a) R) : Asks w pool (x >>= f) R := by
  intro hord
  refine Outcome.bind (hx hord) ?_
  rintro a w' ⟨pool', rfl, hpool', hext, hQ⟩
  refine (hf a pool' hext hQ hpool').mono ?_ ?_
  · rintro b w'' ⟨pool'', rfl, hpool'', hext', hR⟩
    exact ⟨pool'', rfl, hpool'', hext.trans hext', hR⟩
  · rintro w'' ⟨pool'', rfl, hpool'', hext'⟩
    exact ⟨pool'', rfl, hpool'', hext.trans hext'⟩

theorem fromPool {n : Nat} {action : PoolM α} (hn : n ≤ 5) (h : Interns n Any action Q) :
    Asks w pool (fromPool action) Q := by
  intro hord
  have hends := h pool hord trivial
  unfold MethodWriter.fromPool
  dsimp only
  cases hrun : action pool with
  | ok a pool' =>
    rw [hrun] at hends
    exact ⟨pool', rfl, hends.1, hends.2.1.mono hn, hends.2.2⟩
  | error e pool' =>
    rw [hrun] at hends
    exact ⟨pool', rfl, hends.1, hends.2.mono hn⟩

theorem map (h : Asks w pool x Q) (g : α → β) :
    Asks w pool (g <$> x) fun b pool => ∃ a, b = g a ∧ Q a pool := by
  rw [map_eq_pure_bind]
  exact .bind h fun a pool' _ ha => .pure ⟨a, rfl, ha⟩

/-- Results for several items, one after the other. -/
theorem mapM {Q : α → β → Pool → Prop} (hstays : ∀ a b, Stays (Q a b)) (as : List α) (hf : ∀ a pool, Asks w pool (f a) (Q a)) :
    Asks w pool (as.mapM f) fun bs pool => List.Forall₂ (fun a b => Q a b pool) as bs := by
  induction as generalizing pool with
  | nil => exact .pure .nil
  | cons a as ih =>
    rw [List.mapM_cons]
    refine .bind (hf a pool) fun b pool' hext hb => ?_
    refine .bind ih fun bs pool'' hext' hbs => .pure ?_
    exact .cons (hstays a b 5 _ _ hext' hb) hbs

/-- What follows such steps. -/
theorem outcome {R : β → MethodWriter → Prop} {E : MethodWriter → Prop} (hx : Asks w pool x Q) (hord : pool.Orderly)
    (hE : ∀ pool', pool'.Orderly → Extends 5 pool pool' → E { w with pool := pool' })
    (hf : ∀ a pool', pool'.Orderly → Extends 5 pool pool' → Q a pool' → Outcome R E (f a { w with pool := pool' })) :
    Outcome R E ((x >>= f) { w with pool := pool }) := by
  refine Outcome.bind ((hx hord).mono (fun _ _ h => h) ?_) ?_
  · rintro w' ⟨pool', rfl, hpool', hext⟩
    exact hE pool' hpool' hext
  · rintro a w' ⟨pool', rfl, hpool', hext, hQ⟩
    exact hf a pool' hpool' hext hQ

end Asks

variable {w : MethodWriter} {pool : Pool}

theorem asks_labelPosition (label : Label) :
    Asks w pool (labelPosition label) fun p _ => w.labels.position? label = some p := by
  refine .get_bind ?_
  dsimp only
  cases hpos : w.labels.position? label with
  | none => exact .throw _
  | some p => exact .pure rfl

/-! ### The tables of a body -/

/-- A row of the exception table stands for a handler. -/
structure HandlerRow (labels : LabelTable) (pool : Pool) (h : Handler Label) (row : ExceptionRow) : Prop where
  start : labels.position? h.start = some row.start
  stop : labels.position? h.stop = some row.stop
  handler : labels.position? h.handler = some row.handler
  catchType : Option.Rel (fun name i => pool.entry? i = some (.cls name)) h.catchType row.catchType

theorem stays_handlerRow (labels : LabelTable) (h : Handler Label) (row : ExceptionRow) :
    Stays fun pool => HandlerRow labels pool h row := by
  intro n pool pool' hext hrow
  exact { hrow with catchType := stays_optionRel (fun _ _ => stays_entry _ _) _ _ n pool pool' hext hrow.catchType }

theorem asks_exceptionRow (h : Handler Label) :
    Asks w pool (exceptionRow h) fun row pool => HandlerRow w.labels pool h row := by
  have hpls : ∀ (catchType : Option Nat) (pool : Pool),
      Option.Rel (fun name i => pool.entry? i = some (.cls name)) h.catchType catchType →
      Asks w pool (do
        return ⟨← labelPosition h.start, ← labelPosition h.stop, ← labelPosition h.handler, catchType⟩)
        fun row pool => HandlerRow w.labels pool h row := by
    intro catchType pool hcatch
    refine .bind (asks_labelPosition _) fun start pool₁ hext₁ hst => ?_
    refine .bind (asks_labelPosition _) fun stop pool₂ hext₂ hstop => ?_
    refine .bind (asks_labelPosition _) fun handler pool₃ hext₃ hhandler => .pure ?_
    have hlater := (hext₁.trans hext₂).trans hext₃
    exact ⟨hst, hstop, hhandler, stays_optionRel (fun _ _ => stays_entry _ _) _ _ 5 _ _ hlater hcatch⟩
  unfold exceptionRow
  cases hcatch : h.catchType with
  | none => exact hpls none pool (by rw [hcatch]; exact .none)
  | some name =>
    refine .bind (Asks.map (.fromPool (by decide) (interns_cls name)) some) fun row pool' _ hrow => ?_
    obtain ⟨i, rfl, hi⟩ := hrow
    exact hpls (some i) pool' (by rw [hcatch]; exact .some hi)

/-- A row of a local variable table stands for a scope, with its descriptor or its signature. -/
structure ScopeRow (labels : LabelTable) (pool : Pool) (s : LocalScope Label) (text : String) (row : LocalRow) : Prop where
  start : labels.position? s.start = some row.start
  stop : ∃ stop, labels.position? s.stop = some stop ∧ row.length = stop - row.start
  name : pool.entry? row.name = some (.utf8 s.name)
  descriptor : pool.entry? row.descriptor = some (.utf8 text)
  index : row.index = s.index

theorem stays_scopeRow (labels : LabelTable) (s : LocalScope Label) (text : String) (row : LocalRow) :
    Stays fun pool => ScopeRow labels pool s text row := by
  intro n pool pool' hext hrow
  exact { hrow with name := hext.entry? hrow.name, descriptor := hext.entry? hrow.descriptor }

def ScopeRows (labels : LabelTable) (pool : Pool) (s : LocalScope Label) (rows : LocalRow × Option LocalRow) : Prop :=
  ScopeRow labels pool s s.descriptor rows.1 ∧ Option.Rel (fun text row => ScopeRow labels pool s text row) s.signature rows.2

theorem asks_localRows (s : LocalScope Label) :
    Asks w pool (localRows s) fun rows pool => ScopeRows w.labels pool s rows := by
  refine .bind (asks_labelPosition _) fun start pool₁ _ hst => ?_
  refine .bind (asks_labelPosition _) fun stop pool₂ _ hstop => ?_
  refine .bind (.fromPool (by decide) (interns_utf8 s.name)) fun name pool₃ _ hname => ?_
  refine .bind (.fromPool (by decide) (interns_utf8 s.descriptor)) fun desc pool₄ hext₄ hdesc => ?_
  have hrow : ScopeRow w.labels pool₄ s s.descriptor ⟨start, stop - start, name, desc, s.index⟩ :=
    ⟨hst, ⟨stop, hstop, rfl⟩, hext₄.entry? hname, hdesc, rfl⟩
  dsimp only
  cases hsig : s.signature with
  | none => exact .pure ⟨hrow, by rw [hsig]; exact .none⟩
  | some text =>
    refine .bind (.fromPool (by decide) (interns_utf8 text)) fun sig pool₅ hext₅ htext => .pure ?_
    have hrow₅ := stays_scopeRow _ _ _ _ 5 _ _ hext₅ hrow
    exact ⟨hrow₅, by rw [hsig]; exact .some { hrow₅ with descriptor := htext }⟩

def LineStands (labels : LabelTable) (line : Label × UInt16) (row : LineRow) : Prop :=
  labels.position? line.1 = some row.start ∧ row.line = line.2

theorem asks_lineRow (line : Label × UInt16) :
    Asks w pool (lineRow line) fun row _ => LineStands w.labels line row :=
  .bind (asks_labelPosition _) fun _ _ _ hp => .pure ⟨hp, rfl⟩

/-- A table as an attribute of a body. -/
theorem asks_tableAttribute {α : Type} (make : List α → CodePart) {row : α → List UInt8} {name : String}
    (hmake : ∀ rows, Part.title (make rows) = name ∧ Part.body (make rows) = Bytes.table row rows) (rows : List α) :
    Asks w pool (tableAttribute name row rows) fun as pool => Encodes pool (nonempty make rows) as := by
  unfold tableAttribute nonempty
  split
  · exact .pure (encodes_nil _)
  · refine .bind (.fromPool (Nat.le_refl 5) (interns_namedAttribute _ _)) fun a pool' _ ha => .pure ?_
    exact encodes_one _ (by rw [(hmake rows).1]; exact ha.1) (by rw [(hmake rows).2]; exact ha.2)

/-! ### The stack map -/

def storedFrames (w : MethodWriter) : List CodePart :=
  match w.stackMap with
  | none => []
  | some map => if map.frames.isEmpty || !Version.stackMaps.le w.context.version then [] else [.stackMap map.frames.toList]

theorem storedFrames_cases (w : MethodWriter) :
    w.storedFrames = [] ∨ ∃ map, w.stackMap = some map ∧ w.storedFrames = [.stackMap map.frames.toList] := by
  unfold storedFrames
  split
  · exact .inl rfl
  · split
    · exact .inl rfl
    · exact .inr ⟨_, ‹_›, rfl⟩

/-- Every frame among some attributes can be written. -/
def Writable (parts : List CodePart) : Prop := ∀ frames, .stackMap frames ∈ parts → ∀ f ∈ frames, f.bytes = .ok f.text

theorem asks_stackMapAttribute :
    Asks w pool stackMapAttribute fun as pool => Encodes pool w.storedFrames as ∧ Writable w.storedFrames := by
  have hnone : Encodes pool ([] : List CodePart) [] ∧ Writable [] := ⟨encodes_nil _, by simp [Writable]⟩
  refine .get_bind ?_
  unfold storedFrames
  cases w.stackMap with
  | none => exact .pure hnone
  | some map =>
    dsimp only
    split
    · exact .pure hnone
    · refine .bind (.fromPool (by decide) (interns_utf8 _)) fun name pool' _ hname => ?_
      cases hbytes : StackMap.tableBytes map.frames.toList with
      | error fault => exact .throw _
      | ok bytes =>
        obtain ⟨rfl, hwritable⟩ := StackMap.tableBytes_ok hbytes
        refine .pure ⟨encodes_one _ hname rfl, fun frames hfrs => ?_⟩
        cases List.mem_singleton.1 hfrs
        exact hwritable

/-! ### The body -/

/-- The body of a method as it is written stands for what its writer holds. -/
structure CodeStands (w : MethodWriter) (pool : Pool) (c : CodeLayout) : Prop where
  maxStack : c.maxStack = w.maxStack
  maxLocals : c.maxLocals = w.maxLocals
  code : c.code = w.code.toList
  exceptions : List.Forall₂ (HandlerRow w.labels pool) w.handlers.toList c.exceptions
  parts : ∃ locals lines, List.Forall₂ (ScopeRows w.labels pool) w.locals.toList locals ∧
    List.Forall₂ (LineStands w.labels) w.lines.toList lines ∧
    Titled pool (nonempty .scopes (locals.map (·.1)) ++ nonempty .scopeTypes (locals.filterMap (·.2)) ++
      nonempty .lines lines ++ w.storedFrames) c.parts
  writable : Writable w.storedFrames
  slots : w.maxStack ≤ 65535 ∧ w.maxLocals ≤ 65535

theorem stays_scopeRows (labels : LabelTable) (s : LocalScope Label) (rows : LocalRow × Option LocalRow) :
    Stays fun pool => ScopeRows labels pool s rows :=
  stays_and (stays_scopeRow _ _ _ _) (stays_optionRel (fun _ _ => stays_scopeRow _ _ _ _) _ _)

theorem stays_codeStands (w : MethodWriter) (c : CodeLayout) : Stays fun pool => CodeStands w pool c := by
  intro n pool pool' hext h
  obtain ⟨locals, lines, hloc, hlines, htitled⟩ := h.parts
  exact { h with
    exceptions := stays_forall₂ (stays_handlerRow w.labels) _ _ n pool pool' hext h.exceptions
    parts := ⟨locals, lines, stays_forall₂ (stays_scopeRows w.labels) _ _ n pool pool' hext hloc, hlines,
      stays_titled _ _ n pool pool' hext htitled⟩ }

theorem asks_checkSlots : Asks w pool checkSlots fun _ _ => w.maxStack ≤ 65535 ∧ w.maxLocals ≤ 65535 := by
  refine .get_bind ?_
  dsimp only
  split
  · exact .throw_bind _ _
  · split
    · exact .throw _
    · exact .pure ⟨Nat.le_of_not_lt ‹_›, Nat.le_of_not_lt ‹_›⟩

/-- **The code attribute** stands for what the writer holds. -/
theorem asks_codeAttribute :
    Asks w pool codeAttribute fun a pool => ∃ c, CodeStands w pool c ∧ Encodes pool [MemberPart.code c] [a] := by
  refine .bind asks_checkSlots fun _ pool₁ _ hsl => .get_bind ?_
  refine .bind (.mapM (fun h row => stays_handlerRow w.labels h row) _ fun h pool => asks_exceptionRow h)
    fun excs pool₂ _ hexc => .get_bind ?_
  refine .bind (.mapM (fun s rows => stays_scopeRows w.labels s rows) _ fun s pool => asks_localRows s)
    fun locals pool₃ hext₃ hloc => ?_
  refine .bind (asks_tableAttribute .scopes (fun _ => ⟨rfl, rfl⟩) _) fun scopes pool₄ hext₄ hscopes => ?_
  refine .bind (asks_tableAttribute .scopeTypes (fun _ => ⟨rfl, rfl⟩) _) fun types pool₅ hext₅ htypes => .get_bind ?_
  refine .bind (.mapM (fun line row => stays_const (LineStands w.labels line row)) _ fun line pool => asks_lineRow line)
    fun lines pool₆ hext₆ hlines => ?_
  refine .bind (asks_tableAttribute .lines (fun _ => ⟨rfl, rfl⟩) _) fun lineTable pool₇ hext₇ hlineTable => ?_
  refine .bind asks_stackMapAttribute fun stackMap pool₈ hext₈ hstackMap => .get_bind ?_
  -- whatever was found stays found while the later attributes are made
  have hfrom₅ := (hext₆.trans hext₇).trans hext₈
  have hfrom₃ := (hext₄.trans hext₅).trans hfrom₅
  obtain ⟨parts, hparts, htitled⟩ := (((stays_encodes _ _ 5 _ _ (hext₅.trans hfrom₅) hscopes).append
    (stays_encodes _ _ 5 _ _ hfrom₅ htypes)).append (stays_encodes _ _ 5 _ _ hext₈ hlineTable)).append hstackMap.1
  have hstd : CodeStands w pool₈ ⟨w.maxStack, w.maxLocals, w.code.toList, excs, parts⟩ :=
    { maxStack := rfl
      maxLocals := rfl
      code := rfl
      exceptions := stays_forall₂ (stays_handlerRow w.labels) _ _ 5 _ _ (hext₃.trans hfrom₃) hexc
      parts := ⟨locals, lines, stays_forall₂ (stays_scopeRows w.labels) _ _ 5 _ _ hfrom₃ hloc, hlines, htitled⟩
      writable := hstackMap.2
      slots := hsl }
  rw [hparts]
  have hnamed := @Asks.fromPool _ w pool₈ _ _ _ (Nat.le_refl 5) (interns_namedAttribute "Code"
    (CodeBody.bytes ⟨w.maxStack, w.maxLocals, w.code.toList, excs, parts.map Part.encoded⟩))
  intro hord
  refine (hnamed hord).mono ?_ fun _ h => h
  rintro a w' ⟨pool', rfl, hpool', hext, hname, hbody⟩
  exact ⟨pool', rfl, hpool', hext, _, stays_codeStands w _ 5 _ _ hext hstd, encodes_one _ hname hbody⟩

/-! ### The method -/

/-- A method as it is written stands for its header and its body. -/
structure MethodStands (pool : Pool) (d : Declaration) (body : Option CodeLayout) (m : MemberLayout .ofMethod) : Prop where
  flags : m.flags = d.flags
  name : pool.entry? m.name = some (.utf8 d.name)
  descriptor : pool.entry? m.descriptor = some (.utf8 d.descriptor)
  parts : ∃ exceptions signature,
    List.Forall₂ (fun name i => pool.entry? i = some (.cls name)) d.exceptions exceptions ∧
    Option.Rel (fun text i => pool.entry? i = some (.utf8 text)) d.signature signature ∧
    Titled pool (body.toList.map .code ++ nonempty .exceptions exceptions ++ signature.toList.map .signature) m.parts

theorem stays_methodStands (d : Declaration) (body : Option CodeLayout) (m : MemberLayout .ofMethod) :
    Stays fun pool => MethodStands pool d body m := by
  intro n pool pool' hext h
  obtain ⟨excs, sig, hexc, hsig, htitled⟩ := h.parts
  exact {
    flags := h.flags
    name := hext.entry? h.name
    descriptor := hext.entry? h.descriptor
    parts := ⟨excs, sig, stays_forall₂ (fun _ _ => stays_entry _ _) _ _ n pool pool' hext hexc,
      stays_optionRel (fun _ _ => stays_entry _ _) _ _ n pool pool' hext hsig,
      stays_titled _ _ n pool pool' hext htitled⟩ }

theorem interns_signatureAttribute (text : Option String) :
    Interns 5 Any (signatureAttribute text) fun as pool => ∃ row, Option.Rel (fun text i => pool.entry? i = some (.utf8 text))
      text row ∧ Encodes pool (row.toList.map MemberPart.signature) as := by
  cases text with
  | none => exact .pure fun pool _ => ⟨none, .none, encodes_nil _⟩
  | some text =>
    refine .bind ((interns_utf8 text).mono (by decide) (fun _ h => h) fun _ _ h => h) fun i => ?_
    refine .bind (.keeping (stays_entry i _) (interns_namedAttribute _ _)) fun a => .pure fun pool h => ?_
    exact ⟨some i, .some h.1, encodes_one (MemberPart.signature i) h.2.1 h.2.2⟩

theorem interns_classes (names : List String) :
    Interns 5 Any (names.mapM Pool.cls) fun rows pool =>
      List.Forall₂ (fun name i => pool.entry? i = some (.cls name)) names rows :=
  .mapM (fun name => (interns_cls name).mono (by decide) (fun _ h => h) fun _ _ h => h) (fun _ _ => stays_entry _ _) names

theorem interns_exceptionsAttribute (names : List String) :
    Interns 5 Any (exceptionsAttribute names) fun as pool => ∃ rows,
      List.Forall₂ (fun name i => pool.entry? i = some (.cls name)) names rows ∧
      Encodes pool (nonempty MemberPart.exceptions rows) as := by
  cases names with
  | nil => exact .pure fun pool _ => ⟨[], .nil, encodes_nil _⟩
  | cons name names =>
    refine .bind (interns_classes (name :: names)) fun rows => ?_
    refine .bind (.keeping (stays_forall₂ (fun _ _ => stays_entry _ _) _ rows) (interns_namedAttribute _ _)) fun a =>
      .pure fun pool h => ⟨rows, h.1, ?_⟩
    obtain ⟨i, rest, rfl⟩ : ∃ i rest, rows = i :: rest := by
      cases h.1 with
      | cons _ _ => exact ⟨_, _, rfl⟩
    exact encodes_one (MemberPart.exceptions (i :: rest)) h.2.1 h.2.2

def BodyStands (w : MethodWriter) (hasCode : Bool) (pool : Pool) (body : Option CodeLayout) : Prop :=
  body.isSome = hasCode ∧ ∀ c, body = some c → CodeStands w pool c

theorem stays_bodyStands (w : MethodWriter) (hasCode : Bool) (body : Option CodeLayout) :
    Stays fun pool => BodyStands w hasCode pool body :=
  stays_and (stays_const _) fun n pool pool' hext h c hc => stays_codeStands w c n pool pool' hext (h c hc)

/-- Nothing but the pool has changed. -/
def Untouched (w w' : MethodWriter) : Prop := w'.pool.Orderly ∧ Extends 5 w.pool w'.pool ∧ w'.methods = w.methods

/-- A method has been added to the class. -/
def Appends (w : MethodWriter) (hasCode : Bool) (w' : MethodWriter) : Prop :=
  w'.pool.Orderly ∧ Extends 5 w.pool w'.pool ∧ ∃ m body, w'.methods = w.methods.push m.encoded ∧
    MethodStands w'.pool w.declaration body m ∧ BodyStands w hasCode w'.pool body

/-- The last steps of adding a method, once its code attribute is made. -/
theorem appendRest_outcome {hasCode : Bool} {w : MethodWriter} {pool : Pool} (hord : pool.Orderly)
    (hext : Extends 5 w.pool pool) {code : List Attribute} {body : Option CodeLayout}
    (hbody : BodyStands w hasCode pool body) (hcode : Encodes pool (body.toList.map MemberPart.code) code) :
    Outcome (fun _ => Appends w hasCode) (Untouched w) ((do
      let d := (← get).declaration
      let excs ← fromPool (exceptionsAttribute d.exceptions)
      let sig ← fromPool (signatureAttribute d.signature)
      let name ← fromPool (Pool.utf8 d.name)
      let desc ← fromPool (Pool.utf8 d.descriptor)
      let method : Member .ofMethod := ⟨d.flags, name, desc, code ++ excs ++ sig⟩
      modify fun w => { w with methods := w.methods.push method } : MethodM Unit) { w with pool := pool }) := by
  have hkept : ∀ {pool' : Pool}, pool'.Orderly → Extends 5 pool pool' → Untouched w { w with pool := pool' } :=
    fun hpool' hlater => ⟨hpool', hext.trans hlater, rfl⟩
  rw [run_get_bind]
  dsimp only
  refine Asks.outcome (.fromPool (Nat.le_refl 5) (interns_exceptionsAttribute _)) hord
    (fun _ h e => hkept h e) fun excs pool₂ h₂ e₂ hexc => ?_
  obtain ⟨rows, hrows, hexc⟩ := hexc
  refine Asks.outcome (.fromPool (Nat.le_refl 5) (interns_signatureAttribute _)) h₂
    (fun _ h e => hkept h (e₂.trans e)) fun sig pool₃ h₃ e₃ hsig => ?_
  obtain ⟨row, hrow, hsig⟩ := hsig
  refine Asks.outcome (.fromPool (by decide) (interns_utf8 _)) h₃
    (fun _ h e => hkept h ((e₂.trans e₃).trans e)) fun name pool₄ h₄ e₄ hname => ?_
  refine Asks.outcome (.fromPool (by decide) (interns_utf8 _)) h₄
    (fun _ h e => hkept h (((e₂.trans e₃).trans e₄).trans e)) fun desc pool₅ h₅ e₅ hdesc => ?_
  -- all that was found before the last row is still there
  have hfrom₃ := e₄.trans e₅
  have hfrom₂ := e₃.trans hfrom₃
  have hfrom₁ := e₂.trans hfrom₂
  obtain ⟨parts, hparts, htitled⟩ := ((stays_encodes _ _ 5 _ _ hfrom₁ hcode).append
    (stays_encodes _ _ 5 _ _ hfrom₂ hexc)).append (stays_encodes _ _ 5 _ _ hfrom₃ hsig)
  refine ⟨h₅, hext.trans hfrom₁, ⟨w.declaration.flags, name, desc, parts⟩, body, ?_, ?_, ?_⟩
  · rw [MemberLayout.encoded, ← hparts]
  · exact {
      flags := rfl
      name := e₅.entry? hname
      descriptor := hdesc
      parts := ⟨rows, row, stays_forall₂ (fun _ _ => stays_entry _ _) _ _ 5 _ _ hfrom₂ hrows,
        stays_optionRel (fun _ _ => stays_entry _ _) _ _ 5 _ _ hfrom₃ hrow, htitled⟩ }
  · exact stays_bodyStands w hasCode body 5 _ _ hfrom₁ hbody

/-- **A method is added to the class** with all that was declared of it, or nothing is added. -/
theorem appendMethod_outcome (hasCode : Bool) (w : MethodWriter) (hord : w.pool.Orderly) :
    Outcome (fun _ => Appends w hasCode) (Untouched w) (appendMethod hasCode w) := by
  cases hasCode with
  | false =>
    have hstd : BodyStands w false w.pool none := ⟨rfl, by simp⟩
    exact appendRest_outcome hord (.refl 5 _) hstd (encodes_nil _)
  | true =>
    refine Asks.outcome asks_codeAttribute hord (fun _ h e => ⟨h, e, rfl⟩) fun a pool h e ha => ?_
    obtain ⟨c, hc, hencodes⟩ := ha
    have hstd : BodyStands w true pool (some c) := by
      refine ⟨rfl, fun c' hc' => ?_⟩
      cases hc'
      exact hc
    exact appendRest_outcome h e hstd hencodes

end MethodWriter

end JvmAssembler
