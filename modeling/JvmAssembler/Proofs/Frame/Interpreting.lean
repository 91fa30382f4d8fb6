import JvmAssembler.Proofs.Interning

/-!
# JvmAssembler.Proofs.Frame.Interpreting

What an instruction does beside changing the slots of its block: it adds types to the pool.

`tends_execute` goes through the instructions once. All that adding types keeps, and that does not depend on the slots of
the block, is kept by every instruction (`Tended`).
-/

namespace JvmAssembler

/-! ### Errors -/

theorem isPlain_of_badDescriptor {α : Type} {result : Except Descriptor.Fault α} {text : String} {e : Error}
    (h : result.mapError (.badDescriptor text) = .error e) : e.IsPlain := by
  cases result <;> cases h
  rfl

/-- Steps keep of what they see all that others keep, and fail with errors of some kind. -/
structure Minds {σ τ α : Type} (L : (τ → Prop) → Prop) (view : σ → τ) (E : Error → Prop) (m : EStateM Error σ α) : Prop where
  keeps : ∀ G : τ → Prop, L G → Keeps (fun s => G (view s)) m
  raises : Raises E m

namespace Minds

variable {σ τ α β : Type} {L : (τ → Prop) → Prop} {view : σ → τ} {E : Error → Prop}

theorem pure (a : α) : Minds L view E (Pure.pure a : EStateM Error σ α) := ⟨fun _ _ => .pure a, .pure a⟩

theorem throw {e : Error} (he : E e) : Minds L view E (MonadExcept.throw e : EStateM Error σ α) :=
  ⟨fun _ _ => .throw e, .throw he⟩

theorem throw_bind {e : Error} (he : E e) (f : α → EStateM Error σ β) :
    Minds L view E ((MonadExcept.throw e : EStateM Error σ α) >>= f) :=
  ⟨fun _ _ => .throw_bind e f, .throw_bind he f⟩

theorem get : Minds L view E (MonadState.get : EStateM Error σ σ) := ⟨fun _ _ => .get, .get⟩

theorem modifyGet {f : σ → α × σ} (h : ∀ s, view (f s).2 = view s) :
    Minds L view E (MonadStateOf.modifyGet f : EStateM Error σ α) where
  keeps G _ := .modifyGet fun s hs => by rwa [h]
  raises := .modifyGet

theorem bind {x : EStateM Error σ α} {f : α → EStateM Error σ β} (hx : Minds L view E x) (hf : ∀ a, Minds L view E (f a)) :
    Minds L view E (x >>= f) :=
  ⟨fun G hG => .bind (hx.keeps G hG) fun a => (hf a).keeps G hG, .bind hx.raises fun a => (hf a).raises⟩

theorem ite {c : Prop} [Decidable c] {x y : EStateM Error σ α} (hx : Minds L view E x) (hy : Minds L view E y) :
    Minds L view E (if c then x else y) :=
  ⟨fun G hG => .ite (hx.keeps G hG) (hy.keeps G hG), .ite hx.raises hy.raises⟩

theorem mapM {f : α → EStateM Error σ β} (h : ∀ a, Minds L view E (f a)) (as : List α) : Minds L view E (as.mapM f) :=
  ⟨fun G hG => .mapM (fun a => (h a).keeps G hG) as, .mapM (fun a => (h a).raises) as⟩

theorem forM {f : α → EStateM Error σ PUnit} (h : ∀ a, Minds L view E (f a)) (as : List α) : Minds L view E (as.forM f) :=
  ⟨fun G hG => .forM (fun a => (h a).keeps G hG) as, .forM (fun a => (h a).raises) as⟩

theorem mono {L' : (τ → Prop) → Prop} {E' : Error → Prop} {m : EStateM Error σ α} (h : Minds L view E m)
    (hL : ∀ G, L' G → L G) (hE : ∀ e, E e → E' e) : Minds L' view E' m := ⟨fun G hG => h.keeps G (hL G hG), h.raises.mono hE⟩

end Minds

/-! ### Types -/

def Pool.Typing (G : Pool → Prop) : Prop := ∀ pool row, G pool → G (pool.addRow row).2

namespace FrameType

open Pool

/-- An action that only adds types to the pool. -/
abbrev Types {α : Type} (m : PoolM α) : Prop := Minds Typing id Error.IsPlain m

theorem types_addRow (row : TypeRow) : Types (modifyGet fun pool => pool.addRow row : PoolM Nat) :=
  ⟨fun _ hG => .modifyGet fun pool => hG pool row, .modifyGet⟩

theorem types_addType (name : String) : Types (addType name) := types_addRow (.normal name)

theorem types_ofFieldType (t : FieldType) : Types (ofFieldType t) := by
  cases t with
  | base b => exact .pure _
  | ref r =>
    cases r with
    | object c => exact .bind (types_addType _) fun _ => .pure _
    | primitiveArray dims b => exact .pure _
    | objectArray dims c => exact .bind (types_addType _) fun _ => .pure _

theorem types_ofClassName (name : String) : Types (ofClassName name) := by
  refine .ite ?_ (.bind (types_addType _) fun _ => .pure _)
  split
  · exact .throw (isPlain_of_badDescriptor ‹_›)
  · exact types_ofFieldType _

theorem types_ofLoadable (constant : Loadable) : Types (ofLoadable constant) := by
  cases constant with
  | int _ | float _ | long _ | double _ => exact .pure _
  | string _ | cls _ | methodType _ | methodHandle _ => exact .bind (types_addType _) fun _ => .pure _

end FrameType

/-! ### Instructions -/

namespace Frame

variable (f : Frame) (t : FrameType) (i n : Nat)

@[simp] theorem input_push : (f.push t).input = f.input := rfl

@[simp] theorem input_pushValue : (f.pushValue t).input = f.input := by
  unfold pushValue
  split <;> rfl

@[simp] theorem input_popN : (f.popN n).input = f.input := rfl

@[simp] theorem input_pop : f.pop.2.input = f.input := by
  unfold pop
  split <;> rfl

@[simp] theorem input_store : (f.store i t).input = f.input := rfl

@[simp] theorem input_load : (f.load i).2.input = f.input := by
  unfold load
  split <;> rfl

@[simp] theorem input_breakBefore : (f.breakBefore i).input = f.input := by
  unfold breakBefore
  split
  · rfl
  · dsimp only
    split
    · simp
    · split <;> simp

@[simp] theorem input_popList : (popList n f).2.input = f.input := by
  induction n generalizing f with
  | zero => rfl
  | succ n ih =>
    unfold popList
    simp [ih]

theorem input_foldl {α : Type} (g : Frame → α → Frame) (hg : ∀ f a, (g f a).input = f.input) (as : List α) :
    (as.foldl g f).input = f.input := by
  induction as generalizing f with
  | nil => rfl
  | cons a as ih => rw [List.foldl_cons, ih, hg]

@[simp] theorem input_shuffle (order : List Nat) : (f.shuffle n order).input = f.input := by
  unfold shuffle
  dsimp only
  exact (input_foldl _ _ (fun _ _ => input_push _ _) _).trans (input_popList f n)

end Frame

namespace Interpreter

open FrameType

/-- What is kept while the input of the block stays the same and types are added. -/
structure Tended (G : Interpreter → Prop) : Prop where
  frame : ∀ {s : Interpreter} {frame : Frame}, frame.input = s.frame.input → G s → G { s with frame := frame }
  pool : ∀ frame, Pool.Typing fun pool => G ⟨frame, pool⟩

/-- Steps of the interpreter that only change slots and add types. -/
abbrev Tends {α : Type} (m : FrameM α) : Prop := Minds Tended id Error.IsPlain m

variable {α : Type} {type : PoolM FrameType}

theorem tends_update {f : Frame → Frame} (h : ∀ frame, (f frame).input = frame.input := by simp) : Tends (update f) :=
  ⟨fun _ hG => .modify fun s => hG.frame (h s.frame), .modifyGet⟩

theorem tends_pop : Tends pop := ⟨fun _ hG => .modifyGet fun s => hG.frame (Frame.input_pop s.frame), .modifyGet⟩

theorem tends_fromPool {action : PoolM α} (h : Types action) : Tends (fromPool action) where
  keeps G hG s hs := by
    have hpool := h.keeps _ (hG.pool s.frame) s.pool hs
    unfold fromPool
    cases hrun : action s.pool <;> rw [hrun] at hpool <;> exact hpool
  raises s e t hrun := by
    unfold fromPool at hrun
    split at hrun <;> cases hrun
    exact h.raises _ _ _ ‹_›

theorem tends_pushFrom (h : Types type) : Tends (pushFrom type) := .bind (tends_fromPool h) fun _ => tends_update

theorem tends_pushReference (h : Types type) : Tends (pushReference type) :=
  .bind (tends_fromPool h) fun _ => tends_update

theorem tends_checked {result : Except Error α} (h : ∀ e, result = .error e → e.IsPlain) : Tends (checked result) := by
  unfold checked
  split
  · exact .pure _
  · exact .throw (h _ rfl)

theorem tends_call (op : Opcode) (receiver : Bool) (name : String) (d : MethodDescriptor) : Tends (call op receiver name d) := by
  have hreturned : Tends (pushReturned d.returnType) := by
    unfold pushReturned
    split
    · exact .pure _
    · exact tends_pushFrom (types_ofFieldType _)
  refine .bind tends_update fun _ => .ite (.bind tends_pop fun _ => ?_) hreturned
  exact .ite (.bind tends_update fun _ => hreturned) hreturned

/-- **Interpreting an instruction** changes slots and adds types, whether it succeeds or fails. -/
theorem tends_execute (op : Opcode) (arg : Nat) (operand : Operand) : Tends (execute op arg operand) := by
  have hpopN : ∀ n, Tends (update (·.popN n)) := fun n => tends_update
  unfold execute
  refine .ite (.throw rfl) ?_
  split
  · exact tends_update fun f => Frame.input_foldl _ _ (fun _ _ => by simp) _
  · exact tends_update
  · exact tends_pushFrom (types_ofLoadable _)
  · exact tends_update
  · exact .bind (hpopN 1) fun _ => .bind tends_pop fun _ => tends_update
  · have hsto : ∀ wide : Bool, Tends (pop >>= fun t => update fun f =>
        let f := f.store arg t
        let f := if wide then f.store (arg + 1) .top else f
        f.breakBefore arg) := fun wide => .bind tends_pop fun _ => tends_update fun f => by cases wide <;> simp
    exact .ite (.bind (hpopN 1) fun _ => hsto _) (hsto _)
  · exact tends_update
  · exact .throw rfl
  · refine .bind (tends_checked fun _ => isPlain_of_badDescriptor) fun type => ?_
    unfold accessField
    exact .ite (hpopN _) (.bind (hpopN _) fun _ => tends_pushFrom (types_ofFieldType _))
  · exact .bind (tends_checked fun _ => isPlain_of_badDescriptor) fun _ => tends_call _ _ _ _
  · exact .bind (tends_checked fun _ => isPlain_of_badDescriptor) fun _ => tends_call _ _ _ _
  · exact .bind (tends_fromPool (types_addRow _)) fun _ => tends_update
  · refine .bind (hpopN 1) fun _ => ?_
    split
    · exact tends_update
    · exact .throw rfl
  · exact .bind (hpopN 1) fun _ => tends_pushReference (.bind (types_ofClassName _) fun _ => .pure _)
  · exact .bind (hpopN 1) fun _ => tends_pushReference (types_ofClassName _)
  · exact .bind (hpopN arg) fun _ => tends_pushReference (types_ofClassName _)
  · exact .throw rfl
  · exact .throw rfl

/-- The rows of the pool stay as they are. -/
theorem sameRows_of_execute {op : Opcode} {arg : Nat} {operand : Operand} {s s' : Interpreter}
    (h : execute op arg operand s = .ok () s') : s.pool.SameRows s'.pool := by
  refine ((tends_execute op arg operand).keeps (fun t => s.pool.SameRows t.pool) ⟨fun _ => id, ?_⟩).ok (Std.Refl.refl s.pool) h
  exact fun _ pool row hsame => Trans.trans hsame (pool.addRow_sameRows row)

/-- The input of the block stays as it is. -/
theorem keepsInput_execute {input : Option FrameInput} (op : Opcode) (arg : Nat) (operand : Operand) :
    Keeps (fun s : Interpreter => s.frame.input = input) (execute op arg operand) :=
  (tends_execute op arg operand).keeps _ ⟨fun hfr hs => hfr.trans hs, fun _ _ _ => id⟩

end Interpreter

end JvmAssembler
