import JvmAssembler.Proofs.Parser
import JvmAssembler.Proofs.Success
import JvmAssembler.StackMap

/-!
# JvmAssembler.Proofs.StackMap

Reading a stack map back from its bytes.

* `Parser.stackMap` reads the frames as they are stored. `StackMap.expand` then applies each of them to the locals of the
  frame before it, and adds up the distances. Both follow the layout of class files and know nothing of how frames are
  chosen.
* Whatever frames are offered to a builder, those that it takes are read back, in order and in full (`decode_offerAll`). It
  refuses a frame exactly if its distance is negative or does not fit.
-/

namespace JvmAssembler

/-! ### Frames in full -/

/-- A frame in full: where it stands, and the types of the locals and of the stack there. -/
structure FullFrame where
  offset : Nat
  locals : List VerificationType
  stack : List VerificationType
  deriving DecidableEq

/-- The locals and the stack of a frame behind one with the locals `previous`. One can only chop locals that are there. -/
def FrameShape.apply {τ : Type} (previous : List τ) : FrameShape τ → Option (List τ × List τ)
  | same => some (previous, [])
  | sameOne item => some (previous, [item])
  | chop count => if count ≤ previous.length then some (previous.take (previous.length - count), []) else none
  | append locals => some (previous ++ locals, [])
  | full locals stack => some (locals, stack)

/-- A type whose parts fit in their fields. -/
def VerificationType.IsStorable : VerificationType → Prop
  | object cls => cls < 65536
  | uninitialized offset => offset < 65536
  | _ => True

instance (t : VerificationType) : Decidable t.IsStorable :=
  match t with
  | .object cls => inferInstanceAs (Decidable (cls < 65536))
  | .uninitialized offset => inferInstanceAs (Decidable (offset < 65536))
  | .top | .int | .float | .double | .long | .null | .uninitializedThis => inferInstanceAs (Decidable True)

/-- A shape whose lists are short enough to be counted. -/
def FrameShape.IsCountable {τ : Type} : FrameShape τ → Prop
  | full locals stack => locals.length ≤ 65535 ∧ stack.length ≤ 65535
  | _ => True

instance {τ : Type} (shape : FrameShape τ) : Decidable shape.IsCountable :=
  match shape with
  | .full locals stack => inferInstanceAs (Decidable (locals.length ≤ 65535 ∧ stack.length ≤ 65535))
  | .same | .sameOne _ | .chop _ | .append _ => inferInstanceAs (Decidable True)

/-- A shape with only so many items as it has room for, all of which fit. -/
def FrameShape.IsStorable : FrameShape VerificationType → Prop
  | same => True
  | sameOne item => item.IsStorable
  | chop count => 1 ≤ count ∧ count ≤ 3
  | append locals => (1 ≤ locals.length ∧ locals.length ≤ 3) ∧ ∀ t ∈ locals, t.IsStorable
  | full locals stack =>
    (locals.length ≤ 65535 ∧ stack.length ≤ 65535) ∧ (∀ t ∈ locals, t.IsStorable) ∧ ∀ t ∈ stack, t.IsStorable

namespace StackMap

/-- Where a frame stands that is stored behind one at `previous`. -/
def nextOffset (previous : Option Nat) (delta : Nat) : Nat :=
  match previous with
  | none => delta
  | some offset => offset + delta + 1

/-- The frames of a stack map in full, behind a frame at `previous` with some locals. -/
def expand : Option Nat → List VerificationType → List StackMapFrame → Option (List FullFrame)
  | _, _, [] => some []
  | previous, locals, frame :: rest => do
    let contents ← frame.shape.apply locals
    let offset := nextOffset previous frame.delta
    let frames ← expand (some offset) contents.1 rest
    return ⟨offset, contents.1, contents.2⟩ :: frames

end StackMap

/-! ### Reading stored frames -/

namespace Parser

/-- A type: a tag, and what it refers to. -/
def verificationType : Parser VerificationType := do
  let tag ← u1
  match tag with
  | 0 => return .top
  | 1 => return .int
  | 2 => return .float
  | 3 => return .double
  | 4 => return .long
  | 5 => return .null
  | 6 => return .uninitializedThis
  | 7 => return .object (← u2)
  | 8 => return .uninitialized (← u2)
  | _ => failure

/-- A frame behind its tag, if the tag does not hold the distance. -/
def extendedFrame (tag : Nat) : Parser StackMapFrame := do
  let delta ← u2
  if tag = 247 then return ⟨delta, .sameOne (← verificationType)⟩
  else if tag < 251 then return ⟨delta, .chop (251 - tag)⟩
  else if tag = 251 then return ⟨delta, .same⟩
  else if tag < 255 then return ⟨delta, .append (← times verificationType (tag - 251))⟩
  else
    let locals ← table verificationType
    let stack ← table verificationType
    return ⟨delta, .full locals stack⟩

/-- A frame. The tag says which shape it has, and short distances are part of the tag. -/
def stackMapFrame : Parser StackMapFrame := do
  let tag ← u1
  if tag < 64 then return ⟨tag, .same⟩
  else if tag < 128 then return ⟨tag - 64, .sameOne (← verificationType)⟩
  else if tag < 247 then failure
  else extendedFrame tag

def stackMap : Parser (List StackMapFrame) := table stackMapFrame

theorem parses_verificationType {t : VerificationType} (h : t.IsStorable) : Parses verificationType t.bytes t := by
  cases t with
  | object cls => exact (parses_u1 (by decide)).bind ((parses_u2 h).finish VerificationType.object)
  | uninitialized offset => exact (parses_u1 (by decide)).bind ((parses_u2 h).finish VerificationType.uninitialized)
  | _ => exact fun _ => rfl

/-- A frame whose distance is part of its tag. -/
theorem parses_short {tag : Nat} (htag : tag < 128) {bytes : List UInt8} {frame : StackMapFrame}
    (h : Parses (if tag < 64 then return ⟨tag, .same⟩ else return ⟨tag - 64, .sameOne (← verificationType)⟩) bytes frame) :
    Parses stackMapFrame (Bytes.u1 tag ++ bytes) frame := by
  refine (parses_u1 (by omega)).bind ?_
  by_cases hsame : tag < 64
  · rw [if_pos hsame] at h ⊢
    exact h
  · rw [if_neg hsame] at h ⊢
    rw [if_pos htag]
    exact h

/-- A frame whose distance stands behind its tag. -/
theorem parses_extended {tag : Nat} (htag : 247 ≤ tag) (hbyte : tag < 256) {bytes : List UInt8} {frame : StackMapFrame}
    (h : Parses (extendedFrame tag) bytes frame) : Parses stackMapFrame (Bytes.u1 tag ++ bytes) frame := by
  refine (parses_u1 hbyte).bind ?_
  rw [if_neg (by omega), if_neg (by omega), if_neg (by omega)]
  exact h

/-- **A frame is written, and read back**, if its distance and its items fit. -/
theorem parses_stackMapFrame {frame : StackMapFrame} (hdel : frame.delta < 65536) (hsh : frame.shape.IsStorable) :
    ∃ bytes, frame.bytes = .ok bytes ∧ Parses stackMapFrame bytes frame := by
  obtain ⟨delta, shape⟩ := frame
  dsimp only at hdel hsh
  have hrows : ∀ {types : List VerificationType}, (∀ t ∈ types, t.IsStorable) →
      ∀ t ∈ types, Parses verificationType t.bytes t := fun h t ht => parses_verificationType (h t ht)
  cases shape with
  | same =>
    by_cases hshort : delta ≤ shortDelta
    · refine ⟨Bytes.u1 delta ++ [], congrArg Except.ok (if_pos hshort), ?_⟩
      rw [shortDelta] at hshort
      refine parses_short (by omega) ?_
      rw [if_pos (by omega)]
      exact .pure _
    · refine ⟨_, congrArg Except.ok (if_neg hshort), parses_extended (by decide) (by decide) ?_⟩
      exact (parses_u2 hdel).finish fun delta => StackMapFrame.mk delta .same
  | sameOne item =>
    have hitem := (parses_verificationType hsh).finish fun item => StackMapFrame.mk delta (.sameOne item)
    by_cases hshort : delta ≤ shortDelta
    · refine ⟨Bytes.u1 (64 + delta) ++ item.bytes, congrArg (fun tag => Except.ok (tag ++ item.bytes)) (if_pos hshort), ?_⟩
      rw [shortDelta] at hshort
      refine parses_short (by omega) ?_
      rw [if_neg (by omega), Nat.add_sub_cancel_left]
      exact hitem
    · refine ⟨Bytes.u1 247 ++ Bytes.u2 delta ++ item.bytes,
        congrArg (fun tag => Except.ok (tag ++ item.bytes)) (if_neg hshort), ?_⟩
      rw [List.append_assoc]
      refine parses_extended (by decide) (by decide) ((parses_u2 hdel).bind ?_)
      rw [if_pos rfl]
      exact hitem
  | chop count =>
    have hcnt : 1 ≤ count ∧ count ≤ 3 := hsh
    refine ⟨_, if_pos hcnt, parses_extended (by omega) (by omega) ?_⟩
    rw [← List.append_nil (Bytes.u2 _)]
    refine (parses_u2 hdel).bind ?_
    rw [if_neg (by omega), if_pos (by omega), Nat.sub_sub_self (by omega)]
    exact .pure _
  | append locals =>
    obtain ⟨hcnt, hloc⟩ := hsh
    refine ⟨_, if_pos hcnt, ?_⟩
    rw [List.append_assoc]
    refine parses_extended (by omega) (by omega) ((parses_u2 hdel).bind ?_)
    rw [if_neg (by omega), if_neg (by omega), if_neg (by omega), if_pos (by omega), Nat.add_sub_cancel_left]
    exact (parses_times (hrows hloc)).finish fun locals => StackMapFrame.mk delta (.append locals)
  | full locals stack =>
    obtain ⟨⟨hlocal, hstk⟩, hloc, hitems⟩ := hsh
    refine ⟨_, rfl, ?_⟩
    rw [List.append_assoc, List.append_assoc]
    refine parses_extended (by decide) (by decide) ((parses_u2 hdel).bind ?_)
    rw [if_neg (by decide), if_neg (by decide), if_neg (by decide), if_neg (by decide)]
    exact (parses_table (hrows hloc) (by omega)).bind
      ((parses_table (hrows hitems) (by omega)).finish fun stack => StackMapFrame.mk delta (.full locals stack))

/-- **The body of the attribute is written, and read back.** -/
theorem parses_stackMap {frames : List StackMapFrame} (hcnt : frames.length ≤ 65535)
    (hfrs : ∀ frame ∈ frames, frame.delta < 65536 ∧ frame.shape.IsStorable) :
    ∃ bytes, StackMap.tableBytes frames = .ok bytes ∧ Parses stackMap bytes frames := by
  have hrows : ∃ rows, frames.mapM StackMapFrame.bytes = .ok rows ∧ Parses (times stackMapFrame frames.length) rows.flatten frames := by
    clear hcnt
    induction frames with
    | nil => exact ⟨[], rfl, .pure []⟩
    | cons frame frames ih =>
      obtain ⟨hdel, hsh⟩ := hfrs frame List.mem_cons_self
      obtain ⟨bytes, hbs, hfr⟩ := parses_stackMapFrame hdel hsh
      obtain ⟨rows, hrows, hrest⟩ := ih fun f hf => hfrs f (List.mem_cons_of_mem _ hf)
      refine ⟨bytes :: rows, ?_, hfr.bind (hrest.finish (frame :: ·))⟩
      rw [List.mapM_cons, hbs, hrows]
      rfl
  obtain ⟨rows, hbs, hread⟩ := hrows
  refine ⟨Bytes.u2 frames.length ++ rows.flatten, ?_, (parses_u2 (by omega)).bind hread⟩
  rw [StackMap.tableBytes, hbs]
  rfl

end Parser

/-! ### Compression -/

namespace StackMap

/-- **Compression loses nothing**: the shape that is chosen leads to the frame that was given. -/
theorem apply_compress (previous locals stack : List VerificationType) :
    (compress previous locals stack).apply previous = some (locals, stack) := by
  unfold compress
  split
  · split
    next hsame => rw [hsame, FrameShape.apply]
    · split
      next hchop =>
        obtain ⟨hfst, -⟩ := hchop
        have hfst := List.isPrefixOf_iff_prefix.1 hfst
        rw [FrameShape.apply, if_pos (Nat.sub_le _ _), Nat.sub_sub_self hfst.length_le]
        rw [← List.prefix_iff_eq_take.1 hfst]
      · split
        next happend =>
          obtain ⟨rest, hrest⟩ := List.isPrefixOf_iff_prefix.1 happend.1
          rw [FrameShape.apply, ← hrest, List.drop_left]
        · rfl
  · split
    next hsame => rw [hsame, FrameShape.apply]
    · rfl
  · rfl

/-- The shape that is chosen only has so many items as it has room for, unless it is the frame in full. -/
theorem isStorable_compress {previous locals stack : List VerificationType} (hloc : ∀ t ∈ locals, t.IsStorable)
    (hstk : ∀ t ∈ stack, t.IsStorable)
    (hcnt : (compress previous locals stack).IsCountable) :
    (compress previous locals stack).IsStorable := by
  unfold compress at hcnt ⊢
  split at hcnt
  · split at hcnt
    next hsame =>
      rw [if_pos hsame]
      trivial
    next hne =>
      rw [if_neg hne]
      split at hcnt
      next hchop =>
        rw [if_pos hchop]
        have hfst := List.isPrefixOf_iff_prefix.1 hchop.1
        have hlen : locals.length ≠ previous.length := fun heq => hne (hfst.eq_of_length heq)
        have hle := hfst.length_le
        have hroom := hchop.2
        exact ⟨by omega, by omega⟩
      next hchop =>
        rw [if_neg hchop]
        split at hcnt
        next happend =>
          rw [if_pos happend]
          have hfst := List.isPrefixOf_iff_prefix.1 happend.1
          have hlen : previous.length ≠ locals.length := fun heq => hne (hfst.eq_of_length heq).symm
          have hle := hfst.length_le
          have hroom := happend.2
          refine ⟨?_, fun t ht => hloc t (List.mem_of_mem_drop ht)⟩
          rw [List.length_drop]
          omega
        next happend =>
          rw [if_neg happend]
          exact ⟨hcnt, hloc, hstk⟩
  next item =>
    split at hcnt
    next hsame =>
      rw [if_pos hsame]
      exact hstk item List.mem_cons_self
    next hne =>
      rw [if_neg hne]
      exact ⟨hcnt, hloc, hstk⟩
  next => exact ⟨hcnt, hloc, hstk⟩

/-! ### Offering frames -/

/-- How far behind the last frame an offset is, as it would be stored. -/
def distance (previous : Option Nat) (offset : Nat) : Int :=
  match previous with
  | none => offset
  | some last => offset - last - 1

/-- A frame may stand at an offset: it is behind the last one, and not too far. -/
def Admits (previous : Option Nat) (offset : Nat) : Prop := 0 ≤ distance previous offset ∧ distance previous offset ≤ 65535

instance (previous : Option Nat) (offset : Nat) : Decidable (Admits previous offset) := inferInstanceAs (Decidable (_ ∧ _))

/-- Those of some frames that may stand where they are, each behind the last one that was taken. -/
def admitted : Option Nat → List FullFrame → List FullFrame
  | _, [] => []
  | previous, frame :: rest =>
    if Admits previous frame.offset then frame :: admitted (some frame.offset) rest else admitted previous rest

def lastOffset (previous : Option Nat) (frames : List FullFrame) : Option Nat :=
  frames.foldl (fun _ frame => some frame.offset) previous

/-- The frames that are stored in the body of an attribute, where a method starts with the locals `initial`. -/
def decode (initial : List VerificationType) (bytes : List UInt8) : Option (List FullFrame) :=
  match Parser.stackMap.run bytes with
  | some (frames, []) => expand none initial frames
  | _ => none

namespace Builder

/-- Offer a frame. A builder that refuses it stays as it is. -/
def offer (b : Builder) (frame : FullFrame) : Builder :=
  match b.pushExpanded frame.offset frame.locals frame.stack with
  | .ok b => b
  | .error _ => b

def offerAll (b : Builder) (frames : List FullFrame) : Builder := frames.foldl offer b

variable {b : Builder} {frame : FullFrame}

theorem admits_none {offset : Nat} : Admits none offset ↔ offset ≤ 65535 := by
  simp only [Admits, distance]
  omega

theorem admits_some {last offset : Nat} : Admits (some last) offset ↔ last < offset ∧ offset - last - 1 ≤ 65535 := by
  simp only [Admits, distance]
  omega

theorem delta?_eq (b : Builder) (offset : Nat) :
    b.delta? offset = if Admits b.previousOffset offset then some (distance b.previousOffset offset).toNat else none := by
  unfold delta?
  cases b.previousOffset with
  | none => simp only [admits_none, distance, Int.toNat_natCast]
  | some last =>
    have hdistance : (distance (some last) offset).toNat = offset - last - 1 := by
      simp only [distance]
      omega
    simp only [admits_some, hdistance]

theorem nextOffset_distance {previous : Option Nat} {offset : Nat} (h : Admits previous offset) :
    nextOffset previous (distance previous offset).toNat = offset := by
  unfold Admits at h
  unfold nextOffset
  cases previous with
  | none => exact Int.toNat_natCast offset
  | some last =>
    simp only [distance] at h ⊢
    omega

def taken (b : Builder) (frame : FullFrame) : Builder where
  frames := b.frames.push
    ⟨(distance b.previousOffset frame.offset).toNat, compress b.previousLocals frame.locals frame.stack⟩
  previousOffset := some frame.offset
  previousLocals := frame.locals

theorem pushExpanded_of_admits (h : Admits b.previousOffset frame.offset) :
    b.pushExpanded frame.offset frame.locals frame.stack = .ok (b.taken frame) := by
  rw [pushExpanded, delta?_eq, if_pos h]
  rfl

theorem pushExpanded_of_not_admits (h : ¬ Admits b.previousOffset frame.offset) :
    b.pushExpanded frame.offset frame.locals frame.stack = .error (.invalidArgument (.frameOutOfOrder frame.offset)) := by
  rw [pushExpanded, delta?_eq, if_neg h]

/-- What is stored stands for the frames that were taken. -/
structure Stores (b b' : Builder) (frames : List FullFrame) (added : List StackMapFrame) : Prop where
  stored : b'.frames.toList = b.frames.toList ++ added
  expand : expand b.previousOffset b.previousLocals added = some (admitted b.previousOffset frames)
  last : b'.previousOffset = lastOffset b.previousOffset (admitted b.previousOffset frames)
  small : ∀ stored ∈ added, stored.delta < 65536 ∧
    ∃ previous, ∃ frame ∈ frames, stored.shape = compress previous frame.locals frame.stack

/-- **Whatever frames are offered, those that are taken are stored.** -/
theorem stores_offerAll (b : Builder) (frames : List FullFrame) : ∃ added, Stores b (b.offerAll frames) frames added := by
  induction frames generalizing b with
  | nil => exact ⟨[], by simp [offerAll], rfl, rfl, by simp⟩
  | cons frame frames ih =>
    have hstep : b.offerAll (frame :: frames) = (b.offer frame).offerAll frames := rfl
    have hsmall : ∀ {added : List StackMapFrame}, (∀ stored ∈ added, stored.delta < 65536 ∧
        ∃ previous, ∃ f ∈ frames, stored.shape = compress previous f.locals f.stack) → ∀ stored ∈ added,
        stored.delta < 65536 ∧ ∃ previous, ∃ f ∈ frame :: frames, stored.shape = compress previous f.locals f.stack := by
      intro added h stored hmem
      obtain ⟨hdel, previous, f, hf, hsh⟩ := h stored hmem
      exact ⟨hdel, previous, f, List.mem_cons_of_mem _ hf, hsh⟩
    by_cases hadmits : Admits b.previousOffset frame.offset
    · have hoffer : b.offer frame = b.taken frame := by rw [offer, pushExpanded_of_admits hadmits]
      rw [hstep, hoffer]
      obtain ⟨added, hadded⟩ := ih (b.taken frame)
      refine ⟨⟨(distance b.previousOffset frame.offset).toNat, compress b.previousLocals frame.locals frame.stack⟩ :: added,
        ?_, ?_, ?_, ?_⟩
      · rw [hadded.stored, taken, Array.toList_push, List.append_assoc, List.singleton_append]
      · rw [StackMap.expand, apply_compress, admitted, if_pos hadmits]
        simp only [Option.bind_eq_bind, Option.bind_some, nextOffset_distance hadmits]
        rw [show StackMap.expand (some frame.offset) frame.locals added = _ from hadded.expand]
        rfl
      · rw [hadded.last, admitted, if_pos hadmits]
        rfl
      · intro stored hmem
        rcases List.mem_cons.1 hmem with rfl | hmem
        · refine ⟨?_, b.previousLocals, frame, List.mem_cons_self, rfl⟩
          obtain ⟨hlow, hhigh⟩ := hadmits
          dsimp only
          omega
        · exact hsmall hadded.small stored hmem
    · have hoffer : b.offer frame = b := by rw [offer, pushExpanded_of_not_admits hadmits]
      rw [hstep, hoffer]
      obtain ⟨added, hadded⟩ := ih b
      refine ⟨added, hadded.stored, ?_, ?_, hsmall hadded.small⟩
      · rw [admitted, if_neg hadmits]
        exact hadded.expand
      · rw [admitted, if_neg hadmits]
        exact hadded.last

/-- **Compression is lossless.** Whatever frames are offered to a builder, it refuses one exactly if its distance from the last
one that was taken is negative or more than `65535`, and it stays as it is then. What it has stored is written, if no list
has more than `65535` items, and a reader gets back the frames that were taken, in order and in full. -/
theorem decode_offerAll (initial : List VerificationType) (frames : List FullFrame)
    (htypes : ∀ frame ∈ frames, ∀ t ∈ frame.locals ++ frame.stack, t.IsStorable)
    (hcount : ((start initial).offerAll frames).frames.size ≤ 65535)
    (hlists : ∀ stored ∈ ((start initial).offerAll frames).frames, stored.shape.IsCountable) :
    (∀ next : FullFrame, ((∃ e, ((start initial).offerAll frames).pushExpanded next.offset next.locals next.stack = .error e) ↔
        ¬ Admits (lastOffset none (admitted none frames)) next.offset) ∧
      (¬ Admits (lastOffset none (admitted none frames)) next.offset →
        ((start initial).offerAll frames).offer next = (start initial).offerAll frames)) ∧
    ∃ bytes, tableBytes ((start initial).offerAll frames).frames.toList = .ok bytes ∧
      decode initial bytes = some (admitted none frames) := by
  obtain ⟨added, hframes, hexpand, hlast, hsmall⟩ := stores_offerAll (start initial) frames
  have hstored : ((start initial).offerAll frames).frames.toList = added := hframes
  refine ⟨fun next => ?_, ?_⟩
  · replace hlast : ((start initial).offerAll frames).previousOffset = lastOffset none (admitted none frames) := hlast
    rw [← hlast]
    refine ⟨⟨?_, fun h => ⟨_, pushExpanded_of_not_admits h⟩⟩, fun h => by rw [offer, pushExpanded_of_not_admits h]⟩
    rintro ⟨e, he⟩ hadmits
    rw [pushExpanded_of_admits hadmits] at he
    cases he
  · have hshapes : ∀ stored ∈ added, stored.delta < 65536 ∧ stored.shape.IsStorable := by
      intro stored hmem
      obtain ⟨hdelta, previous, frame, hframe, hshape⟩ := hsmall stored hmem
      have hitems := htypes frame hframe
      refine ⟨hdelta, hshape ▸ isStorable_compress (fun t ht => hitems t (List.mem_append_left _ ht))
        (fun t ht => hitems t (List.mem_append_right _ ht)) ?_⟩
      exact hshape ▸ hlists stored (Array.mem_toList_iff.1 (hstored ▸ hmem))
    rw [hstored]
    obtain ⟨bytes, hbytes, hread⟩ := @Parser.parses_stackMap added (by rw [← hstored]; exact hcount) hshapes
    refine ⟨bytes, hbytes, ?_⟩
    rw [decode, hread.run]
    exact hexpand

/-- A frame of each shape, behind a method entry with two locals, and two that are refused: one stands where another one
does, and one is too far away. -/
def everyShape : List FullFrame :=
  [⟨0, [.object 1, .int], []⟩, ⟨70, [.object 1, .int], [.null]⟩, ⟨70, [.object 1], []⟩, ⟨71, [.object 1], []⟩,
    ⟨65608, [], []⟩, ⟨65607, [.object 1, .long, .uninitialized 9], []⟩, ⟨65610, [.top], [.double, .object 7]⟩]

theorem decode_offerAll_everyShape :
    ∃ bytes, tableBytes ((start [.object 1, .int]).offerAll everyShape).frames.toList = .ok bytes ∧
      decode [.object 1, .int] bytes =
        some [⟨0, [.object 1, .int], []⟩, ⟨70, [.object 1, .int], [.null]⟩, ⟨71, [.object 1], []⟩,
          ⟨65607, [.object 1, .long, .uninitialized 9], []⟩, ⟨65610, [.top], [.double, .object 7]⟩] :=
  (decode_offerAll [.object 1, .int] everyShape (by decide) (by decide) (by decide)).2

end Builder

end StackMap

end JvmAssembler
