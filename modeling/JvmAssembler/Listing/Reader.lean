import JvmAssembler.Listing.Literal
import JvmAssembler.Listing.Token

/-!
# JvmAssembler.Listing.Reader

Readers of the tokens of a line, from left to right. A reader that fails says what it expected.
-/

namespace JvmAssembler.Listing

/-- Steps that use up tokens. -/
abbrev Reader := StateT (List Token) (Except Fault)

namespace Reader

def word (what : String) : Reader String := fun tokens =>
  match tokens with
  | .word w :: rest => .ok (w, rest)
  | .quoted _ :: _ => .error (.foundString what)
  | [] => .error (.expected what)

def quoted (what : String) : Reader String := fun tokens =>
  match tokens with
  | .quoted text :: rest => .ok (text, rest)
  | _ => .error (.expectedString what)

/-- Take the next token if it is a given word, and say whether it was. -/
def keyword (k : String) : Reader Bool := fun tokens =>
  match tokens with
  | .word w :: rest => if w = k then .ok (true, rest) else .ok (false, tokens)
  | _ => .ok (false, tokens)

@[simp] theorem word_cons (what w : String) (rest : List Token) :
    word what (.word w :: rest) = .ok (w, rest) := rfl

@[simp] theorem quoted_cons (what text : String) (rest : List Token) :
    quoted what (.quoted text :: rest) = .ok (text, rest) := rfl

@[simp] theorem keyword_self (k : String) (rest : List Token) :
    keyword k (.word k :: rest) = .ok (true, rest) := by
  simp [keyword]

theorem keyword_of_ne {k w : String} (h : w ≠ k) (rest : List Token) :
    keyword k (.word w :: rest) = .ok (false, .word w :: rest) := by
  simp [keyword, h]

def expect (k : String) : Reader Unit := do
  unless ← keyword k do throw (.expectedKeyword k)

def number {α : Type} (read : String → Option α) (what : String) : Reader α := do
  let w ← word what
  match read w with
  | some n => return n
  | none => throw (.invalidNumber w what)

def u8 (what : String) : Reader UInt8 :=
  number (fun w => (Number.natural? 255 w).map UInt8.ofNat) what

def u16 (what : String) : Reader UInt16 :=
  number (fun w => (Number.natural? 65535 w).map UInt16.ofNat) what

def i8 (what : String) : Reader Int32 :=
  number (fun w => (Number.integer? (-128) 127 w).map Int32.ofInt) what

def i16 (what : String) : Reader Int16 :=
  number (fun w => (Number.integer? (-32768) 32767 w).map Int16.ofInt) what

/-- The signed 32-bit number that a word spells. -/
def int32? (w : String) : Option Int32 :=
  (Number.integer? (-2147483648) 2147483647 w).map Int32.ofInt

def i32 (what : String) : Reader Int32 := number int32? what

def finish : Reader Unit := fun tokens =>
  match tokens with
  | [] => .ok ((), [])
  | .word w :: _ => .error (.unexpectedWord w)
  | .quoted text :: _ => .error (.unexpectedString text)

/-! ### Sequences -/

/-- Read items, each of which takes a token at least, until a test on what is left holds; the items before
them are in reverse order. -/
def collect {α : Type} (stop : List Token → Bool) (item : Reader α) :
    Nat → List α → Reader (List α)
  | 0, done => return done.reverse
  | fuel + 1, done => fun tokens =>
    if stop tokens then .ok (done.reverse, tokens)
    else
      match item tokens with
      | .error fault => .error fault
      | .ok (a, rest) => collect stop item fuel (a :: done) rest

/-- Read items, each of which takes a token at least, until a test on what is left holds. -/
def manyUntil {α : Type} (stop : List Token → Bool) (item : Reader α) : Reader (List α) :=
  fun tokens => collect stop item tokens.length [] tokens

def many {α : Type} (item : Reader α) : Reader (List α) := manyUntil List.isEmpty item

/-- Whether the line ends here or goes on with a given word. -/
def atKeyword (k : String) (tokens : List Token) : Bool :=
  match tokens with
  | [] => true
  | token :: _ => token == .word k

/-- Read items up to a given word or the end of the line. -/
def manyBefore {α : Type} (k : String) (item : Reader α) : Reader (List α) :=
  manyUntil (atKeyword k) item

/-- Names to the end of the line behind a keyword; no names without it. -/
def namesAfter (k what : String) : Reader (List String) := do
  if ← keyword k then many (word what) else return []

/-- Something behind a keyword; nothing without it. -/
def after {α : Type} (k : String) (item : Reader α) : Reader (Option α) := do
  if ← keyword k then return some (← item) else return none

def takeFlags {kind : FlagKind} (flags : AccessFlags kind) :
    List Token → AccessFlags kind × List Token
  | [] => (flags, [])
  | token :: rest =>
    match token with
    | .quoted _ => (flags, token :: rest)
    | .word w =>
      match AccessFlags.ofKeyword? w with
      | some flag => takeFlags (flags.union flag) rest
      | none => (flags, token :: rest)

def flags (kind : FlagKind) : Reader (AccessFlags kind) := fun tokens => .ok (takeFlags .empty tokens)

/-! ### Constants -/

def handleWord : HandleKind → String
  | .getField => "getfield"
  | .getStatic => "getstatic"
  | .putField => "putfield"
  | .putStatic => "putstatic"
  | .invokeVirtual => "invokevirtual"
  | .invokeStatic => "invokestatic"
  | .invokeSpecial => "invokespecial"
  | .newInvokeSpecial => "newinvokespecial"
  | .invokeInterface => "invokeinterface"

def handleKind? (w : String) : Option HandleKind := HandleKind.all.find? (handleWord · == w)

@[simp] theorem handleKind?_handleWord (kind : HandleKind) :
    handleKind? (handleWord kind) = some kind := by
  cases kind <;> decide

/-- A method handle: its kind, `interface` if its owner is one, owner, name and descriptor. -/
def handle : Reader Handle := do
  let w ← word "a handle kind"
  match handleKind? w with
  | none => throw (.unknownHandleKind w)
  | some kind =>
    let isInterface ← keyword "interface"
    let owner ← word "an owner class"
    let name ← word "a member name"
    let descriptor ← word "a descriptor"
    return ⟨kind, owner, name, descriptor, isInterface || kind == .invokeInterface⟩

/-- A constant: a quoted text, a number, or a word for its kind and what it names. -/
def constant : Reader Loadable := do
  match ← get with
  | .quoted text :: rest =>
    set rest
    return .string text
  | _ =>
    let w ← word "a constant"
    if w = "class" then return .cls (← word "a class name")
    else if w = "methodtype" then return .methodType (← word "a method descriptor")
    else if w = "handle" then return .methodHandle (← handle)
    else
      match literal? w with
      | some c => return c
      | none => throw (.invalidNumber w "constant")

/-! ### Frames -/

def item : Reader (FrameItem String) := do
  match ← word "a frame item" with
  | "top" => return .top
  | "int" => return .int
  | "float" => return .float
  | "long" => return .long
  | "double" => return .double
  | "null" => return .null
  | "uninitialized_this" => return .uninitializedThis
  | "uninitialized" => return .uninitialized (← word "a label")
  | name => return .object name

/-- A frame: its kind and what the kind needs. -/
def frame : Reader (ExplicitFrame String) := do
  match ← word "a frame kind" with
  | "same" => return .same
  | "same1" => return .sameOne (← item)
  | "append" => return .append (← many item)
  | "chop" => return .chop (← u8 "chopped local count").toNat
  | "full" =>
    let locals ← manyBefore "stack" item
    let stack ← after "stack" (many item)
    return .full locals (stack.getD [])
  | kind => throw (.unknownFrameKind kind)

end Reader

end JvmAssembler.Listing
