import Markdown.Text

set_option autoImplicit false

namespace Markdown

/-- A place in a text: the number of characters before it, those characters, the nearest first, and
what stands after it. -/
structure Cursor where
  offset : Nat
  before : Text
  after : Text

namespace Cursor

def first (text : Text) : Cursor :=
  ⟨0, [], text⟩

/-- The text between a place and a later one. -/
def upTo (start stop : Cursor) : Text :=
  start.after.take (stop.offset - start.offset)

/-- The place behind the next character, which is given together with what follows it. -/
def past (cursor : Cursor) (c : Char) (rest : Text) : Cursor :=
  ⟨cursor.offset + 1, c :: cursor.before, rest⟩

def atTextStart (cursor : Cursor) : Bool :=
  cursor.before.isEmpty

def atTextEnd (cursor : Cursor) : Bool :=
  cursor.after.isEmpty

/-- The character before the place is in the class. -/
def follows (accepts : Char → Bool) (cursor : Cursor) : Bool :=
  match cursor.before with
  | c :: _ => accepts c
  | [] => false

/-- The character after the place is in the class. -/
def precedes (accepts : Char → Bool) (cursor : Cursor) : Bool :=
  match cursor.after with
  | c :: _ => accepts c
  | [] => false

/-- At the start of the text or behind a newline. -/
def atLineStart (cursor : Cursor) : Bool :=
  cursor.atTextStart || cursor.follows Text.isNewline

/-- At the end of the text or in front of a newline. -/
def atLineEnd (cursor : Cursor) : Bool :=
  cursor.atTextEnd || cursor.precedes Text.isNewline

/-- The places that a run of the class reaches, the farthest first, put in front of `found`. -/
def reached (accepts : Char → Bool) : List Cursor → Nat → Text → Text → List Cursor
  | found, offset, before, [] => ⟨offset, before, []⟩ :: found
  | found, offset, before, c :: rest =>
    if accepts c then
      reached accepts (⟨offset, before, c :: rest⟩ :: found) (offset + 1) (c :: before) rest
    else ⟨offset, before, c :: rest⟩ :: found

/-- The first answer along the places that a run of the class reaches, the nearest first. -/
def firstAlong {α : Type} (accepts : Char → Bool) (answer : Cursor → Option α) :
    Nat → Text → Text → Option α
  | offset, before, [] => answer ⟨offset, before, []⟩
  | offset, before, c :: rest =>
    match answer ⟨offset, before, c :: rest⟩ with
    | some found => some found
    | none => if accepts c then firstAlong accepts answer (offset + 1) (c :: before) rest else none

/-- The places that a run of the class reaches, the farthest first. -/
def stops (cursor : Cursor) (accepts : Char → Bool) : List Cursor :=
  reached accepts [] cursor.offset cursor.before cursor.after

/-- The first answer along the places that a run of the class reaches, the nearest first. -/
def findStop? {α : Type} (cursor : Cursor) (accepts : Char → Bool)
    (answer : Cursor → Option α) : Option α :=
  firstAlong accepts answer cursor.offset cursor.before cursor.after

/-- The place behind the expected text, if it stands here up to the folding of characters. -/
def past? (fold : Char → Char) : Text → Cursor → Option Cursor
  | [], cursor => some cursor
  | _ :: _, ⟨_, _, []⟩ => none
  | expected :: more, ⟨offset, before, c :: rest⟩ =>
    if fold c = fold expected then past? fold more ⟨offset + 1, c :: before, rest⟩ else none

end Cursor

/-- What a match knows on its way: the place it has reached and the texts it has captured, the
latest first. A captured text is cut out only when it is read. -/
structure Reading (slot : Type) where
  cursor : Cursor
  captures : List (slot × Thunk Text)

/-- The text captured last under a slot. -/
def Reading.get? {slot : Type} [DecidableEq slot] (reading : Reading slot) (wanted : slot) :
    Option Text :=
  (reading.captures.find? fun capture => capture.1 = wanted).map (·.2.get)

/-- Patterns over texts. -/
inductive Pattern (slot : Type) where
  /-- The empty text. -/
  | empty
  /-- One character of a class. -/
  | one (accepts : Char → Bool)
  /-- As many characters of a class as possible, then fewer. -/
  | many (accepts : Char → Bool)
  /-- As few characters of a class as possible, then more. -/
  | few (accepts : Char → Bool)
  /-- One pattern and then another. -/
  | seq (first second : Pattern slot)
  /-- One pattern or, failing that, another. -/
  | either (first second : Pattern slot)
  /-- A pattern as often as possible, then less often. -/
  | rounds (body : Pattern slot)
  /-- A pattern whose text is kept under a slot. -/
  | capture (name : slot) (body : Pattern slot)
  /-- The text kept under a slot once more, up to the folding of characters. -/
  | same (name : slot) (fold : Char → Char)
  /-- Nothing, where the pattern matches or, if not wanted, does not. -/
  | ahead (wanted : Bool) (body : Pattern slot)
  /-- Nothing, at a place with a property. -/
  | place (holds : Cursor → Bool)

namespace Pattern

variable {slot : Type}

/-- What is left to do behind a match. -/
abbrev Continuation (slot : Type) := Reading slot → Option (Reading slot)

/-- A step repeated as often as possible and at most `budget` times, then less often. -/
def repeated (step : Reading slot → Continuation slot → Option (Reading slot)) :
    Nat → Reading slot → Continuation slot → Option (Reading slot)
  | 0, reading, next => next reading
  | budget + 1, reading, next =>
    match step reading fun later => repeated step budget later next with
    | some result => some result
    | none => next reading

variable [DecidableEq slot]

/-- The first match of a pattern at the place of the reading behind which `next` succeeds.
A round of a repetition takes at least one character in every pattern of this library, so the
characters that are left are enough of a budget. -/
def run : Pattern slot → Reading slot → Continuation slot → Option (Reading slot)
  | .empty, reading, next => next reading
  | .one accepts, reading, next =>
    match reading.cursor.after with
    | [] => none
    | c :: rest =>
      if accepts c then next ⟨reading.cursor.past c rest, reading.captures⟩ else none
  | .many accepts, reading, next =>
    (reading.cursor.stops accepts).findSome? fun cursor => next ⟨cursor, reading.captures⟩
  | .few accepts, reading, next =>
    reading.cursor.findStop? accepts (fun cursor => next ⟨cursor, reading.captures⟩)
  | .seq first second, reading, next =>
    first.run reading fun later => second.run later next
  | .either first second, reading, next =>
    match first.run reading next with
    | some result => some result
    | none => second.run reading next
  | .rounds body, reading, next =>
    repeated body.run reading.cursor.after.length reading next
  | .capture name body, reading, next =>
    body.run reading fun later =>
      next ⟨later.cursor,
        (name, Thunk.mk fun _ => reading.cursor.upTo later.cursor) :: later.captures⟩
  | .same name fold, reading, next =>
    match reading.get? name with
    | none => none
    | some expected =>
      match Cursor.past? fold expected reading.cursor with
      | none => none
      | some cursor => next ⟨cursor, reading.captures⟩
  | .ahead wanted body, reading, next =>
    if (body.run reading some).isSome = wanted then next reading else none
  | .place holds, reading, next =>
    if holds reading.cursor then next reading else none

/-- The patterns of a list, one after the other. -/
def sequence : List (Pattern slot) → Pattern slot
  | [] => .empty
  | [only] => only
  | first :: rest => .seq first (sequence rest)

/-- The patterns of a list, earlier ones first. -/
def choice : List (Pattern slot) → Pattern slot
  | [] => .one fun _ => false
  | [only] => only
  | first :: rest => .either first (choice rest)

def char (c : Char) : Pattern slot :=
  .one (· == c)

def literal (text : Text) : Pattern slot :=
  .sequence (text.map char)

/-- A pattern if possible. -/
def optional (body : Pattern slot) : Pattern slot :=
  .either body .empty

def exactly : Nat → Pattern slot → Pattern slot
  | 0, _ => .empty
  | count + 1, body => .seq body (exactly count body)

/-- A pattern as often as possible up to a number of times. -/
def upTo : Nat → Pattern slot → Pattern slot
  | 0, _ => .empty
  | count + 1, body => optional (.seq body (upTo count body))

/-- At least one character of a class, as many as possible. -/
def many1 (accepts : Char → Bool) : Pattern slot :=
  .seq (.one accepts) (.many accepts)

/-- At least one character of a class, as few as possible. -/
def few1 (accepts : Char → Bool) : Pattern slot :=
  .seq (.one accepts) (.few accepts)

/-- A pattern at least once, as often as possible. -/
def rounds1 (body : Pattern slot) : Pattern slot :=
  .seq body (.rounds body)

def behind (accepts : Char → Bool) : Pattern slot :=
  .place fun cursor => cursor.follows accepts

def notBehind (accepts : Char → Bool) : Pattern slot :=
  .place fun cursor => !cursor.follows accepts

def before (accepts : Char → Bool) : Pattern slot :=
  .place fun cursor => cursor.precedes accepts

def notBefore (accepts : Char → Bool) : Pattern slot :=
  .place fun cursor => !cursor.precedes accepts

def textStart : Pattern slot :=
  .place Cursor.atTextStart

def textEnd : Pattern slot :=
  .place Cursor.atTextEnd

def lineStart : Pattern slot :=
  .place Cursor.atLineStart

def lineEnd : Pattern slot :=
  .place Cursor.atLineEnd

def anything (_ : Char) : Bool :=
  true

def inLine (c : Char) : Bool :=
  c != '\n'

def notSpace (c : Char) : Bool :=
  !Unicode.isSpace c

end Pattern

end Markdown
