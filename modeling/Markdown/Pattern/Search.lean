import Markdown.Pattern.Basic

set_option autoImplicit false

namespace Markdown

/-- A match: where it starts, and what was read up to its end. -/
structure Match (slot : Type) where
  start : Cursor
  stop : Reading slot

namespace Match

variable {slot : Type}

def text (found : Match slot) : Text :=
  found.start.upTo found.stop.cursor

/-- The number of characters before the match. -/
def offset (found : Match slot) : Nat :=
  found.start.offset

variable [DecidableEq slot]

/-- The text captured under a slot, if the slot was reached. -/
def get? (found : Match slot) (name : slot) : Option Text :=
  found.stop.get? name

/-- The text captured under a slot, empty if the slot was not reached. -/
def get (found : Match slot) (name : slot) : Text :=
  (found.get? name).getD []

end Match

/-- A piece of a text that was searched: a character outside the matches, or a match. -/
inductive Segment (slot : Type) where
  | plain (c : Char)
  | found (m : Match slot)

namespace Segment

variable {slot : Type}

def match? : Segment slot → Option (Match slot)
  | .plain _ => none
  | .found m => some m

/-- The text of a piece with another text in the place of a match. -/
def replaced (replacement : Match slot → Text) : Segment slot → Text
  | .plain c => [c]
  | .found m => replacement m

def text (piece : Segment slot) : Text :=
  piece.replaced Match.text

/-- The text of a piece with the result of an action in the place of a match. -/
def replacedM {m : Type → Type} [Monad m] (replacement : Match slot → m Text) :
    Segment slot → m Text
  | .plain c => pure [c]
  | .found occurrence => replacement occurrence

/-- The texts between matches when one more piece comes first. -/
def splitOff : Segment slot → List Text → List Text
  | .plain c, part :: rest => (c :: part) :: rest
  | .plain c, [] => [[c]]
  | .found _, parts => [] :: parts

end Segment

namespace Pattern

variable {slot : Type} [DecidableEq slot]

/-- The match of a pattern at the start of a text. -/
def matchStart? (pattern : Pattern slot) (text : Text) : Option (Match slot) :=
  (pattern.run ⟨.first text, []⟩ some).map (⟨.first text, ·⟩)

/-- The pieces of the text behind a place. A match takes at least one character in every search of
this library, so the characters that are left are enough of a budget. -/
def segmentsFrom (pattern : Pattern slot) : Nat → Cursor → List (Segment slot)
  | 0, cursor => cursor.after.map .plain
  | budget + 1, cursor =>
    match cursor.after with
    | [] => []
    | c :: rest =>
      match pattern.run ⟨cursor, []⟩ some with
      | some stop => .found ⟨cursor, stop⟩ :: segmentsFrom pattern budget stop.cursor
      | none => .plain c :: segmentsFrom pattern budget (cursor.past c rest)

/-- A text cut into matches and the characters between them. -/
def segments (pattern : Pattern slot) (text : Text) : List (Segment slot) :=
  pattern.segmentsFrom text.length (.first text)

def matches? (pattern : Pattern slot) (text : Text) : List (Match slot) :=
  (pattern.segments text).filterMap Segment.match?

def replace (pattern : Pattern slot) (replacement : Match slot → Text) (text : Text) : Text :=
  (pattern.segments text).flatMap (Segment.replaced replacement)

/-- A text with the result of an action in the place of each match, from left to right. -/
def replaceM {m : Type → Type} [Monad m] (pattern : Pattern slot)
    (replacement : Match slot → m Text) (text : Text) : m Text := do
  let pieces ← (pattern.segments text).mapM (Segment.replacedM replacement)
  pure pieces.flatten

def split (pattern : Pattern slot) (text : Text) : List Text :=
  (pattern.segments text).foldr Segment.splitOff [[]]

end Pattern

end Markdown
