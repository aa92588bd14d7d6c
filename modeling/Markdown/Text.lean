import Markdown.Unicode.Space

set_option autoImplicit false

namespace Markdown

/-- A text is the list of its characters. -/
abbrev Text := List Char

namespace Text

/-- What is said of every character of a text is decided along the text, and not by going through all
characters there are. -/
instance decidableForall (text : Text) (holds : Char → Prop) [DecidablePred holds] :
    Decidable (∀ c ∈ text, holds c) :=
  List.decidableBAll holds text

/-- A carriage return, alone or in front of a newline, becomes a newline. -/
def unifyNewlines : Text → Text
  | [] => []
  | '\r' :: '\n' :: rest => '\n' :: unifyNewlines rest
  | c :: rest => (if c = '\r' then '\n' else c) :: unifyNewlines rest

/-- The text from its first character outside the class on. -/
def trimStart (within : Char → Bool) (text : Text) : Text :=
  text.dropWhile within

/-- The text up to its last character outside the class. -/
def trimEnd (within : Char → Bool) (text : Text) : Text :=
  (text.reverse.dropWhile within).reverse

/-- The text without the characters of the class at its two ends. -/
def trim (within : Char → Bool) (text : Text) : Text :=
  trimEnd within (trimStart within text)

def trimSpace (text : Text) : Text :=
  trim Unicode.isSpace text

def isNewline (c : Char) : Bool :=
  c == '\n'

def isBlank (c : Char) : Bool :=
  c == ' ' || c == '\t'

/-- The pieces of a text between the characters of a class, empty pieces among them. -/
def splitAt {α : Type} (separates : α → Bool) : List α → List (List α)
  | [] => [[]]
  | c :: rest =>
    if separates c then [] :: splitAt separates rest
    else match splitAt separates rest with
      | piece :: more => (c :: piece) :: more
      | [] => [[c]]

/-- The lines of a text, without their newlines; there is always at least one. -/
def lines (text : Text) : List Text :=
  splitAt isNewline text

/-- The words of a text: its longest pieces without white space. -/
def words (text : Text) : List Text :=
  (splitAt Unicode.isSpace text).filter (! ·.isEmpty)

/-- The text `part` stands somewhere in a text. -/
def occursIn (part : Text) : Text → Bool
  | [] => part.isEmpty
  | c :: rest => part.isPrefixOf (c :: rest) || occursIn part rest

/-- Texts one after the other with a separator between them. -/
def join (separator : Text) (parts : List Text) : Text :=
  separator.intercalate parts

/-- What is taken away at the two ends is of the class, and nothing of the class is left there. -/
theorem exists_eq_trimmed {α : Type} (within : α → Bool) (items : List α) :
    ∃ front middle back, items = front ++ (middle ++ back) ∧
      middle = ((items.dropWhile within).reverse.dropWhile within).reverse ∧
      (∀ item ∈ front, within item = true) ∧ (∀ item ∈ back, within item = true) ∧
      (∀ item ∈ middle.head?, within item = false) ∧
      ∀ item ∈ middle.getLast?, within item = false := by
  let started := items.dropWhile within
  let middle := (started.reverse.dropWhile within).reverse
  have starts : items.takeWhile within ++ started = items := List.takeWhile_append_dropWhile
  have ends : middle ++ (started.reverse.takeWhile within).reverse = started := by
    rw [← List.reverse_append, List.takeWhile_append_dropWhile, List.reverse_reverse]
  have outside : ∀ (part : List α), ∀ item ∈ (part.dropWhile within).head?, within item = false := by
    intro part item first
    have refused := List.head?_dropWhile_not within part
    rwa [Option.mem_def.1 first] at refused
  refine ⟨_, middle, _, by rw [ends, starts], rfl, List.all_eq_true.1 List.all_takeWhile,
    fun item inside => List.all_eq_true.1 List.all_takeWhile item (List.mem_reverse.1 inside),
    fun item first => ?_, fun item last => ?_⟩
  · refine outside items item ?_
    change item ∈ started.head?
    rw [← ends, List.head?_append, Option.mem_def.1 first]
    rfl
  · rw [List.getLast?_reverse] at last
    exact outside _ item last

@[simp] theorem unifyNewlines_nil : unifyNewlines [] = [] := rfl

theorem splitAt_ne_nil (separates : Char → Bool) (text : Text) : splitAt separates text ≠ [] := by
  cases text with
  | nil => simp [splitAt]
  | cons c rest =>
    unfold splitAt
    split
    · simp
    · split <;> simp

/-- No piece holds a character that separates. -/
theorem not_separates_of_mem_splitAt {separates : Char → Bool} {text piece : Text}
    (member : piece ∈ splitAt separates text) : ∀ c ∈ piece, separates c = false := by
  induction text generalizing piece with
  | nil =>
    obtain rfl : piece = [] := by simpa [splitAt] using member
    simp
  | cons c rest ih =>
    unfold splitAt at member
    split at member
    · rcases List.mem_cons.1 member with rfl | later
      · simp
      · exact ih later
    · next within =>
      cases pieces : splitAt separates rest with
      | nil => exact absurd pieces (splitAt_ne_nil separates rest)
      | cons first more =>
        rw [pieces] at member ih
        rcases List.mem_cons.1 member with rfl | later
        · intro d inside
          rcases List.mem_cons.1 inside with rfl | inside
          · simpa using within
          · exact ih List.mem_cons_self d inside
        · exact ih (List.mem_cons_of_mem _ later)

theorem lines_ne_nil (text : Text) : lines text ≠ [] :=
  splitAt_ne_nil isNewline text

theorem not_newline_of_mem_lines {text line : Text} (member : line ∈ lines text) : '\n' ∉ line :=
  fun inside => by simpa [isNewline] using not_separates_of_mem_splitAt member _ inside

/-- A word is not empty and holds no white space. -/
theorem of_mem_words {text word : Text} (member : word ∈ words text) :
    word ≠ [] ∧ ∀ c ∈ word, Unicode.isSpace c = false := by
  obtain ⟨piece, filled⟩ := List.mem_filter.1 member
  exact ⟨by simpa using filled, not_separates_of_mem_splitAt piece⟩

end Text

end Markdown
