import Markdown.Proofs.Sheet.Weight

set_option autoImplicit false

namespace Markdown.Selection

def isPunctuation (c : Char) : Bool :=
  let code := c.toNat
  (33 ≤ code && code ≤ 47) || (58 ≤ code && code ≤ 64) || (91 ≤ code && code ≤ 96) ||
    (123 ≤ code && code ≤ 126)

def counts (c : Char) : Bool :=
  !Unicode.isSpace c && !isPunctuation c && !Unicode.isDigit c

def select (text : Text) : Text :=
  text.filter counts

/-- HTML without its tags, the spans from `<` to the next `>`, and without escaped angle brackets. -/
def shown : (inTag : Bool) → Text → Text
  | false, '&' :: 'g' :: 't' :: ';' :: rest => shown false rest
  | false, c :: rest =>
    if c = '<' && rest.contains '>' then shown true rest else c :: shown false rest
  | true, c :: rest => shown (c != '>') rest
  | _, [] => []

theorem shown_tag {name rest : Text} (plain : '>' ∉ name) :
    shown false ('<' :: (name ++ '>' :: rest)) = shown false rest := by
  have inside : shown true (name ++ '>' :: rest) = shown false rest := by
    induction name with
    | nil => rfl
    | cons c more ih =>
      have differs : c ≠ '>' := fun same => plain (same ▸ List.mem_cons_self)
      have later := ih fun member => plain (List.mem_cons_of_mem _ member)
      rw [List.cons_append, shown, bne_iff_ne.2 differs, later]
  rw [shown, if_pos (by simp), inside]
  simp

theorem shown_angle (rest : Text) : shown false ("&gt;".toList ++ rest) = shown false rest := by
  simp [shown]

theorem shown_char {c : Char} (opens : c ≠ '<') (escapes : c ≠ '&') (rest : Text) :
    shown false (c :: rest) = c :: shown false rest := by
  rw [shown]
  · simp [opens]
  · rintro _ rfl
    exact absurd rfl escapes

@[simp] theorem select_append (first second : Text) :
    select (first ++ second) = select first ++ select second :=
  List.filter_append ..

def isTagChar (c : Char) : Bool :=
  c.isAlphanum || c == '/'

/-- The texts of which sheets are made: single characters, tags, and escaped angle brackets. -/
inductive Atom : Text → Text → Prop where
  | char {c : Char} (opens : c ≠ '<') (escapes : c ≠ '&') : Atom [c] (select [c])
  | tag {name : Text} (plain : ∀ c ∈ name, isTagChar c = true) : Atom ('<' :: (name ++ ['>'])) []
  | angle : Atom "&gt;".toList []

/-- In finished sheets only the markers of the document are sealed. -/
inductive Shown : Seal → Text → Prop where
  | marker (side : Side) : Shown (.marker side) (select [Renaming.same.char side])

/-- The scale for finished sheets. -/
def finished : Scale Char := ⟨Atom, Shown⟩

/-- A character that opens HTML, a character reference or a link. -/
def isReserved (c : Char) : Bool :=
  c == '<' || c == '&' || c == '['

/-- What is sealed in a sheet counts as what it stands for. -/
inductive Hidden : Seal → Text → Prop where
  | token {c : Char} (plain : isReserved c = false) : Hidden (.token c) (select [c])
  | marker (side : Side) : Hidden (.marker side) (select [Renaming.same.char side])
  | key {fragment : Sheet} {w : Text} (weighs : finished.Weighs (Sheet.finish fragment) w) :
    Hidden (.key fragment) w

/-- The scale for sheets on the way. -/
def scale : Scale Char := ⟨Atom, Hidden⟩

theorem gt_not_mem_of_isTagChar {name : Text} (plain : ∀ c ∈ name, isTagChar c = true) :
    '>' ∉ name :=
  fun member => absurd (plain _ member) (by decide)

theorem same_char_ne {c : Char} (side : Side) (plain : Unicode.isPrivate c = false) :
    Renaming.same.char side ≠ c :=
  Unicode.ne_of_isPrivate (Renaming.same.isPrivate side) plain

/-- A finished sheet weighs what counts in its HTML. -/
theorem select_shown {sheet : Sheet} {w : Text} (weighs : finished.Weighs sheet w) :
    select (shown false (spell Renaming.same.bare sheet)) = w := by
  induction weighs with
  | nil => rfl
  | @text written w rest v here _ ih =>
    rw [spell_append, spell_chars]
    cases here with
    | char opens escapes =>
      rw [List.singleton_append, shown_char opens escapes, ← ih, ← select_append]
      rfl
    | @tag name plain =>
      rw [List.cons_append, List.append_assoc, List.singleton_append,
        shown_tag (gt_not_mem_of_isTagChar plain), ih, List.nil_append]
    | angle => rw [shown_angle, ih, List.nil_append]
  | @sealed s w rest v here _ ih =>
    cases here with
    | marker side =>
      have apart := fun c => @same_char_ne c side
      rw [spell_cons]
      change select (shown false (Renaming.same.char side :: spell Renaming.same.bare rest)) = _
      rw [shown_char (apart '<' (by decide)) (apart '&' (by decide)), ← ih, ← select_append]
      rfl

/-- The sheet holds none of the reserved characters. -/
def Clear (sheet : Sheet) : Prop :=
  ∀ c, Glyph.char c ∈ sheet → isReserved c = false

/-- The sheet holds no reserved characters and weighs this much. -/
structure Holds (w : Text) (sheet : Sheet) : Prop where
  clear : Clear sheet
  weighs : scale.Weighs sheet w

theorem Atom.of_plain {c : Char} (plain : isReserved c = false) : Atom [c] (select [c]) := by
  simp only [isReserved, Bool.or_eq_false_iff, beq_eq_false_iff_ne] at plain
  exact .char plain.1.1 plain.1.2

theorem Clear.part {sheet part : Sheet} (clear : Clear sheet) (within : part ⊆ sheet) : Clear part :=
  fun c member => clear c (within member)

theorem Clear.append {first second : Sheet} (left : Clear first) (right : Clear second) :
    Clear (first ++ second) :=
  fun c member => (List.mem_append.1 member).elim (left c) (right c)

/-- Only reserved characters start texts of several characters. -/
theorem single_of_plain {c : Char} (plain : isReserved c = false) : scale.Single c := by
  intro more w unit
  generalize whole : c :: more = written at unit
  cases unit with
  | char => exact (List.cons.inj whole).2
  | tag =>
    obtain rfl := (List.cons.inj whole).1
    cases plain
  | angle =>
    obtain rfl := (List.cons.inj whole).1
    cases plain

theorem leads_of_not_isTagChar {c : Char} (plain : isTagChar c = false) (closes : c ≠ '>')
    (ends : c ≠ ';') : scale.Leads c := by
  intro written w unit member
  cases unit with
  | char => exact List.not_mem_nil member
  | tag named =>
    rcases List.mem_append.1 member with inside | last
    · rw [named c inside] at plain
      cases plain
    · exact closes (List.mem_singleton.1 last)
  | angle =>
    have all : ∀ d ∈ "&gt;".toList.tail, isTagChar d = true ∨ d = ';' := by decide
    rcases all c member with tag | semicolon
    · rw [tag] at plain
      cases plain
    · exact ends semicolon

theorem trails_of_not_isTagChar {c : Char} (plain : isTagChar c = false) (opens : c ≠ '<')
    (escapes : c ≠ '&') : scale.Trails c := by
  intro written w unit member
  cases unit with
  | char => exact List.not_mem_nil member
  | tag named =>
    rw [← List.cons_append, List.dropLast_concat] at member
    rcases List.mem_cons.1 member with first | inside
    · exact opens first
    · rw [named c inside] at plain
      cases plain
  | angle =>
    have all : ∀ d ∈ "&gt;".toList.dropLast, isTagChar d = true ∨ d = '&' := by decide
    rcases all c member with tag | ampersand
    · rw [tag] at plain
      cases plain
    · exact escapes ampersand

/-- Reserved characters aside, work on single glyphs keeps the weight if it keeps theirs. -/
theorem Holds.flatMap {drawn : Glyph Seal → Sheet} {sheet : Sheet} {w : Text}
    (chars : ∀ c, isReserved c = false → scale.Weighs (drawn (.char c)) (select [c]))
    (seals : ∀ {s w}, Hidden s w → scale.Weighs (drawn (.sealed s)) w) (holds : Holds w sheet) :
    scale.Weighs (sheet.flatMap drawn) w := by
  obtain ⟨clear, weighs⟩ := holds
  induction weighs with
  | nil => exact .nil
  | text here _ ih =>
    have later := ih (clear.part (List.subset_append_right _ _))
    have plain := fun c member => clear c (List.mem_append_left _ member)
    rw [List.flatMap_append]
    refine .append ?_ later
    cases here with
    | @char c => simpa using chars c (plain c List.mem_cons_self)
    | tag => exact absurd (plain '<' List.mem_cons_self) (by decide)
    | angle => exact absurd (plain '&' List.mem_cons_self) (by decide)
  | sealed here _ ih =>
    rw [List.flatMap_cons]
    exact (seals here).append (ih (clear.part (List.subset_cons_self _ _)))

/-- A finished sheet weighs what the sheet weighed on the way. -/
theorem finish {sheet : Sheet} {w : Text} (weighs : scale.Weighs sheet w) :
    finished.Weighs (Sheet.finish sheet) w := by
  have texts : ∀ {written w}, scale.ofText written w → finished.ofText written w := fun here => here
  refine Scale.Weighs.finish texts (fun hidden => ?_) weighs
  cases hidden with
  | @token c plain =>
    have here : finished.ofText [c] (select [c]) := Atom.of_plain plain
    exact .ofText here
  | marker side => exact .ofSeal (.marker side)
  | key weighs =>
    rw [Sheet.finish_key]
    exact weighs

theorem weighs_of_finished {sheet : Sheet} {w : Text} (weighs : finished.Weighs sheet w) :
    scale.Weighs sheet w := by
  have texts : ∀ {written w}, finished.ofText written w → scale.ofText written w := fun here => here
  refine Scale.Weighs.mono texts (fun here => ?_) weighs
  cases here with
  | marker side => exact .marker side

end Markdown.Selection
