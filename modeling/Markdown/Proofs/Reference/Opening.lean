import Markdown.Proofs.Ending.Search
import Markdown.Proofs.Pattern.Reads
import Markdown.Reference.Definition

set_option autoImplicit false

namespace Markdown.Definition

open Pattern

def titleWords (first last : Char) : Language Char :=
  {[first]} * (someOver inLine * {[last]})

/-- Titles in quotes or parentheses. -/
def titles : Language Char :=
  titleWords '"' '"' + (titleWords '(' ')' + titleWords '\'' '\'')

def blankEnd : Language Char :=
  anyOver Text.isBlank * lineEnds

/-- What stands behind the colon of a definition, up to the end of the line. -/
def targetLine : Language Char :=
  anyOver Text.isBlank *
    (someOver notSpace * ((someOver Text.isBlank * titles + 1) * anyOver Text.isBlank))

variable {ahead : Language Char}

theorem reads_titleBetween (first last : Char) :
    (titleBetween first last).Reads ahead (titleWords first last * ahead) := by
  rw [titleWords, mul_assoc, mul_assoc]
  exact (reads_char first).seq (reads_many1.seq (reads_char last))

theorem reads_title : title.Reads ahead (titles * ahead) := by
  rw [titles, add_mul, add_mul]
  exact (reads_titleBetween _ _).either ((reads_titleBetween _ _).either (reads_titleBetween _ _))

theorem reads_titleGap : titleGap.Reads ahead
    (someOver Text.isBlank * ahead +
      anyOver Text.isBlank * ({['\n']} * (anyOver Text.isBlank * ahead))) :=
  reads_many1.either (reads_many.seq ((reads_char '\n').seq reads_many))

/-- A title on the next line makes no difference, since the line that ends before it will do. -/
theorem reads_titled :
    (Pattern.optional (.seq titleGap (.capture .title title))).Reads blankEnd
      (someOver Text.isBlank * (titles * blankEnd) + blankEnd) := by
  have same : someOver Text.isBlank * (titles * blankEnd) +
      anyOver Text.isBlank * ({['\n']} * (anyOver Text.isBlank * (titles * blankEnd))) + blankEnd =
        someOver Text.isBlank * (titles * blankEnd) + blankEnd := by
    ext text
    constructor
    · rintro ((titled | ⟨blanks, inClass, _, ⟨_, rfl, below, -, rfl⟩, rfl⟩) | ends)
      · exact .inl titled
      · exact .inr ⟨blanks, inClass, _, .inr ⟨below, rfl⟩, rfl⟩
      · exact .inr ends
    · rintro (titled | ends)
      · exact .inl (.inl titled)
      · exact .inr ends
  exact same ▸ (reads_titleGap.seq (reads_title.capture .title)).optional

theorem reads_closedUrl {rest : Pattern Part} {arrived : Language Char}
    (reads : rest.Reads arrived ahead) :
    ((Pattern.few1 notSpace).capture Part.url |>.seq
      ((Pattern.optional (.char '>')).seq rest)).Reads arrived (someOver notSpace * ahead) := by
  have same : someOver notSpace * ({['>']} * ahead + ahead) = someOver notSpace * ahead := by
    ext text
    constructor
    · rintro ⟨url, ⟨some, inClass⟩, _, ⟨_, rfl, rest, stands, rfl⟩ | stands, rfl⟩
      · exact ⟨url ++ ['>'], ⟨List.append_ne_nil_of_left_ne_nil some _,
          List.forall_mem_append.2 ⟨inClass, List.forall_mem_singleton.2 rfl⟩⟩, rest, stands,
          List.append_assoc _ _ _⟩
      · exact ⟨url, ⟨some, inClass⟩, _, stands, rfl⟩
    · rintro ⟨url, word, rest, stands, rfl⟩
      exact ⟨url, word, rest, .inr stands, rfl⟩
  exact same ▸ (reads_few1.capture .url).seq ((reads_char '>').optional.seq reads)

/-- Angle brackets around a url are no white space, so they can be read as part of it. -/
theorem reads_url {rest : Pattern Part} {arrived : Language Char}
    (reads : rest.Reads arrived ahead) :
    ((Pattern.optional (.char '<')).seq ((Pattern.few1 notSpace).capture Part.url |>.seq
      ((Pattern.optional (.char '>')).seq rest))).Reads arrived (someOver notSpace * ahead) := by
  have same : {['<']} * (someOver notSpace * ahead) + someOver notSpace * ahead =
      someOver notSpace * ahead := by
    ext text
    constructor
    · rintro (⟨_, rfl, _, ⟨url, ⟨some, inClass⟩, rest, stands, rfl⟩, rfl⟩ | stands)
      · exact ⟨'<' :: url, ⟨List.cons_ne_nil _ _, List.forall_mem_cons.2 ⟨rfl, inClass⟩⟩, rest,
          stands, rfl⟩
      · exact stands
    · exact .inr
  exact same ▸ (reads_char '<').optional.seq (reads_closedUrl reads)

/-- What stands in front of the bracket that closes the label of a definition. -/
def labelFront : Language Char :=
  fewOver 3 Text.isBlank * ({['[']} * someOver (· != ']'))

/-- What stands at the beginning of a definition. -/
def opening : Language Char :=
  labelFront * ({"]:".toList} * (targetLine * lineEnds))

/-- A definition matches exactly at the starts of lines where an opening stands. -/
theorem outcomes_definition_ne_nil_iff (reading : Reading Part) :
    definition.outcomes reading ≠ [] ↔
      reading.cursor.atLineStart = true ∧ reading.cursor.after ∈ opening := by
  have target : anyOver Text.isBlank * (someOver notSpace *
      (someOver Text.isBlank * (titles * blankEnd) + blankEnd)) = targetLine * lineEnds := by
    simp only [targetLine, blankEnd, mul_assoc, add_mul, one_mul]
  have reads : Pattern.Reads (.sequence
      [.upTo 3 (.one Text.isBlank), .char '[', .capture .label (.many1 (· != ']')),
        .literal "]:".toList, .many Text.isBlank, .optional (.char '<'),
        .capture .url (.few1 Pattern.notSpace), .optional (.char '>'),
        .optional (.seq titleGap (.capture .title title)), .many Text.isBlank, .lineEnd])
      ⊤ opening := by
    rw [opening, ← target, labelFront, mul_assoc, mul_assoc]
    exact (reads_upTo 3).seq <| (reads_char '[').seq <| (reads_many1.capture Part.label).seq <|
      (reads_literal _).seq <| reads_many.seq <|
      reads_url (reads_titled.seq (reads_many.seq reads_lineEnd))
  change (Pattern.seq .lineStart _).outcomes reading ≠ [] ↔ _
  rw [outcomes, lineStart, outcomes]
  split
  · next starts =>
    rw [List.flatMap_singleton, reads.outcomes_ne_nil_iff, and_iff_right starts]
  · next elsewhere => simp [elsewhere]

theorem mem_labelFront_iff {front : Text} : front ∈ labelFront ↔ ∃ blanks label : Text,
    front = blanks ++ '[' :: label ∧ blanks.length ≤ 3 ∧ (∀ c ∈ blanks, Text.isBlank c = true) ∧
      label ≠ [] ∧ ']' ∉ label := by
  have inside : ∀ {label : Text}, (∀ c ∈ label, (c != ']') = true) ↔ ']' ∉ label := fun {label} =>
    ⟨fun inClass member => absurd (inClass _ member) (by decide),
      fun plain c member => bne_iff_ne.2 fun same => plain (same ▸ member)⟩
  constructor
  · rintro ⟨blanks, ⟨short, inClass⟩, _, ⟨_, rfl, label, ⟨some, inLabel⟩, rfl⟩, rfl⟩
    exact ⟨blanks, label, rfl, short, inClass, some, inside.1 inLabel⟩
  · rintro ⟨blanks, label, rfl, short, inClass, some, plain⟩
    exact ⟨blanks, ⟨short, inClass⟩, _, ⟨_, rfl, label, ⟨some, inside.2 plain⟩, rfl⟩, rfl⟩

theorem mem_opening_iff {text : Text} : text ∈ opening ↔
    ∃ front ∈ labelFront, ∃ target ∈ targetLine, ∃ ending ∈ lineEnds,
      text = front ++ ']' :: ':' :: (target ++ ending) := by
  constructor
  · rintro ⟨front, labelled, _, ⟨_, rfl, _, ⟨target, word, ending, ends, rfl⟩, rfl⟩, rfl⟩
    exact ⟨front, labelled, target, word, ending, ends, rfl⟩
  · rintro ⟨front, labelled, target, word, ending, ends, rfl⟩
    exact ⟨front, labelled, _, ⟨_, rfl, _, ⟨target, word, ending, ends, rfl⟩, rfl⟩, rfl⟩

theorem not_mem_of_labelFront {front : Text} (labelled : front ∈ labelFront) : ']' ∉ front := by
  obtain ⟨blanks, label, rfl, -, inClass, -, plain⟩ := mem_labelFront_iff.1 labelled
  rw [List.mem_append, List.mem_cons, not_or, not_or]
  exact ⟨fun blank => absurd (inClass _ blank) (by decide), by decide, plain⟩

/-- A label that goes on below a line can go on in any way up to the next closing bracket. -/
theorem labelFront_of_line {line rest other : Text} (labelled : line ++ '\n' :: rest ∈ labelFront)
    (unclosed : ']' ∉ other) : line ++ '\n' :: other ∈ labelFront := by
  obtain ⟨blanks, label, cut, short, inClass, -, plain⟩ := mem_labelFront_iff.1 labelled
  have sameLine : '\n' ∉ blanks ++ ['['] := by
    rw [List.mem_append, not_or]
    exact ⟨fun blank => absurd (inClass _ blank) (by decide), by decide⟩
  obtain ⟨more, rfl, rfl⟩ := exists_of_append_cons
    (cut.trans (List.append_cons blanks '[' label)) sameLine
  rw [List.mem_append, not_or] at plain
  refine mem_labelFront_iff.2 ⟨blanks, more ++ '\n' :: other, by simp, short, inClass, by simp, ?_⟩
  rw [List.mem_append, List.mem_cons, not_or, not_or]
  exact ⟨plain.1, by decide, unclosed⟩

theorem not_mem_of_titles {title : Text} (word : title ∈ titles) : '\n' ∉ title := by
  have between : ∀ {first last : Char}, '\n' ≠ first → '\n' ≠ last →
      title ∈ titleWords first last → '\n' ∉ title := by
    rintro first last opens closes ⟨_, rfl, _, ⟨inner, ⟨-, inClass⟩, _, rfl, rfl⟩, rfl⟩
    change '\n' ∉ first :: (inner ++ [last])
    rw [List.mem_cons, List.mem_append, List.mem_singleton, not_or, not_or]
    exact ⟨opens, fun inside => absurd (inClass _ inside) (by decide), closes⟩
  rcases word with quoted | bracketed | quoted
  · exact between (by decide) (by decide) quoted
  · exact between (by decide) (by decide) bracketed
  · exact between (by decide) (by decide) quoted

theorem not_mem_of_targetLine {line : Text} (word : line ∈ targetLine) : '\n' ∉ line := by
  have blank : ∀ {text : Text}, text ∈ anyOver Text.isBlank → '\n' ∉ text :=
    fun inClass member => absurd (inClass _ member) (by decide)
  obtain ⟨blanks, start, _, ⟨url, ⟨-, visible⟩, _, ⟨titled, choice, tail, finish, rfl⟩, rfl⟩,
    rfl⟩ := word
  have inUrl : '\n' ∉ url := fun member => absurd (visible _ member) (by decide)
  have inTitle : '\n' ∉ titled := by
    rcases choice with ⟨gap, ⟨-, gapped⟩, title, word, rfl⟩ | rfl
    · exact fun member => (List.mem_append.1 member).elim (blank gapped) (not_mem_of_titles word)
    · exact List.not_mem_nil
  change '\n' ∉ blanks ++ (url ++ (titled ++ tail))
  simp only [List.mem_append, not_or]
  exact ⟨blank start, inUrl, inTitle, blank finish⟩

/-- Where a definition would begin if what stands below a line were taken out, one begins already,
provided that one begins in what is taken out. -/
theorem opening_of_opening {line kept text : Text} (opens : line ++ '\n' :: kept ∈ opening)
    (next : text ∈ opening) : line ++ '\n' :: text ∈ opening := by
  obtain ⟨front, labelled, target, word, ending, ends, cut⟩ := mem_opening_iff.1 opens
  rcases List.append_eq_append_iff.1 cut with ⟨longer, rfl, below⟩ | ⟨closed, rfl, same⟩
  · -- The label goes on below the line, so it can end where the next one does.
    obtain ⟨rest, rfl⟩ : ∃ rest, longer = '\n' :: rest := by
      cases longer with
      | nil => cases below
      | cons c rest => exact ⟨rest, by rw [(List.cons.inj below).1]⟩
    obtain ⟨later, opened, target, word, ending, ends, rfl⟩ := mem_opening_iff.1 next
    have front := labelFront_of_line labelled (not_mem_of_labelFront opened)
    exact mem_opening_iff.2 ⟨line ++ '\n' :: later, front, target, word, ending, ends, by simp⟩
  · -- The label is closed on the line, so the target is there too.
    have sameLine : '\n' ∉ ']' :: ':' :: target := by
      rw [List.mem_cons, List.mem_cons, not_or, not_or]
      exact ⟨by decide, by decide, not_mem_of_targetLine word⟩
    obtain ⟨more, rfl, rest⟩ := exists_of_append_cons
      (same.symm : closed ++ '\n' :: kept = (']' :: ':' :: target) ++ ending) sameLine
    refine mem_opening_iff.2 ⟨front, labelled, target, word, more ++ '\n' :: text, ?_, by simp⟩
    rcases ends with rfl | ⟨tail, rfl⟩
    · cases more <;> cases rest
    · cases more with
      | nil => exact .inr ⟨text, rfl⟩
      | cons c more =>
        rw [← (List.cons.inj rest).1]
        exact .inr ⟨_, rfl⟩

end Markdown.Definition
