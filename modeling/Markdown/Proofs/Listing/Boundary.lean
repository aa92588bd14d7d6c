import Markdown.Proofs.Listing.Item
import Markdown.Proofs.Pattern.Matches
import Markdown.Proofs.Pattern.Reads
import Markdown.Proofs.Pattern.Slots

set_option autoImplicit false

namespace Markdown.Listing

open Pattern

def markers : Language Char :=
  {word | IsMarker word}

theorem markers_eq : markers =
    single (fun c => c == '*' || c == '+' || c == '-') + someOver Unicode.isDigit * {['.']} := by
  ext word
  constructor
  · rintro (@⟨c, mark⟩ | @⟨digits, some, each⟩)
    · exact .inl ⟨c, rfl, by simpa [or_assoc] using mark⟩
    · exact .inr ⟨digits, ⟨some, each⟩, _, rfl, rfl⟩
  · rintro (⟨c, rfl, mark⟩ | ⟨digits, ⟨some, each⟩, _, rfl, rfl⟩)
    · exact .bullet (by simpa [or_assoc] using mark)
    · exact .number some each

theorem reads_marker (ahead : Language Char) : marker.Reads ahead (markers * ahead) := by
  rw [markers_eq, add_mul, mul_assoc]
  exact reads_one.either (reads_many1.seq (reads_char '.'))

def markerGaps : Language Char :=
  markers * someOver Text.isBlank

theorem reads_markerGap (ahead : Language Char) : markerGap.Reads ahead (markerGaps * ahead) := by
  rw [markerGaps, mul_assoc]
  exact (reads_marker _).seq reads_many1

/-- What an item may end in front of, up to newlines: the end of the list, or an item with the same
indentation. -/
def boundary (indent : Text) : Language Char :=
  1 + {indent} * (markerGaps * ⊤)

theorem outcomes_same_ne_nil_iff {rest : Pattern Part} {here : Language Char}
    (reads : rest.Reads ⊤ here) {reading : Reading Part} {indent : Text}
    (kept : reading.get? .indent = some indent) :
    (Pattern.seq (.same .indent id) rest).outcomes reading ≠ [] ↔
      reading.cursor.after ∈ {indent} * here := by
  constructor
  · intro some
    obtain ⟨later, member⟩ := List.exists_mem_of_ne_nil _ some
    obtain ⟨middle, again, onward⟩ := List.mem_flatMap.1 member
    have stands := (reads.outcomes_ne_nil_iff middle).1 (List.ne_nil_of_mem onward)
    exact ⟨indent, rfl, _, stands, ((mem_outcomes_same_iff kept).1 again).1.after.symm⟩
  · rintro ⟨_, rfl, rest, stands, whole⟩
    obtain ⟨stop, passes, rfl⟩ := exists_passes_of_after whole.symm
    obtain ⟨later, member⟩ := List.exists_mem_of_ne_nil _
      ((reads.outcomes_ne_nil_iff ⟨stop, reading.captures⟩).2 stands)
    exact List.ne_nil_of_mem (List.mem_flatMap.2
      ⟨⟨stop, reading.captures⟩, (mem_outcomes_same_iff kept).2 ⟨passes, rfl⟩, member⟩)

theorem outcomes_nextItem_ne_nil_iff {reading : Reading Part} {indent : Text}
    (kept : reading.get? .indent = some indent) :
    nextItem.outcomes reading ≠ [] ↔
      reading.cursor.after ∈ anyOver Text.isNewline * boundary indent := by
  have behind : ∀ stop : Cursor, (Pattern.either .textEnd (.seq (.same .indent id) markerGap) :
      Pattern Part).outcomes ⟨stop, reading.captures⟩ ≠ [] ↔ stop.after ∈ boundary indent := by
    intro stop
    have again := @outcomes_same_ne_nil_iff _ _ (reads_markerGap ⊤) ⟨stop, reading.captures⟩ _ kept
    rw [outcomes, ne_eq, List.append_eq_nil_iff, not_and_or, boundary, Language.mem_add,
      Language.mem_one, ← again]
    simp [textEnd, outcomes, Cursor.atTextEnd]
  rw [← exists_mem_stops_iff]
  constructor
  · intro some
    obtain ⟨later, member⟩ := List.exists_mem_of_ne_nil _ some
    obtain ⟨middle, run, onward⟩ := List.mem_flatMap.1 member
    obtain ⟨stop, reached, rfl⟩ := List.mem_map.1 run
    exact ⟨stop, reached, (behind stop).1 (List.ne_nil_of_mem onward)⟩
  · rintro ⟨stop, reached, stands⟩
    obtain ⟨later, member⟩ := List.exists_mem_of_ne_nil _ ((behind stop).2 stands)
    exact List.ne_nil_of_mem (List.mem_flatMap.2 ⟨_, List.mem_map_of_mem reached, member⟩)

def marked : Pattern Part :=
  .seq markerGap (.seq (.capture .content itemText) (.ahead true nextItem))

def lastBreaks : Language Char :=
  {['\n']} * ({['\n']} + 1) + ({['\n']} + 1)

theorem reads_itemText : itemText.Reads 1 (someOver anything * lastBreaks) := by
  have ends : (Pattern.textEnd : Pattern Part).Reads 1 1 := by
    intro reading
    simp [textEnd, outcomes, Cursor.atTextEnd, Language.mem_one]
  have newline : (Pattern.optional (.char '\n') : Pattern Part).Reads 1 ({['\n']} + 1) := by
    simpa using (@reads_char Part _ 1 '\n').optional
  exact reads_few1.seq (((reads_char '\n').seq newline).either (newline.seq ends))

/-- An item is there wherever something stands behind its marker and the first blank. -/
theorem outcomes_marked_ne_nil {reading : Reading Part} {indent : Text}
    (kept : reading.get? .indent = some indent) {m : Text} (isMarker : IsMarker m) {b : Char}
    (blank : Text.isBlank b = true) {more : Text} (filled : more ≠ [])
    (stands : reading.cursor.after = m ++ b :: more) : marked.outcomes reading ≠ [] := by
  have here : reading.cursor.after ∈ markerGaps * (someOver anything * lastBreaks) := by
    refine ⟨m ++ [b], ⟨m, isMarker, [b], ⟨List.cons_ne_nil _ _, ?_⟩, rfl⟩, more,
      ⟨more, ⟨filled, fun _ _ => rfl⟩, [], .inr (.inr rfl), List.append_nil _⟩, by simp [stands]⟩
    exact List.forall_mem_singleton.2 blank
  obtain ⟨later, member, ended⟩ :=
    ((reads_markerGap _).seq (reads_itemText.capture .content) reading).2 here
  obtain ⟨middle, early, late⟩ := List.mem_flatMap.1 member
  have still : later.get? .indent = some indent := by
    rw [get?_of_mem_outcomes (by rfl) late, get?_of_mem_outcomes (by rfl) early, kept]
  have onward := (outcomes_nextItem_ne_nil_iff still).2
    ⟨[], by simp [anyOver], _, .inl ended, rfl⟩
  exact List.ne_nil_of_mem (List.mem_flatMap.2 ⟨middle, early,
    List.mem_flatMap.2 ⟨later, late, mem_outcomes_ahead_iff.2 ⟨rfl, onward⟩⟩⟩)

theorem passes_of_mem_lineBreaks {reading later : Reading Part}
    (member : later ∈ lineBreaks.outcomes reading) :
    reading.cursor.Passes ['\n'] later.cursor ∨ reading.cursor.Passes ['\n', '\n'] later.cursor ∨
      later.cursor.after = [] := by
  rcases List.mem_append.1 member with broken | ended
  · obtain ⟨middle, one, more⟩ := List.mem_flatMap.1 broken
    obtain ⟨first, -⟩ := passes_of_mem_char one
    obtain ⟨present, second, -⟩ := exists_passes_of_mem_optional_char more
    cases present with
    | true => exact .inr (.inl (first.trans second))
    | false => exact .inl (first.trans second)
  · obtain ⟨middle, -, last⟩ := List.mem_flatMap.1 ended
    obtain ⟨rfl, here⟩ := mem_outcomes_place_iff.1 last
    exact .inr (.inr (List.isEmpty_iff.1 here))

/-- Of two newlines both are tried first. -/
theorem exists_lineBreaks_eq_cons {reading : Reading Part} {rest : Text}
    (next : reading.cursor.after = '\n' :: '\n' :: rest) :
    ∃ first others, lineBreaks.outcomes reading = first :: others ∧
      reading.cursor.Passes ['\n', '\n'] first.cursor := by
  obtain ⟨⟨offset, before, after⟩, captures⟩ := reading
  obtain rfl : after = '\n' :: '\n' :: rest := next
  exact ⟨_, _, rfl, rfl, rfl, rfl⟩

/-- Where an item has ended: at the end of the text, behind a newline in front of no other, or behind
two. -/
inductive Stopped (stop : Cursor) : Prop
  | text (nothing : stop.after = [])
  | line {before : Text} (newline : stop.before = '\n' :: before) (other : stop.after.head? ≠ some '\n')
  | empty {before : Text} (newlines : stop.before = '\n' :: '\n' :: before)

variable {indent : Text}

theorem head?_of_mem_boundary (blanks : ∀ c ∈ indent, Text.isBlank c = true) {text : Text}
    (stands : text ∈ boundary indent) : text.head? ≠ some '\n' := by
  rcases stands with rfl | ⟨front, here, _, ⟨_, ⟨m, isMarker, gap, -, rfl⟩, tail, -, rfl⟩, rfl⟩
  · simp
  · obtain rfl : front = indent := here
    cases front with
    | nil =>
      obtain ⟨c, more, rfl, head⟩ := IsMarker.exists_head isMarker
      simpa using ne_of_isHead head '\n' (by decide)
    | cons c front =>
      have blank := blanks c List.mem_cons_self
      have other : c ≠ '\n' := by
        rintro rfl
        exact absurd blank (by decide)
      simpa using other

/-- A newline in front of what an item may end in front of makes no difference. -/
theorem mem_of_newline_cons (blanks : ∀ c ∈ indent, Text.isBlank c = true) {rest : Text}
    (stands : '\n' :: rest ∈ anyOver Text.isNewline * boundary indent) :
    rest ∈ anyOver Text.isNewline * boundary indent := by
  obtain ⟨run, newlines, word, stands, same⟩ := stands
  cases run with
  | nil => exact absurd (congrArg List.head? same) (head?_of_mem_boundary blanks stands)
  | cons c run =>
    obtain ⟨-, rfl⟩ := List.cons.inj same
    exact ⟨run, (List.forall_mem_cons.1 newlines).2, word, stands, rfl⟩

/-- A reading with the text from a place on kept as the content of the item. -/
def withContent (start : Cursor) (later : Reading Part) : Reading Part :=
  ⟨later.cursor, (.content, Thunk.mk fun _ => start.upTo later.cursor) :: later.captures⟩

theorem stopped_of_leads {reading stop : Reading Part} (kept : reading.get? .indent = some indent)
    (blanks : ∀ c ∈ indent, Text.isBlank c = true)
    (leads : (Pattern.seq (.capture .content itemText) (.ahead true nextItem) : Pattern Part).Leads
      reading stop) :
    Stopped stop.cursor ∧ stop.cursor.after ∈ anyOver Text.isNewline * boundary indent := by
  -- The outcomes of the text of the item, each with its line breaks, in the order they are tried.
  have split : (Pattern.seq (.capture .content itemText) (.ahead true nextItem) :
      Pattern Part).outcomes reading =
        ((Pattern.few1 anything).outcomes reading).flatMap fun middle =>
          (lineBreaks.outcomes middle).flatMap fun later =>
            (Pattern.ahead true nextItem).outcomes (withContent reading.cursor later) := by
    have text : itemText = .seq (.few1 anything) lineBreaks := rfl
    rw [outcomes, outcomes, List.flatMap_map, text, outcomes, List.flatMap_assoc]
    rfl
  rw [Leads, split] at leads
  obtain ⟨middle, begun, tried⟩ := exists_head?_of_flatMap leads
  have onward : ∀ later ∈ lineBreaks.outcomes middle,
      nextItem.outcomes (withContent reading.cursor later) ≠ [] ↔
        later.cursor.after ∈ anyOver Text.isNewline * boundary indent := by
    intro later broken
    have member : withContent reading.cursor later ∈
        (Pattern.capture .content itemText).outcomes reading :=
      List.mem_map_of_mem (List.mem_flatMap.2 ⟨middle, begun, broken⟩)
    refine outcomes_nextItem_ne_nil_iff ?_
    rw [get?_of_mem_outcomes (by rfl) member, kept]
  obtain ⟨later, broken, found⟩ := exists_head?_of_flatMap tried
  obtain ⟨rfl, some⟩ := mem_outcomes_ahead_iff.1 (List.mem_of_mem_head? found)
  have stands := (onward later broken).1 some
  refine ⟨?_, stands⟩
  rcases passes_of_mem_lineBreaks broken with one | two | ended
  · by_cases another : later.cursor.after.head? = Option.some '\n'
    · obtain ⟨rest, next⟩ := List.head?_eq_some_iff.1 another
      -- With a second newline there both are tried first, and then the rest goes on as well.
      obtain ⟨first, others, listed, both⟩ :=
        exists_lineBreaks_eq_cons (one.after.trans (congrArg ('\n' :: ·) next))
      have after : first.cursor.after = rest := by
        have := both.after
        rw [one.after, next] at this
        exact (@List.append_cancel_left _ ['\n', '\n'] _ _ this).symm
      have goes := (onward first (listed ▸ List.mem_cons_self)).2
        (after ▸ mem_of_newline_cons blanks (next ▸ stands))
      rw [listed, List.flatMap_cons, outcomes, List.head?_eq_some_head goes] at tried
      have taken : withContent reading.cursor first = withContent reading.cursor later :=
        Option.some.inj tried
      exact taken ▸ .empty both.before
    · exact .line one.before another
  · exact .empty two.before
  · exact .text ended

end Markdown.Listing
