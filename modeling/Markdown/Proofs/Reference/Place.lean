import Mathlib.Data.List.Forall2
import Markdown.Diagnostic
import Markdown.Proofs.Pattern.Matches
import Markdown.Reference.Unresolved

set_option autoImplicit false

namespace Markdown

open Pattern

/-- Some characters of the line have given way to spaces. -/
def Blanks (shown line : Text) : Prop :=
  List.Forall₂ (fun seen c => seen = c ∨ seen = ' ') shown line

namespace Blanks

variable {shown line : Text}

theorem refl (line : Text) : Blanks line line :=
  List.forall₂_same.2 fun _ _ => .inl rfl

theorem replicate (line : Text) : Blanks (List.replicate line.length ' ') line := by
  induction line with
  | nil => exact .nil
  | cons c line ih => exact .cons (.inr rfl) ih

theorem append {more rest : Text} (early : Blanks shown line) (late : Blanks more rest) :
    Blanks (shown ++ more) (line ++ rest) :=
  List.rel_append early late

theorem trans {middle : Text} (early : Blanks shown middle) (late : Blanks middle line) :
    Blanks shown line := by
  induction early generalizing line with
  | nil => exact late
  | cons seen _ ih =>
    cases late with
    | cons kept later =>
      refine .cons ?_ (ih later)
      rcases seen with rfl | blank
      · exact kept
      · exact .inr blank

theorem length_eq (blanks : Blanks shown line) : shown.length = line.length :=
  List.Forall₂.length_eq blanks

/-- What is seen in front of the rest and is no space stands in the line. -/
theorem prefix_of_prefix (blanks : Blanks shown line) {front : Text} (here : front <+: shown)
    (inked : ' ' ∉ front) : front <+: line := by
  induction front generalizing shown line with
  | nil => exact List.nil_prefix
  | cons c front ih =>
    obtain ⟨rest, rfl⟩ := here
    rw [List.mem_cons, not_or] at inked
    cases blanks with
    | cons seen later =>
      rcases seen with rfl | rfl
      · exact List.cons_prefix_cons.2 ⟨rfl, ih later (List.prefix_append _ _) inked.2⟩
      · exact absurd rfl inked.1

theorem reverse (blanks : Blanks shown line) : Blanks shown.reverse line.reverse :=
  List.rel_reverse blanks

theorem suffix_of_suffix (blanks : Blanks shown line) {back : Text} (here : back <:+ shown)
    (inked : ' ' ∉ back) : back <:+ line := by
  have turned := blanks.reverse.prefix_of_prefix (List.reverse_prefix.2 here)
    (mt List.mem_reverse.1 inked)
  exact List.reverse_prefix.1 turned

end Blanks

namespace Unresolved

theorem blanks_replace (pattern : Pattern Part) (line : Text) :
    Blanks (pattern.replace blanked line) line := by
  suffices each : ∀ pieces : List (Segment Part),
      Blanks (pieces.flatMap (Segment.replaced blanked)) (pieces.flatMap Segment.text) by
    have whole := each (pattern.segments line)
    rwa [flatMap_text_segments] at whole
  intro pieces
  induction pieces with
  | nil => exact .nil
  | cons piece pieces ih =>
    rw [List.flatMap_cons, List.flatMap_cons]
    refine Blanks.append ?_ ih
    cases piece with
    | plain c => exact .refl [c]
    | found m => exact .replicate m.text

/-- What is seen of a line has the length of the line and its characters, spaces aside. -/
theorem blanks_visible (line : Text) : Blanks (visible line) line :=
  (blanks_replace codeSpan _).trans (blanks_replace backslashPair line)

/-- A usage of a link or of an image, with or without a space between its parts. -/
def written (image spaced : Bool) (text label : Text) : Text :=
  given image ['!'] ++ '[' :: (text ++ ']' :: (given spaced [' '] ++ '[' :: (label ++ [']'])))

theorem opens_written (image spaced : Bool) (text label : Text) :
    ['['] <+: written image spaced text label ∨ ['!', '['] <+: written image spaced text label := by
  cases image with
  | false => exact .inl (List.prefix_append ['['] _)
  | true => exact .inr (List.prefix_append ['!', '['] _)

theorem closes_written (image spaced : Bool) (text label : Text) :
    [']'] <:+ written image spaced text label :=
  ⟨given image ['!'] ++ '[' :: (text ++ ']' :: (given spaced [' '] ++ '[' :: label)),
    by simp [written]⟩

theorem length_written_pos (image spaced : Bool) (text label : Text) :
    0 < (written image spaced text label).length := by
  rw [written, List.length_append, List.length_cons]
  omega

/-- The label that a usage with the two parts refers to. -/
def labelFrom (text label : Text) : Text :=
  if label.isEmpty then text else label

/-- A match of a usage is a usage as it is written, and its two parts are kept. -/
theorem exists_written_of_mem_usage {cursor : Cursor} {later : Reading Part}
    (member : later ∈ usage.outcomes ⟨cursor, []⟩) : ∃ image spaced text label,
      (∀ c ∈ text, isInner c = true) ∧ (∀ c ∈ label, isInner c = true) ∧
        cursor.Passes (written image spaced text label) later.cursor ∧
        later.get? .text = some text ∧ later.get? .label = some label := by
  obtain ⟨first, bang, member⟩ := List.mem_flatMap.1 member
  obtain ⟨second, opened, member⟩ := List.mem_flatMap.1 member
  obtain ⟨third, inText, member⟩ := List.mem_flatMap.1 member
  obtain ⟨fourth, closed, member⟩ := List.mem_flatMap.1 member
  obtain ⟨fifth, space, member⟩ := List.mem_flatMap.1 member
  obtain ⟨sixth, opened', member⟩ := List.mem_flatMap.1 member
  obtain ⟨seventh, inLabel, closed'⟩ := List.mem_flatMap.1 member
  obtain ⟨image, toFirst, none⟩ := exists_passes_of_mem_optional_char bang
  obtain ⟨toSecond, same₂⟩ := passes_of_mem_char opened
  obtain ⟨text, keptText, toThird, plainText, same₃, textKept⟩ :=
    exists_passes_of_mem_capture_many inText
  obtain ⟨toFourth, same₄⟩ := passes_of_mem_char closed
  obtain ⟨spaced, toFifth, same₅⟩ := exists_passes_of_mem_optional_char space
  obtain ⟨toSixth, same₆⟩ := passes_of_mem_char opened'
  obtain ⟨label, keptLabel, toSeventh, plainLabel, same₇, labelKept⟩ :=
    exists_passes_of_mem_capture_many inLabel
  obtain ⟨toLast, same⟩ := passes_of_mem_char closed'
  have captures : later.captures = [(.label, keptLabel), (.text, keptText)] := by
    rw [same, same₇, same₆, same₅, same₄, same₃, same₂, none]
  have whole : written image spaced text label =
      given image ['!'] ++ (['['] ++ (text ++ ([']'] ++ (given spaced [' '] ++
        (['['] ++ (label ++ [']'])))))) := by
    simp [written]
  refine ⟨image, spaced, text, label, plainText, plainLabel, ?_, ?_, ?_⟩
  · rw [whole]
    exact toFirst.trans (toSecond.trans (toThird.trans (toFourth.trans (toFifth.trans
      (toSixth.trans (toSeventh.trans toLast))))))
  · simp [Reading.get?, captures, textKept]
  · simp [Reading.get?, captures, labelKept]

def lineIn (document : Text) (usage : Unresolved) : Text :=
  document.unifyNewlines.lines.getD (usage.line - 1) []

def slice (usage : Unresolved) (line : Text) : Text :=
  (line.drop (usage.column - 1)).take usage.length

/-- What is told of a usage is so in the document. -/
structure Exact (document : Text) (usage : Unresolved) : Prop where
  line_pos : 1 ≤ usage.line
  line_le : usage.line ≤ document.unifyNewlines.lines.length
  column_pos : 1 ≤ usage.column
  length_pos : 1 ≤ usage.length
  within : usage.column - 1 + usage.length ≤ (usage.lineIn document).length
  opens : ['['] <+: usage.slice (usage.lineIn document) ∨
    ['!', '['] <+: usage.slice (usage.lineIn document)
  closes : [']'] <:+ usage.slice (usage.lineIn document)
  /-- Where backslash pairs and code spans are blanked, the usage and its label stand. -/
  seen : ∃ image spaced text label,
    (∀ c ∈ text, isInner c = true) ∧ (∀ c ∈ label, isInner c = true) ∧
      usage.slice (visible (usage.lineIn document)) = written image spaced text label ∧
      usage.label = labelFrom text label
  filled : usage.label.trimSpace ≠ []
  undefined :
    (ReferenceTable.empty.extract document.unifyNewlines).table.lookup usage.label = none

/-- One usage stands before another and ends before it begins. -/
def Precedes (usage other : Unresolved) : Prop :=
  usage.line < other.line ∨ usage.line = other.line ∧ usage.column < other.column ∧
    usage.column + usage.length ≤ other.column

section Line

variable {table : ReferenceTable} {line : Text} {number : Nat} {told : Unresolved}

theorem exists_match_of_mem_inLine (member : told ∈ inLine table line number) :
    ∃ found ∈ usage.matches? (visible line),
      told = ⟨labelOf found, number, found.offset + 1, found.text.length⟩ ∧
        (labelOf found).trimSpace ≠ [] ∧ table.lookup (labelOf found) = none := by
  rw [inLine] at member
  split at member
  · cases member
  · obtain ⟨found, inside, same⟩ := List.mem_filterMap.1 member
    dsimp only at same
    split at same
    · cases same
    · next settled =>
      rw [Bool.or_eq_true, not_or, List.isEmpty_iff, ReferenceTable.contains,
        Option.isSome_iff_ne_none, not_not] at settled
      exact ⟨found, inside, (Option.some.inj same).symm, settled⟩

/-- Where the text of a match stands. -/
theorem slice_of_match {found : Match Part} (member : found ∈ usage.matches? (visible line))
    (label : Text) :
    slice ⟨label, number, found.offset + 1, found.text.length⟩ (visible line) = found.text := by
  obtain ⟨early, late, whole, offset⟩ := (follows_of_mem_matches? member).exists_eq_append
  rw [slice, Nat.add_sub_cancel, whole, ← offset, List.drop_left, List.take_left]

theorem within_of_match {found : Match Part} (member : found ∈ usage.matches? (visible line)) :
    found.offset + found.text.length ≤ line.length := by
  obtain ⟨early, late, whole, offset⟩ := (follows_of_mem_matches? member).exists_eq_append
  rw [← (blanks_visible line).length_eq, whole, ← offset, List.length_append, List.length_append]
  omega

/-- A slice of a line is seen with some of its characters turned into spaces. -/
theorem blanks_slice (told : Unresolved) (line : Text) :
    Blanks (told.slice (visible line)) (told.slice line) :=
  List.forall₂_take _ (List.forall₂_drop _ (blanks_visible line))

theorem exists_written_of_match {found : Match Part}
    (member : found ∈ usage.matches? (visible line)) : ∃ image spaced text label,
      (∀ c ∈ text, isInner c = true) ∧ (∀ c ∈ label, isInner c = true) ∧
        found.text = written image spaced text label ∧ labelOf found = labelFrom text label := by
  have follows := follows_of_mem_matches? member
  obtain ⟨image, spaced, text, label, plainText, plainLabel, passes, first, second⟩ :=
    exists_written_of_mem_usage follows.outcome
  refine ⟨image, spaced, text, label, plainText, plainLabel, passes.upTo_eq, ?_⟩
  simp [labelOf, labelFrom, Match.get, Match.get?, first, second]

/-- The usages of one line are told from left to right. -/
theorem pairwise_inLine (table : ReferenceTable) (line : Text) (number : Nat) :
    (inLine table line number).Pairwise Precedes := by
  have filled : ∀ m ∈ usage.matches? (visible line), 0 < m.text.length := by
    intro m member
    obtain ⟨image, spaced, text, label, -, -, same, -⟩ := exists_written_of_match member
    exact same ▸ length_written_pos image spaced text label
  have apart : (usage.matches? (visible line)).Pairwise fun m n =>
      m.offset < n.offset ∧ m.offset + m.text.length ≤ n.offset := by
    refine (pairwise_matches? usage (visible line)).imp_of_mem fun here _ later => ⟨?_, later⟩
    have some := filled _ here
    omega
  rw [inLine]
  split
  · exact .nil
  · refine apart.filterMap _ fun m n later first here second there => ?_
    dsimp only at here there
    split at here
    · cases here
    · split at there
      · cases there
      · obtain rfl := Option.some.inj here
        obtain rfl := Option.some.inj there
        exact .inr ⟨rfl, Nat.succ_lt_succ later.1, by dsimp only; omega⟩

end Line

variable {document : Text} {told : Unresolved}

theorem exists_line_of_mem_findUnresolved (member : told ∈ findUnresolved document) :
    1 ≤ told.line ∧ told.line ≤ document.unifyNewlines.lines.length ∧
      told ∈ inLine (ReferenceTable.empty.extract document.unifyNewlines).table
        (told.lineIn document) told.line := by
  obtain ⟨⟨line, number⟩, inside, here⟩ := List.mem_flatMap.1 member
  obtain ⟨found, -, rfl, -⟩ := exists_match_of_mem_inLine here
  obtain ⟨first, stands⟩ := List.mem_zipIdx_iff_le_and_getElem?_sub.1 inside
  obtain ⟨below, -⟩ := List.getElem?_eq_some_iff.1 stands
  have same :
      lineIn document ⟨labelOf found, number, found.offset + 1, found.text.length⟩ = line := by
    rw [lineIn, List.getD_eq_getElem?_getD, stands, Option.getD_some]
  rw [same]
  exact ⟨first, by dsimp only; omega, here⟩

theorem exact_of_mem_findUnresolved (member : told ∈ findUnresolved document) :
    told.Exact document := by
  obtain ⟨line_pos, line_le, inside⟩ := exists_line_of_mem_findUnresolved member
  generalize stands : told.lineIn document = line at inside
  obtain ⟨found, here, same, filled, undefined⟩ := exists_match_of_mem_inLine inside
  obtain ⟨image, spaced, text, label, plainText, plainLabel, whole, named⟩ :=
    exists_written_of_match here
  have seen : told.slice (visible line) = written image spaced text label := by
    rw [same, slice_of_match here, whole]
  have blanks := blanks_slice told line
  rw [seen] at blanks
  subst stands
  constructor
  case line_pos => exact line_pos
  case line_le => exact line_le
  case column_pos =>
    rw [same]
    exact Nat.succ_pos _
  case length_pos =>
    rw [same]
    exact whole ▸ length_written_pos image spaced text label
  case within =>
    have within := within_of_match here
    rwa [congrArg column same, congrArg length same]
  case opens =>
    exact (opens_written image spaced text label).imp
      (blanks.prefix_of_prefix · (by decide)) (blanks.prefix_of_prefix · (by decide))
  case closes =>
    exact blanks.suffix_of_suffix (closes_written image spaced text label) (by decide)
  case seen =>
    exact ⟨image, spaced, text, label, plainText, plainLabel, seen,
      (congrArg Unresolved.label same).trans named⟩
  case filled => rwa [congrArg Unresolved.label same]
  case undefined => rwa [congrArg Unresolved.label same]

theorem pairwise_findUnresolved (document : Text) :
    (findUnresolved document).Pairwise Precedes := by
  have numbered : ((document.unifyNewlines.lines.zipIdx 1).map Prod.snd).Pairwise (· < ·) := by
    rw [List.zipIdx_map_snd]
    exact List.pairwise_lt_range'
  rw [findUnresolved, unresolvedUnder, List.pairwise_flatMap]
  refine ⟨fun entry _ => pairwise_inLine _ _ _, (List.pairwise_map.1 numbered).imp ?_⟩
  rintro ⟨line, number⟩ ⟨other, later⟩ below told here next there
  obtain ⟨_, -, rfl, -⟩ := exists_match_of_mem_inLine here
  obtain ⟨_, -, rfl, -⟩ := exists_match_of_mem_inLine there
  exact .inl below

end Unresolved

namespace Diagnostic

/-- A remark marks the place that is told of a usage, where lines and characters count from zero. -/
structure Marks (remark : Diagnostic) (usage : Unresolved) : Prop where
  start_line : remark.start.line + 1 = usage.line
  start_character : remark.start.character + 1 = usage.column
  stop_line : remark.stop.line + 1 = usage.line
  stop_character : remark.stop.character + 1 = usage.column + usage.length

theorem marks_ofUnresolved {document : Text} {usage : Unresolved} (exact : usage.Exact document) :
    (ofUnresolved usage).Marks usage := by
  have line := exact.line_pos
  have column := exact.column_pos
  constructor <;> dsimp only [ofUnresolved] <;> omega

/-- The warnings are those of the usages, and an error there is only about nesting. -/
theorem filter_diagnose (capacity : Nat) (document : Text) :
    ((diagnose capacity document).filter fun remark => remark.kind = .warning) =
      (findUnresolved document).map ofUnresolved := by
  have warnings : ∀ usages : List Unresolved,
      (usages.map ofUnresolved).filter (fun remark => remark.kind = .warning) =
        usages.map ofUnresolved := by
    intro usages
    refine List.filter_eq_self.2 fun remark member => ?_
    obtain ⟨usage, -, rfl⟩ := List.mem_map.1 member
    rfl
  rw [diagnose, List.filter_append, warnings]
  split <;> rfl

theorem of_error_mem_diagnose {capacity : Nat} {document : Text} {remark : Diagnostic}
    (member : remark ∈ diagnose capacity document) (grave : remark.kind = .error) :
    ∃ error, (convert ⟨.standard, capacity⟩ document).html = .error error ∧ remark = ofNesting error := by
  rcases List.mem_append.1 member with nesting | usage
  · split at nesting
    · cases nesting
    · next error failed => exact ⟨error, failed, List.mem_singleton.1 nesting⟩
  · obtain ⟨told, -, rfl⟩ := List.mem_map.1 usage
    cases grave

end Diagnostic

namespace Unresolved

/-- What is told of the unresolved usages of a document is exact. Each stands, as a usage of its
label, in the line and at the column that are told; they come in order and do not overlap; and the
warnings of an editor mark just these places, with at most an error about nesting besides. -/
theorem exact_findUnresolved (capacity : Nat) (document : Text) :
    (∀ usage ∈ findUnresolved document, usage.Exact document) ∧
      (findUnresolved document).Pairwise Precedes ∧
      List.Forall₂ Diagnostic.Marks
        ((diagnose capacity document).filter fun remark => remark.kind = .warning)
        (findUnresolved document) ∧
      ∀ remark ∈ diagnose capacity document, remark.kind = .error →
        ∃ error, (convert ⟨.standard, capacity⟩ document).html = .error error ∧
          remark = Diagnostic.ofNesting error := by
  refine ⟨fun usage => exact_of_mem_findUnresolved, pairwise_findUnresolved document, ?_,
    fun remark => Diagnostic.of_error_mem_diagnose⟩
  rw [Diagnostic.filter_diagnose, List.forall₂_map_left_iff, List.forall₂_same]
  exact fun usage member => Diagnostic.marks_ofUnresolved (exact_of_mem_findUnresolved member)

/-- Two usages behind an escaped bracket and a code span. -/
theorem exact_findUnresolved_images :
    let document :=
      "[t][c]\r\n    [x][y]\r\n\\[a][b]\x60[c][d]\x60é![p][] [q] [r]\n\n[c]: u".toList
    let first : Unresolved := ⟨['p'], 3, 17, 6⟩
    let second : Unresolved := ⟨['r'], 3, 24, 7⟩
    findUnresolved document = [first, second] ∧ first.Exact document ∧ first.Precedes second := by
  intro document first second
  have found : findUnresolved document = [first, second] := by decide +kernel
  obtain ⟨exact, apart, -⟩ := exact_findUnresolved Limit.standard.capacity document
  rw [found] at exact apart
  exact ⟨found, exact first List.mem_cons_self,
    List.rel_of_pairwise_cons apart (List.mem_singleton_self second)⟩

end Unresolved

end Markdown
