import Markdown.Proofs.Ending.Inline
import Markdown.Proofs.Literal.Document
import Markdown.Proofs.Reference.Agreement
import Markdown.Proofs.Reference.Entry

set_option autoImplicit false

namespace Markdown

/-- A paragraph is rendered by the inline rules, whatever newlines stand around it. -/
theorem Paragraph.IsParagraph.html_render {text : Text} (paragraph : IsParagraph text)
    {limit : Limit} (room : limit.Holds 1) {table : Sheet.Table} {references : ReferenceTable}
    (tables : Renaming.same.PrintsTable [] table references) (before behind : Nat) :
    ((Block.render ⟨references, limit⟩ false (Codec.standard.encodeEscapes (Codec.standard.normalize
        (amidNewlines before behind text)))).run .start).1.map Codec.standard.decodeMarkers =
      .ok ("<p>".toList ++ Inline.convert references text ++ "</p>".toList) := by
  have filled : (!text.all Unicode.isSpace) = true := by
    obtain ⟨c, rest, rfl, alpha⟩ := paragraph.startsWithLetter
    simp [(plain_of_isAlpha alpha).2.2]
  rw [paragraph.isProse.html_render room tables, paragraph.passages_eq]
  simp only [List.filter_cons, filled, if_true, List.filter_nil, List.map_singleton]
  exact congrArg Except.ok List.intercalate_singleton

namespace Definition

open Paragraph

/-- A text with definitions behind an empty line. -/
def below (text : Text) (entries : List Entry) : Text :=
  text ++ '\n' :: '\n' :: lines entries

theorem not_mem_opening_of_letter {line : Text} (letter : StartsWithLetter line) (more : Text) :
    line ++ more ∉ opening := by
  intro opens
  obtain ⟨c, rest, rfl, alpha⟩ := letter
  obtain ⟨front, labelled, target, -, ending, -, cut⟩ := mem_opening_iff.1 opens
  obtain ⟨blanks, label, rfl, -, inClass, -⟩ := mem_labelFront_iff.1 labelled
  cases blanks with
  | nil =>
    rw [(List.cons.inj cut).1] at alpha
    exact absurd alpha (by decide)
  | cons d blanks =>
    have blank := inClass d List.mem_cons_self
    rw [← (List.cons.inj cut).1, (plain_of_isAlpha alpha).2.1] at blank
    cases blank

/-- Lines with which no definition begins are left. -/
theorem Leaves.above {rest kept : Text} (later : Leaves rest kept) {above : List Text}
    (each : ∀ line ∈ above, '\n' ∉ line ∧ ∀ more, line ++ more ∉ opening) (some : above ≠ []) :
    Leaves (Text.join ['\n'] above ++ '\n' :: rest) (Text.join ['\n'] above ++ '\n' :: kept) := by
  induction above with
  | nil => exact absurd rfl some
  | cons line above ih =>
    obtain ⟨⟨newline, closed⟩, others⟩ := List.forall_mem_cons.1 each
    cases above with
    | nil => simpa [Text.join] using later.line newline (closed _)
    | cons next above =>
      have rest := (ih others (List.cons_ne_nil _ _)).line newline (closed _)
      simpa [Quoting.join_cons_cons] using rest

section

variable {text : Text} (paragraph : IsParagraph text) (entries : List Entry)
include paragraph

/-- All that is left is the paragraph. -/
theorem leaves_below : Leaves (below text entries) (text ++ ['\n', '\n']) := by
  have each : ∀ line ∈ text.lines, '\n' ∉ line ∧ ∀ more, line ++ more ∉ opening :=
    fun line member => ⟨Text.not_newline_of_mem_lines member,
      not_mem_opening_of_letter (paragraph.letters line member)⟩
  have empty : Leaves ([] ++ '\n' :: lines entries) ([] ++ '\n' :: []) :=
    (leaves_lines entries).line List.not_mem_nil (newline_not_mem_opening _)
  have whole := empty.above each (Text.lines_ne_nil text)
  rwa [Quoting.join_lines] at whole

theorem carriage_not_mem_below : '\r' ∉ below text entries := by
  have inLines : '\r' ∉ lines entries := Quoting.not_mem_join (by decide)
    (List.forall_mem_map.2 fun entry _ => entry.carriage_not_mem)
  simp [below, paragraph.carriage, inLines]

/-- Every line of the document is empty or begins with a letter or a bracket. -/
theorem head?_of_mem_lines_below {line : Text} (member : line ∈ (below text entries).lines) :
    ∀ c ∈ line.head?, c.isAlpha = true ∨ c = '[' := by
  have ofLines : ∀ line ∈ (lines entries).lines, ∀ c ∈ line.head?, c = '[' := by
    cases entries with
    | nil => simp [lines, Text.join, Text.lines, Text.splitAt]
    | cons entry entries =>
      rw [lines, Quoting.lines_join (by simp) (List.forall_mem_map.2 fun entry _ =>
        entry.newline_not_mem)]
      refine List.forall_mem_map.2 fun entry _ c first => ?_
      exact (Option.some.inj first).symm
  rw [below, Quoting.lines_append, ← List.nil_append ('\n' :: _), Quoting.lines_append] at member
  intro c first
  rcases List.mem_append.1 member with inText | inLines
  · obtain ⟨d, rest, rfl, alpha⟩ := paragraph.letters line inText
    exact .inl (Option.some.inj first ▸ alpha)
  · rcases List.mem_append.1 inLines with empty | definition
    · obtain rfl := List.mem_singleton.1 empty
      cases first
    · exact .inr (ofLines line definition c first)

/-- There is no literal HTML in the document. -/
theorem literalless_below (unmarked : ∀ c ∈ below text entries, Escape.isMarker c = false) :
    Literalless (below text entries) where
  unmarked := unmarked
  unmatched := by
    have each : ∀ line ∈ (below text entries).lines, '\n' ∉ line ∧
        ∀ c ∈ line.head?, (Text.isBlank c || isBlockMark c || c == '>') = false := by
      refine fun line member => ⟨Text.not_newline_of_mem_lines member, fun c first => ?_⟩
      rcases head?_of_mem_lines_below paragraph entries member c first with alpha | rfl
      · obtain ⟨mark, blank, -⟩ := plain_of_isAlpha alpha
        obtain ⟨unmarked, unquoted⟩ := Bool.or_eq_false_iff.1 mark
        rw [blank, unquoted, Bool.eq_false_iff.2 (mt isMark_of_isBlockMark (by simp [unmarked]))]
        rfl
      · decide
    have blockless := Sheet.blockless_ofLines each
    rw [← Quoting.map_join, Quoting.join_lines,
      ← Sheet.ofDocument_eq_map (carriage_not_mem_below paragraph entries)] at blockless
    rw [← Codec.normalize_of_unmarked unmarked]
    exact (Renaming.prints_normalize _).matches?_of_absent
      (Html.regular_htmlBlock Renaming.same.quiet) rfl blockless.htmlBlock

end

/-- In inline mode what is left behind the extraction is converted with the definitions extracted. -/
theorem result_compile_inline {limit : Limit} (room : 1 ≤ limit.value) (head : PageHead Char)
    (source file : Text) :
    (compile ⟨limit, true, false, head⟩ source file).result =
      .ok (Inline.convert (ReferenceTable.empty.extract source.unifyNewlines).table
        (ReferenceTable.empty.extract source.unifyNewlines).text) := by
  have created : Converter.create limit = .ok ⟨limit, .empty⟩ := if_neg (Int.not_lt.2 room)
  simp only [compile, Compilation.convert, created, if_true, Compilation.convertInline,
    Converter.convertInline, Except.map, Bool.false_eq_true, if_false, Script.ofText_chars]

section

variable {text : Text} (paragraph : IsParagraph text) (entries : List Entry)
  (unmarked : ∀ c ∈ below text entries, Escape.isMarker c = false)
include paragraph unmarked

theorem normalize_left : Codec.standard.normalize (amidNewlines 0 2 text) = amidNewlines 0 2 text := by
  have within : ∀ c ∈ amidNewlines 0 2 text, Escape.isMarker c = false := by
    intro c member
    apply unmarked
    simp only [amidNewlines, List.mem_append, List.mem_replicate, below, List.mem_cons] at member ⊢
    tauto
  rw [Codec.normalize_of_unmarked within, Sheet.unifyNewlines_eq_self]
  exact paragraph.isProse.carriage_amidNewlines 0 2

/-- As a document it is the paragraph with the definitions at hand. -/
theorem html_convert_below {limit : Limit} (room : limit.Holds 1) :
    (convert limit (below text entries)).html =
      .ok ("<p>".toList ++
        Inline.convert (ReferenceTable.empty.extract (below text entries)).table text ++
          "</p>".toList) := by
  have whole := Sheet.unifyNewlines_eq_self (carriage_not_mem_below paragraph entries)
  have left : (ReferenceTable.empty.extract (below text entries)).text = amidNewlines 0 2 text :=
    (leaves_below paragraph entries).extract_text _
  have tables := (Renaming.prints_normalize (below text entries)).extractTable
    (show Fragments.Collisionless [] by simp [Fragments.Collisionless])
  rw [Codec.normalize_of_unmarked unmarked, whole] at tables
  have rendered := paragraph.html_render room tables 0 2
  rw [normalize_left paragraph entries unmarked, ← left] at rendered
  change ((prepare _).render limit).1.map _ = _
  rw [(literalless_below paragraph entries unmarked).prepare_eq, whole]
  exact rendered

/-- Inline mode and the conversion of the whole document make the same of the paragraph. -/
theorem compile_below {limit : Limit} (room : limit.Holds 1) (inked : text.Inked)
    (head : PageHead Char) (file : Text) :
    ∃ inline : Text,
      (compile ⟨limit, true, false, head⟩ (below text entries) file).result = .ok inline ∧
        (convert limit (below text entries)).html =
          .ok ("<p>".toList ++ inline.trimEnd Text.isNewline ++ "</p>".toList) := by
  have whole := Sheet.unifyNewlines_eq_self (carriage_not_mem_below paragraph entries)
  have left : (ReferenceTable.empty.extract (below text entries)).text =
      text ++ List.replicate 2 '\n' := (leaves_below paragraph entries).extract_text _
  refine ⟨_, result_compile_inline room.1 head _ file, ?_⟩
  rw [html_convert_below paragraph entries unmarked room, whole, left,
    Inline.convert_append_newlines inked paragraph.carriage,
    (Inline.inked_convert inked paragraph.carriage _).trimEnd_append_newlines]

end

/-- A paragraph of one line above one definition. -/
theorem compile_below_usage :
    IsParagraph "See [t][k].".toList ∧ Limit.standard.Holds 1 ∧ Text.Inked "See [t][k].".toList ∧
      ∃ inline : Text,
        (compile ⟨.standard, true, false, .empty⟩ "See [t][k].\n\n[k]: /u".toList []).result =
            .ok inline ∧
          (convert .standard "See [t][k].\n\n[k]: /u".toList).html =
            .ok ("<p>".toList ++ inline.trimEnd Text.isNewline ++ "</p>".toList) := by
  have paragraph : IsParagraph "See [t][k].".toList := by decide
  have room : Limit.standard.Holds 1 := by decide
  have inked : Text.Inked "See [t][k].".toList := ⟨'.', by decide, by decide⟩
  exact ⟨paragraph, room, inked, compile_below paragraph
    [⟨['k'], "/u".toList, none, by decide, by decide, by simp⟩] (by decide) room inked .empty []⟩

/-- A label with a marker is read before the marker is hidden and looked up after. -/
example : (convert .standard "a[t][\uf8ff]\n\n[\uf8ff]: u".toList).html =
      .ok "<p>a<a href=\"u\">t</a></p>".toList ∧
    (Compilation.convertInline ⟨.standard, .empty⟩ "a[t][\uf8ff]\n\n[\uf8ff]: u".toList).2 =
      "a[t][\uf8ff]\n\n".toList := by
  decide +kernel

end Definition

end Markdown
