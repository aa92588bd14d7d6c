import Markdown.Proofs.Paragraph.Prose

set_option autoImplicit false

namespace Markdown.Paragraph

def StartsWithLetter (line : Text) : Prop :=
  ∃ c rest, line = c :: rest ∧ c.isAlpha = true

/-- The text is a paragraph: each of its lines begins with a letter. -/
structure IsParagraph (text : Text) : Prop where
  carriage : '\r' ∉ text
  letters : ∀ line ∈ text.lines, StartsWithLetter line

/-- Parts with empty lines between them; each later part comes with the number of empty lines
before it. -/
def spaced {α : Type} (newline : α) (first : List α) (later : List (Nat × List α)) : List α :=
  first ++ later.flatMap fun (count, part) => List.replicate (count + 1) newline ++ part

theorem toNat_lt_of_isAlpha {c : Char} (letter : c.isAlpha = true) : c.toNat < 128 :=
  Unicode.toNat_lt_of_isAlphanum (Bool.or_eq_true_iff.2 (.inl letter))

/-- A letter of ASCII opens no block and is no white space. -/
theorem plain_of_isAlpha {c : Char} (letter : c.isAlpha = true) :
    (isMark c || c == '>') = false ∧ Text.isBlank c = false ∧ Unicode.isSpace c = false := by
  have all : ∀ code < 128, (Char.ofNat code).isAlpha = true →
      (isMark (Char.ofNat code) || Char.ofNat code == '>') = false ∧
        Text.isBlank (Char.ofNat code) = false ∧ Unicode.isSpace (Char.ofNat code) = false := by
    decide
  have here := all c.toNat (toNat_lt_of_isAlpha letter)
  rw [Char.ofNat_toNat] at here
  exact here letter

/-- The line begins with the letter as a sheet, too. -/
theorem StartsWithLetter.begins {line : Text} (letter : StartsWithLetter line) :
    Sheet.Begins Char.isAlpha (line.map Sheet.glyphOf) := by
  obtain ⟨c, rest, rfl, alpha⟩ := letter
  have plain : Unicode.isPrivate c = false := by
    refine Bool.eq_false_iff.2 fun here => ?_
    have low := (Unicode.isPrivate_bounds here).1
    have high := toNat_lt_of_isAlpha alpha
    omega
  exact ⟨c, rest.map Sheet.glyphOf, by rw [List.map_cons, Sheet.glyphOf_of_not_isPrivate plain], alpha⟩

theorem StartsWithLetter.isBlankLine_eq {line : Text} (letter : StartsWithLetter line) :
    isBlankLine line = false := by
  obtain ⟨c, rest, rfl, alpha⟩ := letter
  simp [isBlankLine, (plain_of_isAlpha alpha).2.1]

theorem StartsWithLetter.opensBlock_eq {line : Text} (letter : StartsWithLetter line) :
    opensBlock line = false := by
  obtain ⟨c, rest, rfl, alpha⟩ := letter
  obtain ⟨mark, blank, -⟩ := plain_of_isAlpha alpha
  obtain ⟨space, tab⟩ : c ≠ ' ' ∧ c ≠ '\t' := by simpa [Text.isBlank] using blank
  simp [opensBlock, blank, mark, List.isPrefixOf, space.symm, tab.symm]

theorem IsParagraph.startsWithLetter {text : Text} (paragraph : IsParagraph text) :
    StartsWithLetter text := by
  cases text with
  | nil =>
    obtain ⟨c, rest, impossible, _⟩ := paragraph.letters [] List.mem_cons_self
    cases impossible
  | cons c text =>
    obtain ⟨piece, more, pieces⟩ := List.exists_cons_of_ne_nil
      (Text.splitAt_ne_nil Text.isNewline text)
    have letters := paragraph.letters
    rw [Text.lines, Text.splitAt, pieces] at letters
    split at letters
    · obtain ⟨c, rest, impossible, _⟩ := letters [] List.mem_cons_self
      cases impossible
    · obtain ⟨d, rest, same, alpha⟩ := letters (c :: piece) List.mem_cons_self
      exact ⟨c, text, rfl, (List.cons.inj same).1 ▸ alpha⟩

theorem spaced_cons {α : Type} (newline : α) (first next : List α) (count : Nat)
    (more : List (Nat × List α)) :
    spaced newline first ((count, next) :: more) =
      first ++ (List.replicate (count + 1) newline ++ spaced newline next more) := by
  simp [spaced]

section

variable {first : Text} {later : List (Nat × Text)}

theorem lines_spaced (first next : Text) (count : Nat) (more : List (Nat × Text)) :
    Text.lines (spaced '\n' first ((count, next) :: more)) =
      first.lines ++ (List.replicate count [] ++ Text.lines (spaced '\n' next more)) := by
  have whole : spaced '\n' first ((count, next) :: more) =
      first ++ '\n' :: (List.replicate count '\n' ++ (spaced '\n' next more ++ [])) := by
    simp [spaced_cons, List.replicate_succ]
  have newlines := lines_newlines (spaced '\n' next more) count 0
  simp only [amidNewlines, List.replicate_zero, List.append_nil] at newlines
  rw [whole, Quoting.lines_append, List.append_nil, newlines]

variable (begins : IsParagraph first) (others : ∀ entry ∈ later, 1 ≤ entry.1 ∧ IsParagraph entry.2)
include begins others

theorem isProse_spaced : IsProse (spaced '\n' first later) := by
  have inked := fun line member => (begins.letters line member).isBlankLine_eq
  induction later generalizing first with
  | nil =>
    rw [spaced, List.flatMap_nil, List.append_nil]
    exact ⟨begins.carriage, fun line member => (begins.letters line member).opensBlock_eq,
      fun line here => inked line (List.mem_of_mem_head? here),
      fun line here => inked line (List.mem_of_mem_getLast? here)⟩
  | cons entry more ih =>
    obtain ⟨count, next⟩ := entry
    obtain ⟨⟨_, here⟩, rest⟩ := List.forall_mem_cons.1 others
    have later := ih here rest fun line member => (here.letters line member).isBlankLine_eq
    have some := Text.lines_ne_nil (spaced '\n' next more)
    constructor
    · have newlines : '\r' ∉ List.replicate (count + 1) '\n' :=
        fun member => absurd (List.eq_of_mem_replicate member) (by decide)
      rw [spaced_cons]
      simp [newlines, begins.carriage, later.carriage]
    · intro line member
      rw [lines_spaced, List.mem_append, List.mem_append, List.mem_replicate] at member
      rcases member with inFirst | ⟨_, rfl⟩ | inLater
      · exact (begins.letters line inFirst).opensBlock_eq
      · rfl
      · exact later.plain line inLater
    · rw [lines_spaced, List.head?_append_of_ne_nil _ (Text.lines_ne_nil first)]
      exact fun line here => inked line (List.mem_of_mem_head? here)
    · have filled := List.append_ne_nil_of_right_ne_nil (List.replicate count []) some
      rw [lines_spaced, List.getLast?_append_of_ne_nil _ filled,
        List.getLast?_append_of_ne_nil _ some]
      exact later.last

theorem passages_spaced : passages (spaced '\n' first later) = first :: later.map (·.2) := by
  have inked := fun line member => (begins.letters line member).isBlankLine_eq
  rw [passages]
  induction later generalizing first with
  | nil =>
    rw [spaced, List.flatMap_nil, List.append_nil,
      runs_eq_singleton (Text.lines_ne_nil first) inked, List.map_singleton, Quoting.join_lines]
    rfl
  | cons entry more ih =>
    obtain ⟨count, next⟩ := entry
    obtain ⟨⟨gap, here⟩, rest⟩ := List.forall_mem_cons.1 others
    obtain ⟨missing, rfl⟩ := Nat.exists_eq_add_of_le' gap
    have empty : ∀ line ∈ List.replicate missing ([] : Text), isBlankLine line = true := by
      intro line member
      rw [List.eq_of_mem_replicate member]
      rfl
    have later := ih here rest fun line member => (here.letters line member).isBlankLine_eq
    rw [lines_spaced, List.replicate_succ, List.cons_append,
      runs_append_cons (Text.lines_ne_nil first) inked rfl, runs_append_of_separates empty,
      List.map_cons, later, Quoting.join_lines]
    rfl

end

/-- A document of paragraphs with empty lines between them converts to the paragraphs that the
inline rules give one by one. -/
theorem convert_spaced {limit : Limit} (room : limit.Holds 1) {first : Text}
    {later : List (Nat × Text)} (begins : IsParagraph first)
    (others : ∀ entry ∈ later, 1 ≤ entry.1 ∧ IsParagraph entry.2) :
    (convert limit (spaced '\n' first later)).html =
      .ok (Text.join "\n\n".toList ((first :: later.map (·.2)).map fun part =>
        "<p>".toList ++ Inline.convert .empty part ++ "</p>".toList)) := by
  have prose := isProse_spaced begins others
  have filled : ∀ part ∈ first :: later.map (·.2), (!part.all Unicode.isSpace) = true := by
    have letter : ∀ {part : Text}, IsParagraph part → (!part.all Unicode.isSpace) = true := by
      intro part paragraph
      obtain ⟨c, rest, rfl, alpha⟩ := paragraph.startsWithLetter
      simp [(plain_of_isAlpha alpha).2.2]
    refine List.forall_mem_cons.2 ⟨letter begins, List.forall_mem_map.2 fun entry member => ?_⟩
    exact letter (others entry member).2
  have whole := prose.html_convert room 0 0
  rw [amidNewlines, List.replicate_zero, List.nil_append, List.append_nil] at whole
  rw [whole, passages_spaced begins others, List.filter_eq_self.2 filled]

instance (line : Text) : Decidable (StartsWithLetter line) :=
  match line with
  | [] => .isFalse nofun
  | c :: rest => decidable_of_iff (c.isAlpha = true)
      ⟨fun letter => ⟨c, rest, rfl, letter⟩, fun ⟨_, _, same, letter⟩ => (List.cons.inj same).1 ▸ letter⟩

instance (text : Text) : Decidable (IsParagraph text) :=
  decidable_of_iff ('\r' ∉ text ∧ ∀ line ∈ text.lines, StartsWithLetter line)
    ⟨fun both => ⟨both.1, both.2⟩, fun paragraph => ⟨paragraph.1, paragraph.2⟩⟩

/-- Emphasis goes over the end of a line, and hyphens behind a letter are no underline. -/
theorem convert_spaced_emphasis :
    IsParagraph "a *b\nc* d".toList ∧ IsParagraph "e\nf---".toList ∧
      (convert .standard "a *b\nc* d\n\n\ne\nf---".toList).html =
        .ok (Text.join "\n\n".toList
          ["<p>".toList ++ Inline.convert .empty "a *b\nc* d".toList ++ "</p>".toList,
            "<p>".toList ++ Inline.convert .empty "e\nf---".toList ++ "</p>".toList]) := by
  have first : IsParagraph "a *b\nc* d".toList := by decide
  have second : IsParagraph "e\nf---".toList := by decide
  have document : "a *b\nc* d\n\n\ne\nf---".toList =
      spaced '\n' "a *b\nc* d".toList [(2, "e\nf---".toList)] := by decide
  refine ⟨first, second, ?_⟩
  rw [document]
  exact convert_spaced (by decide) first (List.forall_mem_singleton.2 ⟨by decide, second⟩)

end Markdown.Paragraph
