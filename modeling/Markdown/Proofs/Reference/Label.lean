import Mathlib.Data.List.TakeWhile
import Markdown.Proofs.Reference.Small
import Markdown.Reference.Table

set_option autoImplicit false

namespace Markdown

namespace Unicode

/-- The characters of white space one by one. -/
def spaces : List Char :=
  spaceRanges.flatMap fun range =>
    (List.range' range.1 (range.2 + 1 - range.1)).map Char.ofNat

theorem mem_spaces {c : Char} (space : isSpace c = true) : c ∈ spaces := by
  obtain ⟨range, member, low, high⟩ := (inRanges_iff _ _).1 space
  refine List.mem_flatMap.2 ⟨range, member, List.mem_map.2 ⟨c.toNat, ?_, Char.ofNat_toNat c⟩⟩
  rw [List.mem_range'_1]
  omega

/-- White space ends the case context of a letter, and is its own small form. -/
theorem caseless_of_isSpace {c : Char} (space : isSpace c = true) :
    inRanges caseIgnorableRanges c = false ∧ inRanges casedRanges c = false ∧
      lowerChar c = c ∧ c ≠ '\u03a3' ∧ c ≠ '\u0130' := by
  have all : ∀ d ∈ spaces, inRanges caseIgnorableRanges d = false ∧
      inRanges casedRanges d = false ∧ lowerChar d = d ∧ d ≠ '\u03a3' ∧ d ≠ '\u0130' := by
    decide +kernel
  exact all c (mem_spaces space)

theorem meetsCased_append {s : Char} (space : isSpace s = true) (near far : List Char) :
    meetsCased (near ++ s :: far) = meetsCased near := by
  obtain ⟨seen, uncased, _⟩ := caseless_of_isSpace space
  induction near with
  | nil => simp [meetsCased, seen, uncased]
  | cons c near ih =>
    by_cases ignorable : inRanges caseIgnorableRanges c = true
    · simpa [meetsCased, ignorable] using ih
    · simp [meetsCased, ignorable]

theorem lowerBetween_of_isSpace {s : Char} (space : isSpace s = true) (before after : List Char) :
    lowerBetween before s after = [s] := by
  obtain ⟨_, _, small, sigma, dotted⟩ := caseless_of_isSpace space
  simp [lowerBetween, small, sigma, dotted]

/-- White space does not change what comes behind it. -/
theorem lowerBehind_of_isSpace {s : Char} (space : isSpace s = true) (near far text : List Char) :
    lowerBehind (near ++ s :: far) text = lowerBehind near text := by
  induction text generalizing near with
  | nil => rfl
  | cons c rest ih =>
    have here : lowerBetween (near ++ s :: far) c rest = lowerBetween near c rest := by
      rw [lowerBetween, lowerBetween, meetsCased_append space]
    rw [lowerBehind, lowerBehind, here, ← List.cons_append, ih]

/-- What stands behind white space has its small form as if nothing stood before it. -/
theorem lowerBehind_append_cons {s : Char} (space : isSpace s = true)
    (before text rest : List Char) :
    lowerBehind before (text ++ s :: rest) = lowerBehind before text ++ s :: lower rest := by
  induction text generalizing before with
  | nil =>
    have apart : lowerBehind (s :: before) rest = lower rest := lowerBehind_of_isSpace space [] _ _
    change lowerBetween before s rest ++ lowerBehind (s :: before) rest = s :: lower rest
    rw [lowerBetween_of_isSpace space, apart]
    rfl
  | cons c text ih =>
    have here : lowerBetween before c (text ++ s :: rest) = lowerBetween before c text := by
      rw [lowerBetween, lowerBetween, meetsCased_append space]
    rw [List.cons_append, lowerBehind, lowerBehind, here, ih, List.append_assoc]

theorem lower_append_cons {s : Char} (space : isSpace s = true) (text rest : List Char) :
    lower (text ++ s :: rest) = lower text ++ s :: lower rest :=
  lowerBehind_append_cons space [] text rest

theorem lower_ne_nil {text : List Char} (filled : text ≠ []) : lower text ≠ [] := by
  obtain ⟨c, rest, rfl⟩ := List.exists_cons_of_ne_nil filled
  rw [lower, lowerBehind, lowerBetween]
  split
  · split <;> simp
  · split <;> simp

end Unicode

namespace Text

/-- What trimming takes away is white space. -/
theorem exists_eq_trimSpace (text : Text) : ∃ front back,
    text = front ++ trimSpace text ++ back ∧ (∀ c ∈ front, Unicode.isSpace c = true) ∧
      ∀ c ∈ back, Unicode.isSpace c = true := by
  obtain ⟨front, _, back, whole, rfl, before, behind, _⟩ := exists_eq_trimmed Unicode.isSpace text
  exact ⟨front, back, whole.trans (List.append_assoc ..).symm, before, behind⟩

theorem splitAt_append_cons {separates : Char → Bool} {s : Char} (here : separates s = true)
    (text rest : Text) :
    splitAt separates (text ++ s :: rest) = splitAt separates text ++ splitAt separates rest := by
  induction text with
  | nil => simp [splitAt, here]
  | cons c text ih =>
    obtain ⟨first, more, pieces⟩ := List.exists_cons_of_ne_nil (splitAt_ne_nil separates text)
    rw [List.cons_append, splitAt, ih, splitAt, pieces]
    split <;> rfl

/-- Words end at white space. -/
theorem words_append_cons {s : Char} (space : Unicode.isSpace s = true) (text rest : Text) :
    words (text ++ s :: rest) = words text ++ words rest := by
  rw [words, splitAt_append_cons space, List.filter_append, words, words]

@[simp] theorem words_nil : words [] = [] := rfl

theorem splitAt_of_within {separates : Char → Bool} {piece : Text}
    (within : ∀ c ∈ piece, separates c = false) : splitAt separates piece = [piece] := by
  induction piece with
  | nil => rfl
  | cons c rest ih =>
    obtain ⟨here, later⟩ := List.forall_mem_cons.1 within
    simp [splitAt, here, ih later]

/-- What has no white space in it is one word. -/
theorem words_of_filled {word : Text} (some : word ≠ [])
    (filled : ∀ c ∈ word, Unicode.isSpace c = false) : words word = [word] := by
  rw [words, splitAt_of_within filled]
  simp [some]

theorem words_spaces_append {front : Text} (blank : ∀ c ∈ front, Unicode.isSpace c = true)
    (text : Text) : words (front ++ text) = words text := by
  induction front with
  | nil => rfl
  | cons s front ih =>
    obtain ⟨space, rest⟩ := List.forall_mem_cons.1 blank
    exact (words_append_cons space [] (front ++ text)).trans (ih rest)

/-- White space between two texts keeps their words apart, however much there is of it. -/
theorem words_gap {gap : Text} (some : gap ≠ []) (blank : ∀ c ∈ gap, Unicode.isSpace c = true)
    (text rest : Text) : words (text ++ gap ++ rest) = words text ++ words rest := by
  obtain ⟨s, gap, rfl⟩ := List.exists_cons_of_ne_nil some
  obtain ⟨space, others⟩ := List.forall_mem_cons.1 blank
  rw [List.append_assoc, List.cons_append, words_append_cons space, words_spaces_append others]

theorem words_append_spaces {back : Text} (blank : ∀ c ∈ back, Unicode.isSpace c = true)
    (text : Text) : words (text ++ back) = words text := by
  by_cases none : back = []
  · rw [none, List.append_nil]
  · simpa using words_gap none blank text []

theorem words_trimSpace (text : Text) : words text.trimSpace = words text := by
  obtain ⟨front, back, whole, before, behind⟩ := exists_eq_trimSpace text
  calc words text.trimSpace
      = words (front ++ text.trimSpace ++ back) := by
        rw [words_append_spaces behind, words_spaces_append before]
    _ = words text := by rw [← whole]

theorem words_join {parts : List Text}
    (filled : ∀ word ∈ parts, word ≠ [] ∧ ∀ c ∈ word, Unicode.isSpace c = false) :
    words (join [' '] parts) = parts := by
  induction parts with
  | nil => rfl
  | cons word rest ih =>
    obtain ⟨⟨some, within⟩, later⟩ := List.forall_mem_cons.1 filled
    cases rest with
    | nil => simpa [join] using words_of_filled some within
    | cons next rest =>
      have whole : join [' '] (word :: next :: rest) =
          word ++ ' ' :: join [' '] (next :: rest) := by
        simp [join, List.intercalate]
      rw [whole, words_append_cons (by decide), words_of_filled some within, ih later]
      rfl

/-- Each word has its own small form. By induction on what follows a text without white space. -/
theorem words_lower_append (front : Text) (filled : ∀ c ∈ front, Unicode.isSpace c = false)
    (text : Text) :
    words (Unicode.lower (front ++ text)) = (words (front ++ text)).map Unicode.lower := by
  have alone : ∀ {front : Text}, (∀ c ∈ front, Unicode.isSpace c = false) →
      words (Unicode.lower front) = (words front).map Unicode.lower := by
    intro front filled
    by_cases none : front = []
    · subst none
      rfl
    · rw [words_of_filled none filled, words_of_filled (Unicode.lower_ne_nil none) fun c member =>
        (Unicode.of_mem_lowerBehind member).2 filled]
      rfl
  induction text generalizing front with
  | nil =>
    rw [List.append_nil]
    exact alone filled
  | cons c rest ih =>
    by_cases space : Unicode.isSpace c = true
    · have later : words (Unicode.lower rest) = (words rest).map Unicode.lower :=
        ih [] (by simp)
      rw [Unicode.lower_append_cons space, words_append_cons space, words_append_cons space,
        List.map_append, alone filled, later]
    · have longer : ∀ d ∈ front ++ [c], Unicode.isSpace d = false := by
        simpa [or_imp, forall_and] using And.intro filled (by simpa using space)
      simpa using ih _ longer

theorem words_lower (text : Text) : words (Unicode.lower text) = (words text).map Unicode.lower :=
  words_lower_append [] (by simp) text

end Text

theorem normalizeLabel_eq (label : Text) :
    normalizeLabel label = Text.join [' '] ((Text.words label).map Unicode.lower) := by
  rw [normalizeLabel, Text.words_lower]

/-- Labels with the same words are the same. -/
theorem normalizeLabel_of_words {label other : Text} (same : Text.words label = Text.words other) :
    normalizeLabel label = normalizeLabel other := by
  rw [normalizeLabel_eq, normalizeLabel_eq, same]

theorem words_normalizeLabel (label : Text) :
    Text.words (normalizeLabel label) = (Text.words label).map Unicode.lower := by
  rw [normalizeLabel, Text.words_join fun word member => Text.of_mem_words member, Text.words_lower]

/-- A normalized label is normalized. -/
@[simp] theorem normalizeLabel_normalizeLabel (label : Text) :
    normalizeLabel (normalizeLabel label) = normalizeLabel label := by
  rw [normalizeLabel_eq, words_normalizeLabel, List.map_map, normalizeLabel_eq]
  exact congrArg _ (List.map_congr_left fun word _ => Unicode.lower_lower word)

/-- White space around a label does not matter. -/
theorem normalizeLabel_trimSpace (label : Text) :
    normalizeLabel label.trimSpace = normalizeLabel label :=
  normalizeLabel_of_words (Text.words_trimSpace label)

theorem ReferenceTable.lookup_trimSpace (references : ReferenceTable) (label : Text) :
    references.lookup label.trimSpace = references.lookup label := by
  rw [lookup, lookup, normalizeLabel_trimSpace]

end Markdown
