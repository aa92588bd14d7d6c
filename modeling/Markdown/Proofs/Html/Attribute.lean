import Markdown.Html.Escape
import Markdown.Proofs.Pattern.Reads

set_option autoImplicit false

namespace Markdown.Html

open Pattern

/-- The text starts with what stands behind the ampersand of a character reference: a number sign and
an x, each if it is there, hexadecimal digits or word characters, and a semicolon. -/
def Refers (text : Text) : Prop :=
  ∃ sign letter name rest, sign ∈ [[], ['#']] ∧ letter ∈ [[], ['x'], ['X']] ∧ name ≠ [] ∧
    ((∀ c ∈ name, isHexDigit c = true) ∨ ∀ c ∈ name, Unicode.isWord c = true) ∧
    text = sign ++ (letter ++ (name ++ ';' :: rest))

/-- The characters that would end a value, or open or end a tag, with the names of their references. -/
def marks : List (Char × Text) :=
  [('<', "lt".toList), ('>', "gt".toList), ('"', "quot".toList)]

/-- The value is undone to the text: the reference that stands for a mark of the text gives way to the
mark, the `amp;` behind an ampersand that is bare in the text is taken out, and every other character
stays, those of the references that the text has itself among them. -/
inductive Undoes : Text → Text → Prop where
  | nil : Undoes [] []
  | mark {c : Char} {name value text : Text} (mark : (c, name) ∈ marks)
      (later : Undoes value text) : Undoes ('&' :: (name ++ ';' :: value)) (c :: text)
  | bare {value text : Text} (bare : ¬ Refers text) (later : Undoes value text) :
    Undoes ('&' :: ("amp".toList ++ ';' :: value)) ('&' :: text)
  | kept {c : Char} {value text : Text} (plain : c ∉ marks.map Prod.fst)
      (refers : c = '&' → Refers text) (later : Undoes value text) :
    Undoes (c :: value) (c :: text)

/-- What stands behind the ampersand of a character reference, and any text. -/
def referenceRests : Language Char :=
  (1 + {['#']}) * ((1 + single fun c => c == 'x' || c == 'X') *
    ((someOver isHexDigit + someOver Unicode.isWord) * ({[';']} * ⊤)))

theorem mem_referenceRests_iff {text : Text} : text ∈ referenceRests ↔ Refers text := by
  have signs : ∀ sign : Text, sign ∈ (1 + {['#']} : Language Char) ↔ sign ∈ [[], ['#']] := by
    intro sign
    rw [List.mem_cons, List.mem_singleton]
    rfl
  have letters : ∀ letter : Text, letter ∈ (1 + single fun c => c == 'x' || c == 'X') ↔
      letter ∈ [[], ['x'], ['X']] := by
    intro letter
    rw [List.mem_cons, List.mem_cons, List.mem_singleton]
    refine or_congr Iff.rfl ⟨?_, ?_⟩
    · rintro ⟨c, rfl, x⟩
      simpa using x
    · rintro (rfl | rfl)
      · exact ⟨'x', rfl, rfl⟩
      · exact ⟨'X', rfl, rfl⟩
  constructor
  · rintro ⟨sign, signed, _, ⟨letter, lettered, _, ⟨name, inClass, _, ⟨_, rfl, rest, -, rfl⟩, rfl⟩,
      rfl⟩, rfl⟩
    refine ⟨sign, letter, name, rest, (signs sign).1 signed, (letters letter).1 lettered, ?_⟩
    rcases inClass with ⟨some, hex⟩ | ⟨some, word⟩
    · exact ⟨some, .inl hex, rfl⟩
    · exact ⟨some, .inr word, rfl⟩
  · rintro ⟨sign, letter, name, rest, signed, lettered, some, inClass, rfl⟩
    have named : name ∈ someOver isHexDigit + someOver Unicode.isWord :=
      inClass.imp (fun hex => ⟨some, hex⟩) fun word => ⟨some, word⟩
    exact ⟨sign, (signs sign).2 signed, _, ⟨letter, (letters letter).2 lettered, _,
      ⟨name, named, _, ⟨_, rfl, rest, trivial, rfl⟩, rfl⟩, rfl⟩, rfl⟩

theorem reads_entityRest : entityRest.Reads ⊤ referenceRests := by
  have shape : entityRest.Reads ⊤ _ :=
    (reads_char '#').optional.seq (reads_one.optional.seq
      ((reads_many1.either reads_many1).seq (reads_char ';')))
  simpa only [referenceRests, add_mul, one_mul, add_comm] using shape

section

variable {offset : Nat} {before rest : Text}

theorem outcomes_bareAmpersand (bare : ¬ Refers rest) :
    bareAmpersand.outcomes ⟨⟨offset, before, '&' :: rest⟩, []⟩ =
      [⟨⟨offset + 1, '&' :: before, rest⟩, []⟩] := by
  have none : entityRest.outcomes ⟨⟨offset + 1, '&' :: before, rest⟩, []⟩ = [] := by
    refine by_contra fun some => bare ?_
    exact mem_referenceRests_iff.1 ((reads_entityRest.outcomes_ne_nil_iff _).1 some)
  simp [bareAmpersand, char, outcomes, Cursor.past, none]

theorem outcomes_bareAmpersand_eq_nil {c : Char} (kept : c = '&' → Refers rest) :
    bareAmpersand.outcomes ⟨⟨offset, before, c :: rest⟩, []⟩ = [] := by
  by_cases ampersand : c = '&'
  · subst ampersand
    have some : entityRest.outcomes ⟨⟨offset + 1, '&' :: before, rest⟩, []⟩ ≠ [] :=
      (reads_entityRest.outcomes_ne_nil_iff _).2 (mem_referenceRests_iff.2 (kept rfl))
    simp [bareAmpersand, char, outcomes, Cursor.past, some]
  · simp [bareAmpersand, char, outcomes, ampersand]

end

theorem escapeAttributeChar_eq_self {c : Char} (plain : c ∉ marks.map Prod.fst) :
    escapeAttributeChar c = [c] := by
  unfold escapeAttributeChar
  split
  · exact absurd (by decide) plain
  · exact absurd (by decide) plain
  · exact absurd (by decide) plain
  · rfl

theorem escapeAttributeChar_of_mem_marks :
    ∀ entry ∈ marks, escapeAttributeChar entry.1 = '&' :: (entry.2 ++ [';']) := by
  decide

/-- A character that is not a bare ampersand, as it stands in a value. -/
theorem Undoes.char {c : Char} {value text : Text} (kept : c = '&' → Refers text)
    (later : Undoes value text) : Undoes (escapeAttributeChar c ++ value) (c :: text) := by
  by_cases plain : c ∈ marks.map Prod.fst
  · obtain ⟨⟨_, name⟩, member, rfl⟩ := List.mem_map.1 plain
    rw [escapeAttributeChar_of_mem_marks _ member]
    simpa using Undoes.mark member later
  · rw [escapeAttributeChar_eq_self plain]
    exact .kept plain kept later

/-- The search goes along the text; each of its pieces is undone by itself. -/
theorem undoes_segmentsFrom (budget : Nat) {cursor : Cursor}
    (enough : cursor.after.length ≤ budget) :
    Undoes ((bareAmpersand.segmentsFrom budget cursor).flatMap fun piece =>
      (piece.replaced fun _ => "&amp;".toList).flatMap escapeAttributeChar) cursor.after := by
  induction budget generalizing cursor with
  | zero =>
    rw [List.length_eq_zero_iff.1 (Nat.le_zero.1 enough), segmentsFrom,
      List.length_eq_zero_iff.1 (Nat.le_zero.1 enough)]
    exact .nil
  | succ budget ih =>
    obtain ⟨offset, before, after⟩ := cursor
    cases after with
    | nil => exact .nil
    | cons c rest =>
      have later : Undoes _ rest := @ih ⟨offset + 1, c :: before, rest⟩ (Nat.le_of_succ_le_succ enough)
      rw [segmentsFrom]
      dsimp only
      rw [run_eq_findSome?]
      by_cases bare : c = '&' ∧ ¬ Refers rest
      · obtain ⟨rfl, bare⟩ := bare
        rw [outcomes_bareAmpersand bare]
        exact .bare bare later
      · have kept : c = '&' → Refers rest := fun same => not_not.1 fun not => bare ⟨same, not⟩
        rw [outcomes_bareAmpersand_eq_nil kept]
        simpa [Segment.replaced, Cursor.past] using later.char kept

theorem undoes_escapeAttribute (text : Text) : Undoes (escapeAttribute text) text := by
  have enough : (Cursor.first text).after.length ≤ text.length := Nat.le_refl _
  rw [escapeAttribute, replace, List.flatMap_assoc]
  exact undoes_segmentsFrom text.length enough

theorem ampersand_not_mem_marks : '&' ∉ marks.map Prod.fst := by
  decide

theorem eq_of_mem_marks : ∀ entry ∈ marks, ∀ other ∈ marks, entry.1 = other.1 → entry = other := by
  decide

theorem isWord_of_mem_marks :
    ∀ entry ∈ marks, entry.2 ≠ [] ∧ ∀ c ∈ entry.2, Unicode.isWord c = true := by
  decide

/-- Neither a mark nor an ampersand stands in a reference behind its ampersand. -/
theorem not_mem_marks_of_isWord {c : Char} (word : Unicode.isWord c = true) :
    c ∉ '&' :: marks.map Prod.fst := by
  have outside : ∀ d ∈ '&' :: marks.map Prod.fst, Unicode.isWord d = false := by decide
  exact fun inside => Bool.false_ne_true ((outside c inside).symm.trans word)

theorem not_mem_marks_of_isHexDigit {c : Char} (hex : isHexDigit c = true) :
    c ∉ '&' :: marks.map Prod.fst := by
  have outside : ∀ d ∈ '&' :: marks.map Prod.fst, isHexDigit d = false := by decide
  exact fun inside => Bool.false_ne_true ((outside c inside).symm.trans hex)

theorem refers_of_isWord {name rest : Text} (some : name ≠ [])
    (word : ∀ c ∈ name, Unicode.isWord c = true) : Refers (name ++ ';' :: rest) :=
  ⟨[], [], name, rest, by simp, by simp, some, .inr word, rfl⟩

/-- What a text refers to, up to the semicolon. -/
theorem Refers.exists_append {text : Text} (refers : Refers text) :
    ∃ front rest, text = front ++ rest ∧ (∀ c ∈ front, c ∉ '&' :: marks.map Prod.fst) ∧
      ∀ rest, Refers (front ++ rest) := by
  obtain ⟨sign, letter, name, rest, signed, lettered, some, inClass, rfl⟩ := refers
  refine ⟨sign ++ (letter ++ (name ++ [';'])), rest, by simp, ?_, fun other =>
    ⟨sign, letter, name, other, signed, lettered, some, inClass, by simp⟩⟩
  simp only [List.forall_mem_append]
  refine ⟨?_, ?_, ?_, by decide⟩
  · exact (by decide : ∀ sign ∈ [[], ['#']], ∀ c ∈ sign, c ∉ '&' :: marks.map Prod.fst) sign signed
  · exact (by decide : ∀ letter ∈ [[], ['x'], ['X']],
      ∀ c ∈ letter, c ∉ '&' :: marks.map Prod.fst) letter lettered
  · rcases inClass with hex | word
    · exact fun c inside => not_mem_marks_of_isHexDigit (hex c inside)
    · exact fun c inside => not_mem_marks_of_isWord (word c inside)

theorem suffix_of_not_mem {α : Type} {item : α} {front back after : List α} (none : item ∉ front)
    (suffix : item :: after <:+ front ++ back) : item :: after <:+ back := by
  induction front with
  | nil => exact suffix
  | cons other front ih =>
    obtain ⟨apart, none⟩ := List.ne_and_not_mem_of_not_mem_cons none
    rcases List.suffix_cons_iff.1 suffix with same | inside
    · exact absurd (List.cons.inj same).1 apart
    · exact ih none inside

namespace Undoes

variable {value other text front rest after : Text}

/-- Only one value is undone to a text. -/
theorem unique (undoes : Undoes value text) (again : Undoes other text) : value = other := by
  induction undoes generalizing other with
  | nil =>
    cases again
    rfl
  | @mark c name value text member later ih =>
    have marked : c ∈ marks.map Prod.fst := List.mem_map_of_mem member
    cases again with
    | mark same again =>
      cases eq_of_mem_marks _ member _ same rfl
      rw [ih again]
    | bare _ again => exact absurd marked ampersand_not_mem_marks
    | kept plain _ again => exact absurd marked plain
  | bare bare later ih =>
    cases again with
    | mark member again => exact absurd (List.mem_map_of_mem member) ampersand_not_mem_marks
    | bare _ again => rw [ih again]
    | kept _ refers again => exact absurd (refers rfl) bare
  | kept plain refers later ih =>
    cases again with
    | mark member again => exact absurd (List.mem_map_of_mem member) plain
    | bare bare again => exact absurd (refers rfl) bare
    | kept _ _ again => rw [ih again]

/-- Characters that are neither marks nor ampersands stay where they are. -/
theorem exists_append (plain : ∀ c ∈ front, c ∉ '&' :: marks.map Prod.fst)
    (undoes : Undoes value (front ++ rest)) : ∃ later, value = front ++ later := by
  induction front generalizing value with
  | nil => exact ⟨value, rfl⟩
  | cons c front ih =>
    obtain ⟨here, others⟩ := List.forall_mem_cons.1 plain
    cases undoes with
    | mark member _ => exact absurd (List.mem_cons_of_mem _ (List.mem_map_of_mem member)) here
    | bare _ _ => exact absurd List.mem_cons_self here
    | kept _ _ undoes =>
      obtain ⟨later, rfl⟩ := ih others undoes
      exact ⟨later, rfl⟩

/-- A reference of the text is one of the value. -/
theorem refers (undoes : Undoes value text) (refers : Refers text) : Refers value := by
  obtain ⟨front, rest, rfl, plain, whole⟩ := refers.exists_append
  obtain ⟨later, rfl⟩ := undoes.exists_append plain
  exact whole later

/-- No mark is left in the value. -/
theorem not_mem_marks (undoes : Undoes value text) : ∀ c ∈ value, c ∉ marks.map Prod.fst := by
  have written : ∀ {name : Text} {value : Text}, (∀ c ∈ name, Unicode.isWord c = true) →
      (∀ c ∈ value, c ∉ marks.map Prod.fst) →
      ∀ c ∈ '&' :: (name ++ ';' :: value), c ∉ marks.map Prod.fst := by
    intro name value word later
    simp only [List.forall_mem_cons, List.forall_mem_append]
    exact ⟨ampersand_not_mem_marks,
      fun c inside member => not_mem_marks_of_isWord (word c inside) (List.mem_cons_of_mem _ member),
      by decide, later⟩
  induction undoes with
  | nil => simp
  | mark member _ ih => exact written (isWord_of_mem_marks _ member).2 ih
  | bare _ _ ih => exact written (by decide) ih
  | kept plain _ _ ih => exact List.forall_mem_cons.2 ⟨plain, ih⟩

/-- Every ampersand of the value starts a reference. -/
theorem refers_of_suffix (undoes : Undoes value text) (suffix : '&' :: after <:+ value) :
    Refers after := by
  have written : ∀ {name value : Text}, name ≠ [] → (∀ c ∈ name, Unicode.isWord c = true) →
      ('&' :: after <:+ value → Refers after) →
      '&' :: after <:+ '&' :: (name ++ ';' :: value) → Refers after := by
    intro name value some word later suffix
    rcases List.suffix_cons_iff.1 suffix with same | inside
    · obtain ⟨-, rfl⟩ := List.cons.inj same
      exact refers_of_isWord some word
    · have none : '&' ∉ name ++ [';'] := by
        rw [List.mem_append, not_or]
        exact ⟨fun member => not_mem_marks_of_isWord (word _ member) List.mem_cons_self, by decide⟩
      rw [List.append_cons] at inside
      exact later (suffix_of_not_mem none inside)
  induction undoes with
  | nil => simp at suffix
  | mark member _ ih =>
    obtain ⟨some, word⟩ := isWord_of_mem_marks _ member
    exact written some word ih suffix
  | bare _ _ ih => exact written (by decide) (by decide) ih suffix
  | kept _ refers later ih =>
    rcases List.suffix_cons_iff.1 suffix with same | inside
    · obtain ⟨rfl, rfl⟩ := List.cons.inj same
      exact later.refers (refers rfl)
    · exact ih inside

end Undoes

/-- Where no mark stands and every ampersand starts a reference, there is nothing to undo. -/
theorem undoes_self {text : Text} (plain : ∀ c ∈ text, c ∉ marks.map Prod.fst)
    (refers : ∀ after, '&' :: after <:+ text → Refers after) : Undoes text text := by
  induction text with
  | nil => exact .nil
  | cons c rest ih =>
    obtain ⟨here, others⟩ := List.forall_mem_cons.1 plain
    have later : Undoes rest rest :=
      ih others fun after suffix => refers after (suffix.trans (List.suffix_cons c rest))
    refine .kept here ?_ later
    rintro rfl
    exact refers rest (List.suffix_refl _)

/-- An attribute value is safe and settled. It holds no angle bracket and no double quote, each of its
ampersands starts a character reference, and it is the value of itself. It is the one text that is
undone to the text that it was made of. -/
theorem escapeAttribute_settled (text : Text) :
    (∀ c ∈ escapeAttribute text, c ≠ '<' ∧ c ≠ '>' ∧ c ≠ '"') ∧
      (∀ after, '&' :: after <:+ escapeAttribute text → Refers after) ∧
      escapeAttribute (escapeAttribute text) = escapeAttribute text ∧
      ∀ value, Undoes value text ↔ value = escapeAttribute text := by
  have undoes := undoes_escapeAttribute text
  have plain := undoes.not_mem_marks
  have refers : ∀ after, '&' :: after <:+ escapeAttribute text → Refers after :=
    fun _ => undoes.refers_of_suffix
  refine ⟨fun c inside => ?_, refers, ?_, fun value => ⟨fun other => other.unique undoes, ?_⟩⟩
  · simpa [marks] using plain c inside
  · exact (undoes_escapeAttribute (escapeAttribute text)).unique (undoes_self plain refers)
  · rintro rfl
    exact undoes

-- A reference of the text is its own, and no part of what is undone.
example : escapeAttribute "R&D <&lt;>".toList = "R&amp;D &lt;&lt;&gt;".toList := by
  decide +kernel

end Markdown.Html
