import Markdown.Inline.Link
import Markdown.Proofs.Pattern.Leads
import Markdown.Proofs.Reference.Label
import Markdown.Proofs.Reference.Opening
import Markdown.Reference.Unresolved

set_option autoImplicit false

namespace Markdown

/-- A usage alone on its line. -/
def bracketed (text label : Text) : Text :=
  '[' :: (text ++ ']' :: '[' :: (label ++ [']']))

section

variable {text label : Text} (plainText : ∀ c ∈ text, Unresolved.isInner c = true)
  (plainLabel : ∀ c ∈ label, Unresolved.isInner c = true)
include plainText plainLabel

open Pattern

/-- The search for usages finds the whole of it. -/
theorem Unresolved.exists_leads_usage : ∃ later,
    usage.Leads ⟨.first (bracketed text label), []⟩ later ∧ later.cursor.after = [] ∧
      later.get? .text = some text ∧ later.get? .label = some label := by
  refine ⟨_, (leads_optional rfl).seq ((leads_char _).seq
    (((leads_many plainText rfl).capture _).seq ((leads_char _).seq
      ((leads_optional rfl).seq ((leads_char _).seq
        (((leads_many plainLabel rfl).capture _).seq (leads_char _))))))), rfl, ?_, ?_⟩
  · simp [Reading.get?, Cursor.upTo, Thunk.get]
  · simp [Reading.get?, Cursor.upTo, Thunk.get]

/-- The renderer of links finds the whole of it, too. -/
theorem Link.exists_leads_referenceLink : ∃ later,
    referenceLink.Leads ⟨.first (bracketed text label), []⟩ later ∧ later.cursor.after = [] ∧
      later.get? .text = some text ∧ later.get? .label = some label := by
  have outside : ∀ c ∈ text, notBracket c = true := fun c inside => by
    have inner := plainText c inside
    simp only [Unresolved.isInner, Bool.and_eq_true] at inner
    simp [notBracket, inner]
  have unclosed : ∀ c ∈ label, (c != ']') = true := fun c inside => by
    have inner := plainLabel c inside
    simp only [Unresolved.isInner, Bool.and_eq_true] at inner
    exact inner.1.2
  refine ⟨_, Leads.seq ((leads_place rfl).seq ((leads_char _).seq
    ((((leads_many outside rfl).seq (leads_rounds ?_)).capture _).seq (leads_char _))))
    ((leads_optional rfl).seq ((leads_optional rfl).seq ((leads_char _).seq
      (((leads_many unclosed rfl).capture _).seq (leads_char _))))), rfl, ?_, ?_⟩
  · rfl
  · simp [Reading.get?, Cursor.upTo, Thunk.get]
  · simp [Reading.get?, Cursor.upTo, Thunk.get]

end

/-- A label of a definition ends at the first closing bracket, and a colon stands behind it. -/
theorem Definition.bracketed_not_mem_opening {text : Text} (unclosed : ']' ∉ text)
    (label rest : Text) : bracketed text label ++ rest ∉ opening := by
  intro opens
  obtain ⟨front, labelled, target, -, ending, -, cut⟩ := mem_opening_iff.1 opens
  have whole : bracketed text label ++ rest =
      ('[' :: text) ++ ']' :: '[' :: (label ++ ']' :: rest) := by
    simp [bracketed]
  rw [whole] at cut
  obtain ⟨more, parts, behind⟩ := Pattern.exists_of_append_cons cut (not_mem_of_labelFront labelled)
  cases more with
  | nil => cases behind
  | cons c more =>
    obtain ⟨rfl, -⟩ := List.cons.inj behind
    have inside : ']' ∈ '[' :: text := by simp [parts]
    rcases List.mem_cons.1 inside with same | within
    · exact absurd same (by decide)
    · exact unclosed within

theorem Definition.matchStart?_bracketed {text : Text} (unclosed : ']' ∉ text) (label : Text) :
    definition.matchStart? (bracketed text label) = none := by
  have unmatched : definition.outcomes ⟨.first (bracketed text label), []⟩ = [] := by
    by_contra some
    obtain ⟨-, opens⟩ := (outcomes_definition_ne_nil_iff _).1 some
    apply bracketed_not_mem_opening unclosed label []
    rw [List.append_nil]
    exact opens
  rw [Pattern.matchStart?, Pattern.run_eq_head?, unmatched]
  rfl

theorem Link.head?_anchor (text : Text) (reference : Reference) :
    (anchor text reference).head? = some '<' := by
  have opened : ("<a href=\"".toList).head? = some '<' := by decide
  change ("<a href=\"".toList ++ attributeValue reference.url ++ "\"".toList ++
    titleAttribute reference.title ++ ">".toList ++ text ++ "</a>".toList).head? = some '<'
  simp only [List.append_assoc, List.head?_append, opened, Option.some_or]

/-- A line without backslashes and ticks is looked at as it is. -/
theorem Unresolved.visible_eq_self {line : Text}
    (plain : ∀ c ∈ line, c ≠ '\\' ∧ isTick c = false) : visible line = line := by
  have pairs : backslashPair.replace blanked line = line := by
    refine Pattern.replace_of_run_eq_none (fun cursor c rest next inside => ?_) _
    simp [backslashPair, Pattern.char, Pattern.run, next, (plain c inside).1]
  have spans : codeSpan.replace blanked line = line := by
    refine Pattern.replace_of_run_eq_none (fun cursor c rest next inside => ?_) _
    simp [codeSpan, Pattern.sequence, Pattern.notBehind, Pattern.many1, Pattern.run, next,
      (plain c inside).2]
  rw [visible, pairs, spans]

namespace Usage

/-- What the renderer of links makes of a usage: its second part or, if that is blank, its first is
looked up. -/
theorem replace_referenceLink_bracketed {text label : Text}
    (plainText : ∀ c ∈ text, Unresolved.isInner c = true)
    (plainLabel : ∀ c ∈ label, Unresolved.isInner c = true) (references : ReferenceTable)
    (draw : Text → Reference → Text) :
    Link.referenceLink.replace (Link.byReference references draw) (bracketed text label) =
      match references.lookup (if label.trimSpace.isEmpty then text else label) with
      | some reference => draw text reference
      | none => bracketed text label := by
  obtain ⟨later, leads, ended, first, second⟩ :=
    Link.exists_leads_referenceLink plainText plainLabel
  have written : Match.text ⟨.first (bracketed text label), later⟩ = bracketed text label :=
    Pattern.text_of_leads leads ended
  have looked : Link.referenceOf references ⟨.first (bracketed text label), later⟩ =
      references.lookup (if label.trimSpace.isEmpty then text else label) := by
    simp only [Link.referenceOf, Match.get, Match.get?, first, second, Option.getD_some]
    split
    · rfl
    · exact references.lookup_trimSpace label
  have drawn : Link.referenceLink.replace (Link.byReference references draw)
      (bracketed text label) =
        Link.byReference references draw ⟨.first (bracketed text label), later⟩ := by
    rw [bracketed, Pattern.replace, Pattern.segments_of_leads leads ended]
    exact List.append_nil _
  have shown : Match.get ⟨.first (bracketed text label), later⟩ .text = text := by
    simp [Match.get, Match.get?, first]
  rw [drawn]
  cases known : references.lookup (if label.trimSpace.isEmpty then text else label) with
  | none => simp only [Link.byReference, looked, known, written]
  | some reference => simp only [Link.byReference, looked, known, shown]

/-- A text that may stand between brackets of a usage and that no other inline markup touches. -/
def Inner (text : Text) : Prop :=
  ∀ c ∈ text, Unresolved.isInner c = true ∧ c ≠ '\\' ∧ Unresolved.isTick c = false

section

variable {text label : Text} (plainText : Inner text) (plainLabel : Inner label)
include plainText plainLabel

theorem plain_of_mem_bracketed :
    ∀ c ∈ bracketed text label, c ≠ '\\' ∧ Unresolved.isTick c = false := by
  intro c inside
  simp only [bracketed, List.mem_cons, List.mem_append, List.not_mem_nil, or_false] at inside
  rcases inside with rfl | inside | rfl | rfl | inside | rfl
  · decide
  · exact (plainText c inside).2
  · decide
  · decide
  · exact (plainLabel c inside).2
  · decide

theorem visible_bracketed : Unresolved.visible (bracketed text label) = bracketed text label :=
  Unresolved.visible_eq_self (plain_of_mem_bracketed plainText plainLabel)

/-- What the search tells of a usage: its second part, or its first if the second is empty, unless
that is blank or has a definition. -/
theorem inLine_bracketed (table : ReferenceTable) (number : Nat) :
    Unresolved.inLine table (bracketed text label) number =
      let name := if label.isEmpty then text else label
      if name.trimSpace.isEmpty || table.contains name then []
      else [⟨name, number, 1, (bracketed text label).length⟩] := by
  have unclosed : ']' ∉ text := fun inside => absurd (plainText _ inside).1 (by decide)
  have looked : Unresolved.isSkipped (bracketed text label) = false := by
    rw [Unresolved.isSkipped, Definition.matchStart?_bracketed unclosed]
    rfl
  obtain ⟨later, leads, ended, first, second⟩ := Unresolved.exists_leads_usage
    (fun c inside => (plainText c inside).1) fun c inside => (plainLabel c inside).1
  have found : Unresolved.usage.matches? (bracketed text label) =
      [⟨.first (bracketed text label), later⟩] := by
    rw [bracketed, Pattern.matches?, Pattern.segments_of_leads leads ended]
    rfl
  have written : Match.text ⟨.first (bracketed text label), later⟩ = bracketed text label :=
    Pattern.text_of_leads leads ended
  have named : Unresolved.labelOf ⟨.first (bracketed text label), later⟩ =
      if label.isEmpty then text else label := by
    simp [Unresolved.labelOf, Match.get, Match.get?, first, second]
  rw [Unresolved.inLine, looked, visible_bracketed plainText plainLabel, found]
  simp only [Bool.false_eq_true, if_false, List.filterMap_cons, List.filterMap_nil, named, written]
  generalize (if label.isEmpty then text else label) = name
  cases name.trimSpace.isEmpty || table.contains name <;> rfl

/-- Both agree on the usages with an empty second part and on those where it is not blank. -/
theorem inLine_ne_nil_iff (settled : label = [] ∨ label.trimSpace ≠ [])
    (named : text.trimSpace ≠ [] ∨ label.trimSpace ≠ []) (table : ReferenceTable) (number : Nat) :
    Unresolved.inLine table (bracketed text label) number ≠ [] ↔
      Link.referenceLink.replace (Link.byReference table Link.anchor) (bracketed text label) =
        bracketed text label := by
  have same : (if label.trimSpace.isEmpty then text else label) =
      if label.isEmpty then text else label := by
    rcases settled with rfl | filled
    · rfl
    · have inked : label ≠ [] := by
        rintro rfl
        exact filled rfl
      simp [filled, inked]
  have inked : (if label.isEmpty then text else label).trimSpace ≠ [] := by
    rcases settled with rfl | filled
    · exact named.resolve_right fun impossible => impossible rfl
    · rw [← same]
      simp [filled]
  have drawn := replace_referenceLink_bracketed (fun c inside => (plainText c inside).1)
    (fun c inside => (plainLabel c inside).1) table Link.anchor
  rw [inLine_bracketed plainText plainLabel, drawn, same]
  generalize (if label.isEmpty then text else label) = name at inked ⊢
  cases known : table.lookup name with
  | none => simp [ReferenceTable.contains, known, inked]
  | some reference =>
    have defined : table.contains name = true := congrArg Option.isSome known
    have drawn : Link.anchor text reference ≠ bracketed text label := by
      intro impossible
      have opened := congrArg List.head? impossible
      rw [Link.head?_anchor] at opened
      cases opened
    simp [defined, drawn]

end

/-- A usage without a definition is left as it stands, and reported. -/
theorem inLine_ne_nil_undefined :
    Inner "t".toList ∧ Inner "k".toList ∧
      Unresolved.inLine .empty (bracketed "t".toList "k".toList) 1 ≠ [] := by
  have text : Inner "t".toList := by unfold Inner; decide
  have label : Inner "k".toList := by unfold Inner; decide
  have left : Link.referenceLink.replace (Link.byReference .empty Link.anchor)
      (bracketed "t".toList "k".toList) = bracketed "t".toList "k".toList := by
    decide
  exact ⟨text, label,
    (inLine_ne_nil_iff text label (.inr (by decide)) (.inl (by decide)) .empty 1).2 left⟩

end Usage

end Markdown
