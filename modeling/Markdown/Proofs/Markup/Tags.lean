import Markdown.Pattern.Outcomes

set_option autoImplicit false

namespace Markdown.Markup

/-- A tag, its attributes with their values as they are written. -/
structure Tag where
  name : Text
  attributes : List (Text × Text)

/-- The names of the tags of inline markup, each with the names of its attributes. -/
def forms : List (Text × List Text) :=
  [("code".toList, []), ("/code".toList, []), ("strong".toList, []), ("/strong".toList, []),
    ("em".toList, []), ("/em".toList, []), ("br".toList, []), ("/a".toList, []),
    ("a".toList, ["href".toList]), ("a".toList, ["href".toList, "title".toList]),
    ("img".toList, ["src".toList, "alt".toList]),
    ("img".toList, ["src".toList, "alt".toList, "title".toList])]

/-- An attribute and its value as they are written in a tag. -/
def assignment (entry : Text × Text) : Text :=
  ' ' :: entry.1 ++ "=\"".toList ++ entry.2 ++ ['"']

namespace Tag

/-- What stands between the angle brackets. -/
def inner (tag : Tag) : Text :=
  tag.name ++ tag.attributes.flatMap assignment

def text (tag : Tag) : Text :=
  '<' :: tag.inner ++ ['>']

/-- A tag of inline markup, the characters of its values of a kind. -/
structure Own (kind : Char → Prop) (tag : Tag) : Prop where
  form : (tag.name, tag.attributes.map Prod.fst) ∈ forms
  values : ∀ entry ∈ tag.attributes, ∀ c ∈ entry.2, kind c

end Tag

/-- The text can be cut into characters other than an opening angle bracket and tags of inline
markup, the characters of their values of a kind. -/
inductive Complete (kind : Char → Prop) : Text → Prop where
  | nil : Complete kind []
  | char {c : Char} {rest : Text} (plain : c ≠ '<') (later : Complete kind rest) :
    Complete kind (c :: rest)
  | tag {tag : Tag} {rest : Text} (own : tag.Own kind) (later : Complete kind rest) :
    Complete kind (tag.text ++ rest)

/-- What lies around a character and does not hold it lies on one side of it. -/
theorem beside {c : Char} {front back before middle after : Text} (none : c ∉ middle)
    (whole : front ++ c :: back = before ++ (middle ++ after)) :
    (∃ rest, front = before ++ (middle ++ rest) ∧ after = rest ++ c :: back) ∨
      ∃ rest, before = front ++ c :: rest ∧ back = rest ++ (middle ++ after) := by
  induction front generalizing before middle with
  | nil =>
    cases before with
    | cons d before =>
      obtain ⟨rfl, rfl⟩ := List.cons.inj whole
      exact .inr ⟨before, rfl, rfl⟩
    | nil =>
      cases middle with
      | nil => exact .inl ⟨[], rfl, whole.symm⟩
      | cons d middle =>
        obtain ⟨rfl, _⟩ := List.cons.inj whole
        exact absurd List.mem_cons_self none
  | cons d front ih =>
    cases before with
    | cons e before =>
      obtain ⟨rfl, later⟩ := List.cons.inj whole
      rcases ih none later with ⟨rest, rfl, same⟩ | ⟨rest, rfl, same⟩
      · exact .inl ⟨rest, rfl, same⟩
      · exact .inr ⟨rest, rfl, same⟩
    | nil =>
      cases middle with
      | nil => exact .inl ⟨d :: front, rfl, whole.symm⟩
      | cons e middle =>
        obtain ⟨rfl, later⟩ := List.cons.inj whole
        rcases @ih [] middle (fun inside => none (List.mem_cons_of_mem _ inside)) later with
          ⟨rest, rfl, same⟩ | ⟨rest, impossible, _⟩
        · exact .inl ⟨rest, rfl, same⟩
        · simp at impossible

variable {kind : Char → Prop} {text front back : Text} {c : Char}

/-- A character of a tag outside its values and its first angle bracket. -/
def isTagChar (c : Char) : Bool :=
  c.isLower || "/ =\">".toList.contains c

namespace Tag

variable {tag : Tag}

theorem isTagChar_of_mem_forms : ∀ form ∈ forms, (∀ c ∈ form.1, isTagChar c = true) ∧
    ∀ key ∈ form.2, ∀ c ∈ key, isTagChar c = true := by
  decide

theorem Own.mono {other : Char → Prop} (own : tag.Own kind) (weaker : ∀ c, kind c → other c) :
    tag.Own other :=
  ⟨own.form, fun entry member c inside => weaker c (own.values entry member c inside)⟩

theorem Own.mem_inner (own : tag.Own kind) (inside : c ∈ tag.inner) :
    isTagChar c = true ∨ kind c := by
  obtain ⟨name, keys⟩ := isTagChar_of_mem_forms _ own.form
  rcases List.mem_append.1 inside with inName | inside
  · exact .inl (name c inName)
  · obtain ⟨entry, member, here⟩ := List.mem_flatMap.1 inside
    rcases List.mem_append.1 here with here | quote
    · rcases List.mem_append.1 here with here | inValue
      · rcases List.mem_append.1 here with here | equals
        · rcases List.mem_cons.1 here with rfl | inKey
          · exact .inl (by decide)
          · exact .inl (keys entry.1 (List.mem_map_of_mem member) c inKey)
        · exact .inl ((by decide : ∀ d ∈ "=\"".toList, isTagChar d = true) c equals)
      · exact .inr (own.values entry member c inValue)
    · exact .inl (List.mem_singleton.1 quote ▸ by decide)

/-- Behind its first angle bracket a tag holds its values and characters of tags. -/
theorem Own.mem_tail (own : tag.Own kind) (inside : c ∈ tag.inner ++ ['>']) :
    isTagChar c = true ∨ kind c := by
  rcases List.mem_append.1 inside with inside | last
  · exact own.mem_inner inside
  · exact .inl (List.mem_singleton.1 last ▸ by decide)

/-- What stands in no value and is no character of tags stands in no tag. -/
theorem Own.not_mem (own : tag.Own kind) (apart : isTagChar c = false) (outside : ¬ kind c)
    (opens : c ≠ '<') : c ∉ tag.text := by
  intro inside
  rcases List.mem_cons.1 inside with same | inside
  · exact opens same
  · rcases own.mem_tail inside with letter | written
    · rw [apart] at letter
      cases letter
    · exact outside written

end Tag

namespace Complete

theorem mono {other : Char → Prop} (complete : Complete kind text)
    (weaker : ∀ c, kind c → other c) : Complete other text := by
  induction complete with
  | nil => exact .nil
  | char plain _ ih => exact .char plain ih
  | tag own _ ih => exact .tag (own.mono weaker) ih

theorem append (first : Complete kind front) (second : Complete kind back) :
    Complete kind (front ++ back) := by
  induction first with
  | nil => exact second
  | char plain _ ih => exact .char plain ih
  | tag own _ ih =>
    rw [List.append_assoc]
    exact .tag own ih

theorem of_plain (plain : '<' ∉ text) : Complete kind text := by
  induction text with
  | nil => exact .nil
  | cons c rest ih =>
    obtain ⟨here, others⟩ := List.ne_and_not_mem_of_not_mem_cons plain
    exact .char (Ne.symm here) (ih others)

theorem ofTag {tag : Tag} (own : tag.Own kind) : Complete kind tag.text := by
  have alone := Complete.tag own .nil
  rwa [List.append_nil] at alone

/-- At a character that stands in no tag the text may be cut. -/
theorem cut (apart : isTagChar c = false) (outside : ¬ kind c) (opens : c ≠ '<')
    (complete : Complete kind (front ++ c :: back)) : Complete kind front ∧ Complete kind back := by
  generalize whole : front ++ c :: back = text at complete
  induction complete generalizing front with
  | nil => simp at whole
  | @char d rest plain later ih =>
    cases front with
    | nil =>
      obtain ⟨_, rfl⟩ := List.cons.inj whole
      exact ⟨.nil, later⟩
    | cons e front =>
      obtain ⟨rfl, same⟩ := List.cons.inj whole
      obtain ⟨early, late⟩ := ih same
      exact ⟨.char plain early, late⟩
  | @tag tag rest own later ih =>
    have none := own.not_mem apart outside opens
    rcases @beside _ _ _ [] _ _ none whole with ⟨more, rfl, same⟩ | ⟨_, impossible, _⟩
    · obtain ⟨early, late⟩ := ih same.symm
      exact ⟨.tag own early, late⟩
    · simp at impossible

/-- Behind any place the text is complete as long as no value holds an angle bracket. -/
theorem drop (values : ¬ kind '<') (complete : Complete kind (front ++ back)) :
    Complete kind back := by
  generalize whole : front ++ back = text at complete
  induction complete generalizing front with
  | nil =>
    obtain ⟨_, rfl⟩ := List.append_eq_nil_iff.1 whole
    exact .nil
  | @char d rest plain later ih =>
    cases front with
    | nil =>
      obtain rfl : back = d :: rest := whole
      exact .char plain later
    | cons e front => exact ih (List.cons.inj whole).2
  | @tag tag rest own later ih =>
    rcases List.append_eq_append_iff.1 whole with ⟨more, same, rfl⟩ | ⟨more, rfl, same⟩
    · cases front with
      | nil =>
        obtain rfl : tag.text = more := same
        exact .tag own later
      | cons e front =>
        have tail : tag.inner ++ ['>'] = front ++ more := (List.cons.inj same).2
        have none : '<' ∉ more := by
          intro inside
          have within : '<' ∈ tag.inner ++ ['>'] := tail ▸ List.mem_append_right front inside
          rcases own.mem_tail within with letter | written
          · exact absurd letter (by decide)
          · exact values written
        exact (of_plain none).append later
    · exact ih same.symm

/-- So it is behind characters that open no tag. -/
theorem dropPlain (plain : '<' ∉ front) (complete : Complete kind (front ++ back)) :
    Complete kind back := by
  induction front with
  | nil => exact complete
  | cons d front ih =>
    obtain ⟨here, others⟩ := List.ne_and_not_mem_of_not_mem_cons plain
    refine ih others ?_
    generalize whole : d :: front ++ back = text at complete
    cases complete with
    | nil => cases whole
    | char _ later =>
      obtain ⟨_, rfl⟩ := List.cons.inj whole
      exact later
    | tag own later => exact absurd (List.cons.inj whole).1.symm here

/-- A tag ends with an angle bracket. -/
theorem dropLast (other : c ≠ '>') (complete : Complete kind (front ++ [c])) :
    Complete kind front := by
  generalize whole : front ++ [c] = text at complete
  induction complete generalizing front with
  | nil => simp at whole
  | @char d rest plain later ih =>
    cases front with
    | nil => exact .nil
    | cons e front =>
      obtain ⟨rfl, same⟩ := List.cons.inj whole
      exact .char plain (ih same)
  | @tag tag rest own later ih =>
    rcases List.eq_nil_or_concat rest with rfl | ⟨more, d, rfl⟩
    · rw [List.append_nil] at whole
      exact absurd (List.cons.inj (List.append_inj' whole rfl).2).1 other
    · rw [List.concat_eq_append, ← List.append_assoc] at whole
      rw [List.concat_eq_append] at ih
      obtain ⟨rfl, same⟩ := List.append_inj' whole rfl
      exact .tag own (ih (congrArg (more ++ ·) same))

end Complete

section Substitution

variable {before middle after part : Text} (quote : '"' ∉ middle)
  (odd : ∃ c ∈ middle, isTagChar c = false) (values : ∀ c ∈ part, kind c)
include quote odd values

/-- Between the quotes of an attribute a text may give way to another. -/
theorem substitute_assignments {entries : List (Text × Text)} {fixed : Text}
    (plain : ∀ c ∈ fixed, isTagChar c = true)
    (keys : ∀ entry ∈ entries, ∀ c ∈ entry.1, isTagChar c = true)
    (each : ∀ entry ∈ entries, ∀ c ∈ entry.2, kind c)
    (whole : fixed ++ entries.flatMap assignment = before ++ (middle ++ after)) :
    ∃ others : List (Text × Text), others.map Prod.fst = entries.map Prod.fst ∧
      (∀ entry ∈ others, ∀ c ∈ entry.2, kind c) ∧
      fixed ++ others.flatMap assignment = before ++ (part ++ after) := by
  obtain ⟨c, inside, apart⟩ := odd
  have outside : ∀ {letters early late : Text}, (∀ d ∈ letters, isTagChar d = true) →
      letters = early ++ (middle ++ late) → False := by
    rintro _ early late letters rfl
    rw [letters c (by simp [inside])] at apart
    cases apart
  induction entries generalizing fixed before with
  | nil =>
    rw [List.flatMap_nil, List.append_nil] at whole
    exact (outside plain whole).elim
  | cons entry entries ih =>
    obtain ⟨key, keys⟩ := List.forall_mem_cons.1 keys
    obtain ⟨value, each⟩ := List.forall_mem_cons.1 each
    have opened : fixed ++ (entry :: entries).flatMap assignment =
        (fixed ++ ' ' :: (entry.1 ++ ['='])) ++
          '"' :: (entry.2 ++ '"' :: entries.flatMap assignment) := by
      simp [assignment]
    have letters : ∀ d ∈ fixed ++ ' ' :: (entry.1 ++ ['=']), isTagChar d = true := by
      simp only [List.forall_mem_append, List.forall_mem_cons]
      exact ⟨plain, by decide, key, by decide⟩
    rw [opened] at whole
    rcases beside quote whole with ⟨rest, same, _⟩ | ⟨rest, rfl, within⟩
    · exact (outside letters same).elim
    · rcases beside quote within with ⟨more, same, rfl⟩ | ⟨more, rfl, later⟩
      · -- In the value of this attribute.
        rw [same] at value
        simp only [List.forall_mem_append] at value
        refine ⟨(entry.1, rest ++ (part ++ more)) :: entries, by simp, ?_, by simp [assignment]⟩
        refine List.forall_mem_cons.2 ⟨?_, each⟩
        simp only [List.forall_mem_append]
        exact ⟨value.1, values, value.2.2⟩
      · -- Behind the value of this attribute.
        obtain ⟨others, names, kinds, written⟩ := @ih more [] (by simp) keys each later
        refine ⟨entry :: others, by simp [names], List.forall_mem_cons.2 ⟨value, kinds⟩, ?_⟩
        rw [List.nil_append] at written
        simp [assignment, written]

/-- Within a tag a text may give way to another where no quote and no name is touched. -/
theorem Tag.Own.substitute {tag : Tag} (own : tag.Own kind)
    (whole : '<' :: tag.inner = before ++ (middle ++ after)) (opens : '<' ∉ middle) :
    ∃ other : Tag, other.Own kind ∧ '<' :: other.inner = before ++ (part ++ after) := by
  obtain ⟨name, keys⟩ := Tag.isTagChar_of_mem_forms _ own.form
  cases before with
  | nil =>
    obtain ⟨c, inside, _⟩ := odd
    cases middle with
    | nil => cases inside
    | cons d middle =>
      obtain ⟨rfl, _⟩ := List.cons.inj whole
      exact absurd List.mem_cons_self opens
  | cons d before =>
    obtain ⟨rfl, tail⟩ := List.cons.inj whole
    obtain ⟨others, names, kinds, written⟩ := substitute_assignments quote odd values name
      (fun entry member => keys entry.1 (List.mem_map_of_mem member)) own.values tail
    exact ⟨⟨tag.name, others⟩, ⟨by rw [names]; exact own.form, kinds⟩,
      congrArg ('<' :: ·) written⟩

/-- In a complete text another text may take the place of one without quotes and angle brackets that
holds a character foreign to tags. -/
theorem Complete.substitute (opens : '<' ∉ middle) (closes : '>' ∉ middle)
    (complete : Complete kind (before ++ (middle ++ after))) (inner : Complete kind part) :
    Complete kind (before ++ (part ++ after)) := by
  generalize whole : before ++ (middle ++ after) = text at complete
  induction complete generalizing before with
  | nil =>
    obtain ⟨c, inside, _⟩ := odd
    have here : c ∈ before ++ (middle ++ after) := by simp [inside]
    rw [whole] at here
    cases here
  | @char d rest plain later ih =>
    cases before with
    | nil =>
      have complete : Complete kind (middle ++ after) := by
        rw [show middle ++ after = d :: rest from whole]
        exact .char plain later
      exact inner.append (complete.dropPlain opens)
    | cons e before =>
      obtain ⟨rfl, same⟩ := List.cons.inj whole
      exact .char plain (ih same)
  | @tag tag rest own later ih =>
    have opened : tag.text ++ rest = '<' :: tag.inner ++ '>' :: rest := by simp [Tag.text]
    rw [opened] at whole
    rcases beside closes whole.symm with ⟨more, same, rfl⟩ | ⟨more, rfl, same⟩
    · obtain ⟨other, owned, written⟩ := own.substitute quote odd values same opens
      have again := Complete.tag owned later
      simp only [Tag.text, written] at again
      simpa using again
    · have again := Complete.tag own (ih same.symm)
      simpa [Tag.text] using again

end Substitution

end Markdown.Markup
