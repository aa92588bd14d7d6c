import Markdown.Proofs.Markup.Inline

set_option autoImplicit false

namespace Markdown.Markup

open Pattern Structure

/-- What stands in the tags of inline markup without links and images. -/
def plainTags : List Text :=
  ["code".toList, "/code".toList, "strong".toList, "/strong".toList, "em".toList, "/em".toList,
    "br".toList]

def emphasized : List Text :=
  ["strong".toList, "em".toList]

/-- Elements of code are counted, and of the others those of one name. -/
def counts (kept name : Text) : Bool :=
  name == kept || name == "code".toList

/-- The elements that are open behind a tag, the innermost first. A closing tag must be one of the
innermost element. -/
def turn (kept : Text) (opened : List Text) : Text → Option (List Text)
  | '/' :: name =>
    if counts kept name then
      if opened.head? = some name then some opened.tail else none
    else some opened
  | name => if counts kept name then some (name :: opened) else some opened

/-- From what is open before it the text leads to what is open behind it, and every closing tag of
a counted element closes the innermost one. Barred characters stand in elements of one name only. -/
inductive Nested (kept : Text) (barred : Char → Prop) : List Text → Text → List Text → Prop where
  | nil {opened : List Text} : Nested kept barred opened [] opened
  | char {c : Char} {rest : Text} {opened left : List Text} (plain : c ≠ '<')
    (allowed : barred c → ∀ name ∈ opened, name = kept)
    (later : Nested kept barred opened rest left) : Nested kept barred opened (c :: rest) left
  | tag {tag rest : Text} {opened next left : List Text} (own : tag ∈ plainTags)
    (turned : turn kept opened tag = some next) (later : Nested kept barred next rest left) :
    Nested kept barred opened (bracketed tag ++ rest) left

section Turns

variable {kept name : Text} {opened left : List Text}

theorem turn_closing : turn kept opened ('/' :: name) =
    if counts kept name then
      if opened.head? = some name then some opened.tail else none
    else some opened :=
  rfl

theorem turn_opening (opens : name.head? ≠ some '/') :
    turn kept opened name = if counts kept name then some (name :: opened) else some opened := by
  rw [turn]
  rintro _ rfl
  exact opens rfl

/-- Around what is open there may be more. -/
theorem turn_append {tag : Text} (turned : turn kept opened tag = some left) (outer : List Text) :
    turn kept (opened ++ outer) tag = some (left ++ outer) := by
  by_cases opens : tag.head? = some '/'
  · obtain ⟨name, rfl⟩ := List.head?_eq_some_iff.1 opens
    rw [turn_closing] at turned ⊢
    split at turned
    · next counted =>
      split at turned
      · next innermost =>
        obtain ⟨rest, rfl⟩ := List.head?_eq_some_iff.1 innermost
        rw [← Option.some.inj turned, if_pos counted, if_pos (by simp)]
        rfl
      · cases turned
    · next passed => rw [← Option.some.inj turned, if_neg passed]
  · rw [turn_opening opens] at turned ⊢
    split at turned
    · next counted => rw [← Option.some.inj turned, if_pos counted]; rfl
    · next passed => rw [← Option.some.inj turned, if_neg passed]

/-- A counted element is opened by its first tag and closed by its last one. -/
theorem turn_counted (opens : name.head? ≠ some '/') (counted : counts kept name = true) :
    turn kept opened name = some (name :: opened) ∧
      turn kept (name :: opened) ('/' :: name) = some opened := by
  rw [turn_opening opens, turn_closing, if_pos counted, if_pos counted]
  exact ⟨rfl, if_pos rfl⟩

/-- The tags of other elements are passed over. -/
theorem turn_passed (opens : name.head? ≠ some '/') (passed : counts kept name = false) :
    turn kept opened name = some opened ∧ turn kept opened ('/' :: name) = some opened := by
  rw [turn_opening opens, turn_closing, passed]
  exact ⟨rfl, rfl⟩

end Turns

namespace Nested

variable {kept : Text} {barred : Char → Prop} {opened left next outer : List Text}
  {text front back : Text}

theorem append (first : Nested kept barred opened front next)
    (second : Nested kept barred next back left) :
    Nested kept barred opened (front ++ back) left := by
  induction first with
  | nil => exact second
  | char plain allowed _ ih => exact .char plain allowed (ih second)
  | tag own turned _ ih =>
    rw [List.append_assoc]
    exact .tag own turned (ih second)

theorem mono {fewer : Char → Prop} (nested : Nested kept barred opened text left)
    (weaker : ∀ c, fewer c → barred c) : Nested kept fewer opened text left := by
  induction nested with
  | nil => exact .nil
  | char plain allowed _ ih => exact .char plain (fun here => allowed (weaker _ here)) ih
  | tag own turned _ ih => exact .tag own turned ih

/-- More elements of the kept name may be open around the text. -/
theorem widen (nested : Nested kept barred opened text left) (same : ∀ name ∈ outer, name = kept) :
    Nested kept barred (opened ++ outer) text (left ++ outer) := by
  induction nested with
  | nil => exact .nil
  | char plain allowed _ ih =>
    refine .char plain (fun here name member => ?_) ih
    exact (List.mem_append.1 member).elim (allowed here name) (same name)
  | tag own turned _ ih => exact .tag own (turn_append turned outer) ih

theorem ofPlain (each : ∀ c ∈ text, c ≠ '<' ∧ (barred c → ∀ name ∈ opened, name = kept)) :
    Nested kept barred opened text opened := by
  induction text with
  | nil => exact .nil
  | cons c rest ih =>
    obtain ⟨⟨plain, allowed⟩, others⟩ := List.forall_mem_cons.1 each
    exact .char plain allowed (ih others)

theorem ofTag {tag : Text} (own : tag ∈ plainTags) (turned : turn kept opened tag = some next) :
    Nested kept barred opened (bracketed tag) next := by
  rw [← List.append_nil (bracketed tag)]
  exact .tag own turned .nil

/-- Behind characters that open no tag the text goes on with the same elements open. -/
theorem dropPlain (plain : '<' ∉ front) (nested : Nested kept barred opened (front ++ back) left) :
    Nested kept barred opened back left := by
  induction front with
  | nil => exact nested
  | cons c front ih =>
    obtain ⟨here, others⟩ := List.ne_and_not_mem_of_not_mem_cons plain
    refine ih others ?_
    generalize whole : c :: front ++ back = text at nested
    cases nested with
    | nil => cases whole
    | char _ _ later =>
      obtain ⟨_, rfl⟩ := List.cons.inj whole
      exact later
    | tag own _ later => exact absurd (List.cons.inj whole).1.symm here

/-- At a character that stands in no tag the text may be cut. -/
theorem cut {c : Char} (apart : ∀ tag ∈ plainTags, c ∉ bracketed tag)
    (nested : Nested kept barred opened (front ++ c :: back) left) :
    ∃ next, Nested kept barred opened front next ∧
      (barred c → ∀ name ∈ next, name = kept) ∧ Nested kept barred next (c :: back) left := by
  generalize whole : front ++ c :: back = text at nested
  induction nested generalizing front with
  | nil => simp at whole
  | @char d rest opened left plain allowed later ih =>
    cases front with
    | nil =>
      obtain ⟨rfl, rfl⟩ := List.cons.inj whole
      exact ⟨opened, .nil, allowed, .char plain allowed later⟩
    | cons e front =>
      obtain ⟨rfl, same⟩ := List.cons.inj whole
      obtain ⟨next, early, here, late⟩ := ih same
      exact ⟨next, .char plain allowed early, here, late⟩
  | @tag tag rest opened middle left own turned later ih =>
    rcases @beside _ _ _ [] _ _ (apart tag own) whole with ⟨more, rfl, same⟩ | ⟨_, impossible, _⟩
    · obtain ⟨next, early, here, late⟩ := ih same.symm
      exact ⟨next, .tag own turned early, here, late⟩
    · simp at impossible

/-- At a text that stands in no tag, but for what follows its first character, another may take its
place. -/
theorem substitute {c : Char} {more before part after : Text}
    (apart : ∀ tag ∈ plainTags, c ∉ bracketed tag) (plain : '<' ∉ c :: more)
    (inner : ∀ opened, Nested kept barred opened part opened)
    (nested : Nested kept barred opened (before ++ (c :: more ++ after)) left) :
    Nested kept barred opened (before ++ (part ++ after)) left := by
  obtain ⟨next, early, _, late⟩ := nested.cut apart
  exact early.append ((inner next).append (late.dropPlain plain))

/-- At a delimiter no element of another name is open. -/
theorem cut_delimiter {delimiter : Text} (filled : delimiter ≠ [])
    (apart : ∀ c ∈ delimiter, (∀ tag ∈ plainTags, c ∉ bracketed tag) ∧ c ≠ '<' ∧ barred c)
    (nested : Nested kept barred opened (front ++ (delimiter ++ back)) left) :
    ∃ next, Nested kept barred opened front next ∧ (∀ name ∈ next, name = kept) ∧
      Nested kept barred next back left := by
  obtain ⟨c, more, rfl⟩ := List.exists_cons_of_ne_nil filled
  obtain ⟨⟨foreign, _, bars⟩, _⟩ := List.forall_mem_cons.1 apart
  obtain ⟨next, early, here, late⟩ := nested.cut foreign
  exact ⟨next, early, here bars, late.dropPlain fun inside => (apart _ inside).2.1 rfl⟩

end Nested

section Passes

variable {kept : Text} {text : Text}

abbrev Guarded (c : Char) : Prop :=
  Escape.isProtected c = true

theorem append_singleton_of_same {opened : List Text} (same : ∀ name ∈ opened, name = kept) :
    opened ++ [kept] = kept :: opened := by
  rw [List.eq_replicate_of_mem same, ← List.replicate_succ', List.replicate_succ]

/-- Around nested content the tags of an emphasized element nest. -/
theorem nested_element {barred : Char → Prop} {opened left : List Text} {name content : Text}
    (named : name ∈ emphasized) (before : ∀ name ∈ opened, name = kept)
    (behind : ∀ name ∈ left, name = kept)
    (nested : Nested kept barred opened content left) :
    Nested kept barred opened (element name content) left := by
  obtain ⟨first, last, opens, other⟩ : name ∈ plainTags ∧ '/' :: name ∈ plainTags ∧
      name.head? ≠ some '/' ∧ (name == "code".toList) = false :=
    (by decide : ∀ name ∈ emphasized, name ∈ plainTags ∧ '/' :: name ∈ plainTags ∧
      name.head? ≠ some '/' ∧ (name == "code".toList) = false) name named
  by_cases same : name = kept
  · subst same
    have counted : counts name name = true := by simp [counts]
    have wider : Nested name barred (opened ++ [name]) content (left ++ [name]) :=
      nested.widen (by simp)
    rw [append_singleton_of_same before, append_singleton_of_same behind] at wider
    exact ((Nested.ofTag first (turn_counted opens counted).1).append wider).append
      (.ofTag last (turn_counted opens counted).2)
  · have passed : counts kept name = false := by
      rw [counts, other, Bool.or_false]
      exact beq_false_of_ne same
    exact ((Nested.ofTag first (turn_passed opens passed).1).append nested).append
      (.ofTag last (turn_passed opens passed).2)

theorem pairs_nested :
    ∀ mark ∈ emphases, Pairs (Nested kept Guarded [] · []) mark.1 mark.2 := by
  intro mark inside before content after whole
  obtain ⟨⟨filled, apart⟩, named⟩ :=
    (by decide : ∀ mark ∈ emphases,
      (mark.1 ≠ [] ∧ ∀ c ∈ mark.1, (∀ tag ∈ plainTags, c ∉ bracketed tag) ∧ c ≠ '<' ∧
        Guarded c) ∧ mark.2 ∈ emphasized) mark inside
  obtain ⟨opened, early, outer, later⟩ := whole.cut_delimiter filled apart
  obtain ⟨left, inner, further, late⟩ := later.cut_delimiter filled apart
  exact early.append ((nested_element named outer further inner).append late)

theorem nested_codeSpans (plain : '<' ∉ text) :
    Nested kept Guarded [] (CodeSpan.render text) [] := by
  rw [← CodeSpan.codeSpan.flatMap_text_segments text] at plain
  rw [CodeSpan.render, Pattern.replace]
  generalize CodeSpan.codeSpan.segments text = segments at plain ⊢
  induction segments with
  | nil => exact .nil
  | cons segment segments ih =>
    rw [List.flatMap_cons, List.mem_append, not_or] at plain
    rw [List.flatMap_cons]
    refine Nested.append ?_ (ih plain.2)
    cases segment with
    | plain c => exact .ofPlain fun d inside => ⟨fun same => plain.1 (same ▸ inside), by simp⟩
    | found m =>
      have content : Nested kept Guarded ["code".toList]
          (Codec.standard.protect (Codec.standard.restore (m.get .code))) ["code".toList] := by
        refine .ofPlain fun c inside => ⟨fun same => not_mem_protect _ (same ▸ inside), ?_⟩
        have unguarded : Escape.isProtected c = false :=
          (of_mem_hide inside).elim (fun sheltered => sheltered.2.2) fun written => written.2
        exact fun guarded => by
          rw [Guarded, unguarded] at guarded
          cases guarded
      have counted : counts kept "code".toList = true := by simp [counts]
      obtain ⟨opens, closes⟩ := @turn_counted kept "code".toList [] (by decide) counted
      exact ((Nested.ofTag (by decide) opens).append content).append (.ofTag (by decide) closes)

/-- Code is hidden and its tags hold no bracket. -/
theorem bracket_not_mem_codeSpans (none : '[' ∉ text) : '[' ∉ CodeSpan.render text := by
  intro inside
  obtain ⟨segment, member, here⟩ := List.mem_flatMap.1 inside
  cases segment with
  | plain c =>
    refine none ?_
    rw [← CodeSpan.codeSpan.flatMap_text_segments text]
    exact List.mem_flatMap.2 ⟨_, member, here⟩
  | found m =>
    rcases List.mem_append.1 here with begun | last
    · rcases List.mem_append.1 begun with first | content
      · exact absurd first (by decide)
      · rcases of_mem_hide content with sheltered | ⟨_, unguarded⟩
        · exact absurd sheltered.2.2 (by decide)
        · exact absurd unguarded (by decide)
    · exact absurd last (by decide)

/-- Without brackets a complete text holds neither links nor images. -/
theorem links_eq_self (references : ReferenceTable) (none : '[' ∉ text)
    (complete : Complete Sheltered text) :
    Link.renderImages references (Link.renderLinks references text) = text := by
  have quiet := Renaming.same.quiet
  rw [Link.renderLinks,
    replace_eq_self (not_found_of_not_mem (Link.regular_referenceLink quiet) rfl
      (Link.takes_textPart.memFirst _) none),
    replace_eq_self (not_found_of_not_mem (Link.regular_inlineLink quiet) rfl
      (Link.takes_textPart.memFirst _) none),
    replace_eq_self (not_found_autolink complete), Link.renderImages,
    replace_eq_self (not_found_of_not_mem (Link.regular_referenceImage quiet) rfl
      (Link.takes_imagePart.memFirst _) none),
    replace_eq_self (not_found_of_not_mem (Link.regular_inlineImage quiet) rfl
      (Link.takes_imagePart.memFirst _) none)]

/-- When no delimiter is searched for any more, a character may stand anywhere. -/
abbrev Unguarded (_ : Char) : Prop := False

theorem breaks_nested (member : kept ∈ emphasized) :
    Breaks (Nested kept Unguarded [] · []) := by
  intro count before after whole
  have passed : counts kept "br".toList = false :=
    (by decide : ∀ kept ∈ emphasized, counts kept "br".toList = false) kept member
  have drawn : ∀ opened, Nested kept Unguarded opened (bracketed "br".toList ++ ['\n']) opened :=
    fun opened => (Nested.ofTag (by decide) (turn_passed (by decide) passed).1).append
      (.ofPlain (by simp [Unguarded]))
  have spaces : List.replicate (count + 2) ' ' ++ ['\n'] =
      ' ' :: (List.replicate (count + 1) ' ' ++ ['\n']) := rfl
  rw [spaces] at whole
  exact .substitute (by decide) (by simp) drawn whole

theorem decodes_nested : Decodes (Nested kept Unguarded [] · []) := by
  intro c member before after whole
  have opens : c ≠ '<' :=
    (by decide : ∀ d ∈ Escape.alphabet ++ Escape.markers, d ≠ '<') c member
  have drawn : ∀ opened, Nested kept Unguarded opened [c] opened :=
    fun opened => .ofPlain (by simpa [Unguarded] using opens)
  exact .substitute (by decide) (fun inside => (sheltered_token inside).2.1 rfl) drawn whole

end Passes

/-- Without links and images, the tags of code and of one kind of emphasis nest: each closing tag
closes the element opened last among those still open, and in the end none is open. -/
theorem nested_convert {text kept : Text} (plain : '<' ∉ text) (unlinked : '[' ∉ text)
    (member : kept ∈ emphasized) (references : ReferenceTable) :
    Nested kept Unguarded [] (Inline.convert references text) [] := by
  have encoded := not_mem_encodeEscapes (by decide)
    (not_mem_normalize (by decide) (by decide) plain)
  have unmarked := not_mem_encodeEscapes (by decide)
    (not_mem_normalize (by decide) (by decide) unlinked)
  have rendered := emphasis_preserves (@pairs_nested kept) (nested_codeSpans encoded)
  rw [← links_eq_self references (bracket_not_mem_codeSpans unmarked)
    (complete_codeSpans encoded)] at rendered
  have released : Nested kept Unguarded [] _ [] :=
    Nested.mono rendered fun _ impossible => impossible.elim
  have converted := finish_preserves (breaks_nested member) decodes_nested released
  exact converted

/-- A star in code does not close the one in front of it. -/
theorem nested_convert_code :
    Nested "em".toList Unguarded [] (Inline.convert .empty "*a \x60b*\x60*".toList) [] :=
  nested_convert (by decide) (by decide) (by decide) .empty

/-- The elements of strong and plain emphasis cross. -/
example : Emphasis.render "*a **b* c**".toList = "<em>a <strong>b</em> c</strong>".toList := by
  decide +kernel

end Markdown.Markup
