import Mathlib.Data.List.Infix
import Markdown.Proofs.Pattern.Goes
import Markdown.Proofs.Pattern.Leads

set_option autoImplicit false

namespace Markdown.Html

open Pattern

variable {behind rest body : Sheet} {captures : List (Part × Sheet)} {tag : String}

/-- Classes in a row take one character each. -/
theorem of_mem_ones {accepts : Char → Char → Bool} {letters : Text}
    (hidden : ∀ letter ∈ letters, accepts letter Escape.opening = false)
    {spot later : Spot Seal Part}
    (member : later ∈ (Pattern.sequence (letters.map fun letter =>
      .one (accepts letter))).spots Seal.lead spot) :
    ∃ name : Text, spot.Passes (Glyph.chars name) later ∧ later.captures = spot.captures ∧
      List.Forall₂ (fun letter c => accepts letter c = true) letters name := by
  induction letters generalizing spot with
  | nil =>
    obtain rfl := List.mem_singleton.1 member
    exact ⟨[], .nothing _, rfl, .nil⟩
  | cons letter letters ih =>
    obtain ⟨here, others⟩ := List.forall_mem_cons.1 hidden
    cases letters with
    | nil =>
      obtain ⟨g, passes, fits, same⟩ := spots_one member
      obtain ⟨c, rfl, accepted⟩ := exists_char_of_fits here fits
      exact ⟨[c], passes, same, .cons accepted .nil⟩
    | cons second letters =>
      obtain ⟨middle, early, late⟩ := List.mem_flatMap.1 member
      obtain ⟨g, first, fits, kept⟩ := spots_one early
      obtain ⟨c, rfl, accepted⟩ := exists_char_of_fits here fits
      obtain ⟨name, passes, same, each⟩ := ih others late
      exact ⟨c :: name, first.trans passes, same.trans kept, .cons accepted each⟩

theorem exists_of_forall₂ {α β : Type} {related : α → β → Prop} {first : List α} {second : List β}
    (each : List.Forall₂ related first second) {b : β} (member : b ∈ second) :
    ∃ a ∈ first, related a b := by
  induction each with
  | nil => cases member
  | cons here _ ih =>
    rcases List.mem_cons.1 member with rfl | later
    · exact ⟨_, List.mem_cons_self, here⟩
    · obtain ⟨a, inside, holds⟩ := ih later
      exact ⟨a, List.mem_cons_of_mem _ inside, holds⟩

theorem mem_choice {patterns : List (Pattern Part)} {pattern : Pattern Part}
    (member : pattern ∈ patterns) {spot later : Spot Seal Part}
    (way : later ∈ pattern.spots Seal.lead spot) :
    later ∈ (Pattern.choice patterns).spots Seal.lead spot := by
  induction patterns with
  | nil => cases member
  | cons first patterns ih =>
    cases patterns with
    | nil => exact List.mem_singleton.1 member ▸ way
    | cons second patterns =>
      rcases List.mem_cons.1 member with rfl | later
      · exact List.mem_append_left _ way
      · exact List.mem_append_right _ (ih later)

theorem exists_mem_of_mem_choice {patterns : List (Pattern Part)} {spot later : Spot Seal Part}
    (way : later ∈ (Pattern.choice patterns).spots Seal.lead spot) :
    ∃ pattern ∈ patterns, later ∈ pattern.spots Seal.lead spot := by
  induction patterns with
  | nil =>
    rw [choice, spots] at way
    split at way
    · cases way
    · next g rest next => cases g <;> cases way
  | cons first patterns ih =>
    cases patterns with
    | nil => exact ⟨first, List.mem_cons_self, way⟩
    | cons second patterns =>
      rcases List.mem_append.1 way with here | later
      · exact ⟨first, List.mem_cons_self, here⟩
      · obtain ⟨pattern, member, found⟩ := ih later
        exact ⟨pattern, List.mem_cons_of_mem _ member, found⟩

/-- A tag name is followed by the end of its tag or by a space. -/
def endsName (c : Char) : Bool :=
  c == '>' || c == ' '

theorem endsName_of_isFormOf {letter c : Char} (known : ∃ tag ∈ blockTags, letter ∈ tag.toList)
    (form : Unicode.isFormOf letter c = true) : endsName c = false := by
  have apart : ∀ tag ∈ blockTags, ∀ letter ∈ tag.toList,
      Unicode.isFormOf letter '>' = false ∧ Unicode.isFormOf letter ' ' = false := by
    decide
  obtain ⟨tag, member, inside⟩ := known
  obtain ⟨bracket, space⟩ := apart tag member letter inside
  rw [endsName, Bool.or_eq_false_iff]
  constructor
  · refine beq_false_of_ne fun same => ?_
    rw [same, bracket] at form
    cases form
  · refine beq_false_of_ne fun same => ?_
    rw [same, space] at form
    cases form

theorem hidden_of_mem_blockTags (known : tag ∈ blockTags) :
    ∀ letter ∈ tag.toList, Unicode.isFormOf letter Escape.opening = false :=
  fun letter inside =>
    Unicode.isFormOf_of_isPrivate (by decide) (isPrivate_of_mem_blockTags tag known letter inside)

/-- The name is that of a tag, in some case. -/
def IsForm (tag : String) (name : Text) : Prop :=
  List.Forall₂ (fun letter c => Unicode.isFormOf letter c = true) tag.toList name

theorem exists_form_of_mem_tags {spot later : Spot Seal Part}
    (way : later ∈ (Pattern.choice (blockTags.map tagInAnyCase)).spots Seal.lead spot) :
    ∃ tag ∈ blockTags, ∃ name : Text, IsForm tag name ∧ spot.Passes (Glyph.chars name) later ∧
      later.captures = spot.captures := by
  obtain ⟨_, member, way⟩ := exists_mem_of_mem_choice way
  obtain ⟨tag, known, rfl⟩ := List.mem_map.1 member
  obtain ⟨name, passes, same, forms⟩ := of_mem_ones (hidden_of_mem_blockTags known) way
  exact ⟨tag, known, name, forms, passes, same⟩

/-- What is taken for a tag name has no end of a name in it. -/
theorem IsForm.endsName_eq {name : Text} (form : IsForm tag name) (known : tag ∈ blockTags) :
    ∀ c ∈ name, endsName c = false := by
  intro c inside
  obtain ⟨letter, written, here⟩ := exists_of_forall₂ form inside
  exact endsName_of_isFormOf ⟨tag, known, written⟩ here

theorem isForm_self (known : tag ∈ blockTags) : IsForm tag tag.toList := by
  have small : ∀ tag ∈ blockTags, ∀ letter ∈ tag.toList, Unicode.isFormOf letter letter = true := by
    decide
  exact List.forall₂_same.2 (small tag known)

theorem mem_tags {name : Text} (form : IsForm tag name) (known : tag ∈ blockTags) :
    (⟨(Glyph.chars name).reverse ++ behind, rest, captures⟩ : Spot Seal Part) ∈
      (Pattern.choice (blockTags.map tagInAnyCase)).spots Seal.lead
        ⟨behind, Glyph.chars name ++ rest, captures⟩ := by
  refine mem_choice (List.mem_map_of_mem known) (Goes.mem ?_)
  rw [IsForm] at form
  rw [tagInAnyCase]
  generalize tag.toList = letters at form
  induction form generalizing behind with
  | nil => rfl
  | @cons letter c letters name here others ih =>
    have fits : (Glyph.char c).fits Seal.lead (Unicode.isFormOf letter) = true := here
    cases others with
    | nil => exact goes_one fits
    | cons _ _ =>
      have later := @ih (.char c :: behind)
      rw [Glyph.chars_cons, List.reverse_cons, List.append_assoc]
      exact (goes_one fits).seq later

theorem isWord_of_mem_blockTags :
    ∀ tag ∈ blockTags, ∀ letter ∈ tag.toList, Unicode.isWord letter = true := by
  decide

/-- Of the tags that stand here the one goes on whose name ends here. -/
theorem goes_tag (known : tag ∈ blockTags) {c : Char} (ends : endsName c = true)
    {next : Pattern Part} {later : Spot Seal Part}
    (onward : next.Goes ⟨(Glyph.chars tag.toList).reverse ++ behind, .char c :: rest,
      (.tag, Glyph.chars tag.toList) :: captures⟩ later) :
    ((Pattern.choice (blockTags.map tagInAnyCase)).capture Part.tag |>.seq
      ((Pattern.notBefore Unicode.isWord).seq next)).Goes
        ⟨behind, Glyph.chars tag.toList ++ Glyph.char c :: rest, captures⟩ later := by
  have notWord : Unicode.isWord c = false := by
    have both : Unicode.isWord '>' = false ∧ Unicode.isWord ' ' = false := by decide
    rcases Bool.or_eq_true_iff.1 ends with bracket | space
    · rw [eq_of_beq bracket, both.1]
    · rw [eq_of_beq space, both.2]
  refine Goes.seq_of_sole (List.mem_map.2 ⟨_, mem_tags (isForm_self known) known, ?_⟩)
    ((goes_notBefore fun g here => by obtain rfl := Option.some.inj here; exact notWord).seq onward)
    fun other way differs => ?_
  · have passes : (⟨behind, Glyph.chars tag.toList ++ Glyph.char c :: rest, captures⟩ :
        Spot Seal Part).Passes (Glyph.chars tag.toList)
          ⟨(Glyph.chars tag.toList).reverse ++ behind, .char c :: rest, captures⟩ := ⟨rfl, rfl⟩
    rw [passes.between_eq]
  obtain ⟨inner, inside, rfl⟩ := List.mem_map.1 way
  obtain ⟨other, among, name, form, passes, same⟩ := exists_form_of_mem_tags inside
  have apart := form.endsName_eq among
  have outside : Glyph.char c ∉ (Glyph.chars name : Sheet) := by
    intro member
    obtain ⟨d, within, equal⟩ := Glyph.mem_chars.1 member
    obtain rfl := Glyph.char.inj equal
    rw [apart c within] at ends
    cases ends
  obtain ⟨more, longer, ahead⟩ := exists_of_append_cons passes.ahead outside
  cases more with
  | nil =>
    refine absurd ?_ differs
    rw [passes.between_eq, passes.behind, ahead, same, longer]
    simp
  | cons g more =>
    -- The name goes on with a letter of the tag.
    have letter : g.fits Seal.lead Unicode.isWord = true := by
      obtain ⟨d, within, rfl⟩ := Glyph.mem_chars.1 (longer ▸ by simp : g ∈ Glyph.chars tag.toList)
      exact isWord_of_mem_blockTags tag known d within
    obtain ⟨back, front, captures⟩ := inner
    obtain rfl : front = _ := ahead
    exact spots_seq_eq_nil _ (spots_notBefore_of_fits letter)

def closingTag (written : Text) : Text :=
  "</".toList ++ written ++ ['>']

/-- The text holds a closing tag of the name, in some case. -/
def Closes (name text : Text) : Prop :=
  ∃ written, written.map Unicode.lowerChar = name.map Unicode.lowerChar ∧
    closingTag written <:+: text

instance (name text : Text) : Decidable (Closes name text) :=
  decidable_of_iff (∃ late ∈ text.tails,
      ((late.drop 2).take name.length).map Unicode.lowerChar = name.map Unicode.lowerChar ∧
        closingTag ((late.drop 2).take name.length) <+: late) <| by
    constructor
    · rintro ⟨late, member, alike, here⟩
      exact ⟨_, alike, here.isInfix.trans ((List.mem_tails _ _).1 member).isInfix⟩
    · rintro ⟨written, alike, inside⟩
      obtain ⟨late, ⟨rest, rfl⟩, suffix⟩ := List.infix_iff_prefix_suffix.1 inside
      have same : written.length = name.length := by
        simpa using congrArg List.length alike
      have name : ((closingTag written ++ rest).drop 2).take name.length = written := by
        simp [closingTag, ← same]
      exact ⟨_, (List.mem_tails _ _).2 suffix, by rwa [name], by rw [name]; exact List.prefix_append _ _⟩

def closing : Pattern Part :=
  .sequence [.literal "</".toList, .same .tag Unicode.lowerChar, .char '>']

theorem exists_closingTag_of_mem {name : Text} {spot later : Spot Seal Part}
    (kept : spot.get? .tag = some (Glyph.chars name))
    (member : later ∈ closing.spots Seal.lead spot) :
    ∃ written, written.map Unicode.lowerChar = name.map Unicode.lowerChar ∧
      spot.Passes (Glyph.chars (closingTag written)) later := by
  obtain ⟨opened, early, member⟩ := List.mem_flatMap.1 member
  obtain ⟨named, again, late⟩ := List.mem_flatMap.1 member
  obtain ⟨front, slash, same, each⟩ :=
    @of_mem_ones (fun expected c => c == expected) "</".toList (by decide) _ _ early
  have front : front = "</".toList := by
    have equal : List.Forall₂ (· = ·) "</".toList front :=
      each.imp fun expected c here => (eq_of_beq here).symm
    exact (List.forall₂_eq_eq_eq ▸ equal).symm
  obtain ⟨_, last, rfl⟩ := takes_char (by decide) _ _ late
  have known : opened.get? .tag = some (Glyph.chars name) := by
    rw [Spot.get?, same]
    exact kept
  rw [spots, known] at again
  obtain ⟨written, middle, _, other, equal, alike⟩ :=
    exists_passes_of_past? (Option.mem_toList.1 again)
  obtain rfl : name = other := List.map_injective_iff.2 (fun _ _ => Glyph.char.inj) equal
  refine ⟨written, alike, ?_⟩
  have passes := slash.trans (middle.trans last)
  rw [front, ← List.append_assoc] at passes
  rw [closingTag, Glyph.chars_append, Glyph.chars_append]
  exact passes

theorem goes_closing {name written : Text}
    (alike : written.map Unicode.lowerChar = name.map Unicode.lowerChar)
    (kept : (Part.tag, Glyph.chars name) ∈ captures.head?) :
    closing.Goes ⟨behind, Glyph.chars (closingTag written) ++ rest, captures⟩
      ⟨(Glyph.chars (closingTag written)).reverse ++ behind, rest, captures⟩ := by
  have found : Spot.get? (⟨(Glyph.chars "</".toList).reverse ++ behind,
      Glyph.chars written ++ (Glyph.char '>' :: rest), captures⟩ : Spot Seal Part) .tag =
        some (Glyph.chars name) := by
    obtain ⟨others, rfl⟩ := List.head?_eq_some_iff.1 kept
    rfl
  have goes := (goes_literal "</".toList).seq
    ((goes_same Unicode.lowerChar alike found).seq (goes_char '>'))
  have tag : Glyph.chars (closingTag written) ++ rest =
      Glyph.chars "</".toList ++ (Glyph.chars written ++ (Glyph.char '>' :: rest)) := by
    simp [closingTag]
  have back : (Glyph.chars (closingTag written)).reverse ++ behind = .char '>' ::
      ((Glyph.chars written).reverse ++ ((Glyph.chars "</".toList).reverse ++ behind)) := by
    simp [closingTag]
  rw [tag, back]
  exact goes

theorem bracket_not_mem_of_alike {written : Text} (known : tag ∈ blockTags)
    (alike : written.map Unicode.lowerChar = tag.toList.map Unicode.lowerChar) : '<' ∉ written := by
  have none : ∀ tag ∈ blockTags, Unicode.lowerChar '<' ∉ tag.toList.map Unicode.lowerChar := by
    decide
  intro member
  apply none tag known
  rw [← alike]
  exact List.mem_map_of_mem member

/-- The tag that closes an element cannot complete one that begins in the content. -/
theorem spots_closing_eq_nil (known : tag ∈ blockTags)
    (unclosed : ∀ written : Text, written.map Unicode.lowerChar = tag.toList.map Unicode.lowerChar →
      ¬ Glyph.chars (closingTag written) <:+: body)
    {early late : Sheet} {g : Glyph Seal} (whole : body = early ++ g :: late)
    (kept : (Part.tag, Glyph.chars tag.toList) ∈ captures.head?) :
    closing.spots Seal.lead ⟨behind, g :: (late ++ (Glyph.chars (closingTag tag.toList) ++ rest)),
      captures⟩ = [] := by
  refine List.eq_nil_iff_forall_not_mem.2 fun later member => ?_
  have found : Spot.get? (⟨behind, g :: (late ++ (Glyph.chars (closingTag tag.toList) ++ rest)),
      captures⟩ : Spot Seal Part) .tag = some (Glyph.chars tag.toList) := by
    obtain ⟨others, rfl⟩ := List.head?_eq_some_iff.1 kept
    rfl
  obtain ⟨written, alike, passes⟩ := exists_closingTag_of_mem found member
  have parts : ∀ name : Text, (Glyph.chars (closingTag name) : Sheet) =
      .char '<' :: Glyph.chars ('/' :: (name ++ ['>'])) := fun _ => rfl
  have ahead : g :: (late ++ (Glyph.chars (closingTag tag.toList) ++ rest)) =
      Glyph.chars (closingTag written) ++ later.ahead := passes.ahead
  rw [parts tag.toList, parts written, List.cons_append, List.cons_append] at ahead
  obtain ⟨rfl, tail⟩ := List.cons.inj ahead
  have apart : Glyph.char '<' ∉ (Glyph.chars ('/' :: (written ++ ['>'])) : Sheet) := by
    intro inside
    obtain ⟨c, here, same⟩ := Glyph.mem_chars.1 inside
    obtain rfl := Glyph.char.inj same
    have none := bracket_not_mem_of_alike known alike
    simp [none] at here
  obtain ⟨more, rfl, _⟩ := exists_of_append_cons tail apart
  apply unclosed written alike
  rw [whole, parts]
  exact ⟨early, more, by simp⟩

/-- An element whose content, the rest of its opening tag included, is the sheet. -/
def elementOf (tag : String) (content : Sheet) : Sheet :=
  .char '<' :: (Glyph.chars tag.toList ++ (content ++ Glyph.chars (closingTag tag.toList)))

theorem goes_element (known : tag ∈ blockTags) {c : Char} (ends : endsName c = true)
    (unclosed : ∀ written : Text, written.map Unicode.lowerChar = tag.toList.map Unicode.lowerChar →
      ¬ Glyph.chars (closingTag written) <:+: .char c :: body) :
    element.Goes ⟨behind, elementOf tag (.char c :: body) ++ rest, captures⟩
      ⟨(elementOf tag (.char c :: body)).reverse ++ behind, rest,
        (.tag, Glyph.chars tag.toList) :: captures⟩ := by
  have content : ((Pattern.few anything).seq closing).Goes
      ⟨(Glyph.chars tag.toList).reverse ++ Glyph.char '<' :: behind,
        (.char c :: body) ++ (Glyph.chars (closingTag tag.toList) ++ rest),
        (.tag, Glyph.chars tag.toList) :: captures⟩
      ⟨(Glyph.chars (closingTag tag.toList)).reverse ++ ((.char c :: body).reverse ++
          ((Glyph.chars tag.toList).reverse ++ Glyph.char '<' :: behind)), rest,
        (.tag, Glyph.chars tag.toList) :: captures⟩ := by
    apply head?_flatMap_few
    · intro g _
      cases g <;> rfl
    · intro early g late whole
      exact spots_closing_eq_nil known unclosed whole rfl
    · exact goes_closing rfl rfl
  have whole : elementOf tag (.char c :: body) ++ rest =
      .char '<' :: (Glyph.chars tag.toList ++ Glyph.char c ::
        (body ++ (Glyph.chars (closingTag tag.toList) ++ rest))) := by
    simp [elementOf]
  have back : (elementOf tag (.char c :: body)).reverse ++ behind =
      (Glyph.chars (closingTag tag.toList)).reverse ++ ((.char c :: body).reverse ++
        ((Glyph.chars tag.toList).reverse ++ Glyph.char '<' :: behind)) := by
    simp [elementOf]
  rw [whole, back]
  exact (goes_char '<').seq (goes_tag known ends content)

theorem elementOf_eq_cons (tag : String) (content : Sheet) :
    ∃ more, elementOf tag content = .char '<' :: more :=
  ⟨_, rfl⟩

/-- What stands behind a block: a blank line, or the end of the text. -/
inductive Ended : Sheet → Prop
  | blankLine {blanks : Text} (blank : ∀ c ∈ blanks, Text.isBlank c = true) (more : Sheet) :
    Ended (.char '\n' :: (Glyph.chars blanks ++ .char '\n' :: more))
  | newline : Ended [.char '\n']
  | nil : Ended []

theorem Ended.head (ended : Ended rest) : ∀ g ∈ rest.head?, g = .char '\n' := by
  intro g here
  cases ended with
  | blankLine _ more => exact (Option.some.inj here).symm
  | newline => exact (Option.some.inj here).symm
  | nil => cases here

theorem Ended.unblank (ended : Ended rest) :
    ∀ g ∈ rest.head?, g.fits Seal.lead Text.isBlank = false := by
  intro g here
  rw [ended.head g here]
  rfl

theorem Ended.spots_ne_nil (ended : Ended rest) (behind : Sheet) (captures : List (Part × Sheet)) :
    blockEnd.spots Seal.lead ⟨behind, rest, captures⟩ ≠ [] := by
  cases ended with
  | @blankLine blanks blank more =>
    have each : ∀ g ∈ (Glyph.chars blanks : Sheet), g.fits Seal.lead Text.isBlank = true := by
      intro g member
      obtain ⟨c, inside, rfl⟩ := Glyph.mem_chars.1 member
      exact blank c inside
    apply List.append_ne_nil_of_left_ne_nil
    exact List.ne_nil_of_mem (mem_spots_seq (goes_char '\n').mem
      (mem_spots_seq (mem_many each) (goes_char '\n').mem))
  | newline => exact List.append_ne_nil_of_right_ne_nil _ (List.cons_ne_nil _ _)
  | nil => exact List.append_ne_nil_of_right_ne_nil _ (List.cons_ne_nil _ _)

/-- The element is a block at the start of a line and in front of the end of a block. -/
theorem goes_htmlBlock (starts : Sheet.StartsLine behind) (known : tag ∈ blockTags) {c : Char}
    (ends : endsName c = true)
    (unclosed : ∀ written : Text, written.map Unicode.lowerChar = tag.toList.map Unicode.lowerChar →
      ¬ Glyph.chars (closingTag written) <:+: .char c :: body)
    (ended : Ended rest) :
    htmlBlock.Goes ⟨behind, elementOf tag (.char c :: body) ++ rest, captures⟩
      ⟨(elementOf tag (.char c :: body)).reverse ++ behind, rest,
        (.element, elementOf tag (.char c :: body)) ::
          (.tag, Glyph.chars tag.toList) :: captures⟩ := by
  have goes := @goes_element behind rest body captures tag known c ends unclosed
  obtain ⟨more, opened⟩ := elementOf_eq_cons tag (.char c :: body)
  generalize elementOf tag (.char c :: body) = content at goes opened
  have unindented : (Pattern.upTo 3 (.char ' ') : Pattern Part).Goes
      ⟨behind, content ++ rest, captures⟩ ⟨behind, content ++ rest, captures⟩ := by
    apply goes_spaces
    rw [opened]
    intro g here
    obtain rfl := Option.some.inj here
    rfl
  have written := goes.capture .element ⟨rfl, rfl⟩
  exact (goes_lineStart starts).seq (unindented.seq (written.seq
    ((goes_many_nothing ended.unblank).seq (goes_ahead (ended.spots_ne_nil _ _)))))

end Markdown.Html
