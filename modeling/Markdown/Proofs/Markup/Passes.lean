import Markdown.Proofs.Structure.Inline

set_option autoImplicit false

namespace Markdown.Markup

open Pattern Structure

section Matches

variable {slot : Type} [DecidableEq slot] {pattern : Pattern slot} {text : Text}
  {draw : Match slot → Text}

/-- What holds of a text holds of its replacement if each match may give way to what is drawn for
it. -/
theorem replace_preserves {holds : Text → Prop} (whole : holds text)
    (each : ∀ m, .found m ∈ pattern.segments text → ∀ before after,
      holds (before ++ (m.text ++ after)) → holds (before ++ (draw m ++ after))) :
    holds (pattern.replace draw text) := by
  have pieces : ∀ (segments : List (Segment slot)) (before : Text),
      (∀ m, .found m ∈ segments → .found m ∈ pattern.segments text) →
      holds (before ++ segments.flatMap Segment.text) →
      holds (before ++ segments.flatMap (Segment.replaced draw)) := by
    intro segments
    induction segments with
    | nil => exact fun before _ here => here
    | cons segment segments ih =>
      intro before within here
      have later := fun m member => within m (List.mem_cons_of_mem _ member)
      rw [List.flatMap_cons, ← List.append_assoc]
      rw [List.flatMap_cons] at here
      refine ih _ later ?_
      rw [List.append_assoc]
      cases segment with
      | plain c => exact here
      | found m => exact each m (within m List.mem_cons_self) before _ here
  rw [← pattern.flatMap_text_segments text] at whole
  exact pieces (pattern.segments text) [] (fun _ member => member) whole

theorem replace_eq_self (none : ∀ m, .found m ∉ pattern.segments text) :
    pattern.replace draw text = text :=
  @replace_preserves _ _ pattern text draw (· = text) rfl fun m member => absurd member (none m)

variable {o : Outline Seal slot} {m : Match slot}

/-- What is known of the glyphs that a pattern passes is known of the text of a match. -/
theorem exists_shape {shape : Sheet → Prop} (regular : pattern.Regular o Renaming.same.face)
    (judged : o.lead = Seal.lead) (takes : pattern.Takes Seal.lead shape)
    (member : .found m ∈ pattern.segments text) :
    ∃ passed, shape passed ∧ m.text = spell Renaming.same.face passed := by
  obtain ⟨f, finds, rfl⟩ := Pattern.exists_finds regular member
  rw [judged] at finds
  exact ⟨f.glyphs, takes.glyphs finds, finds.text_read _⟩

/-- What a pattern captures stands between what frames it. -/
theorem exists_frame {name : slot} {front back : Sheet → Prop}
    (regular : pattern.Regular o Renaming.same.face) (judged : o.lead = Seal.lead)
    (frames : pattern.Frames Seal.lead name front back)
    (member : .found m ∈ pattern.segments text) :
    ∃ a b, front a ∧ back b ∧
      m.text = spell Renaming.same.face a ++ (m.get name ++ spell Renaming.same.face b) := by
  obtain ⟨f, finds, rfl⟩ := Pattern.exists_finds regular member
  rw [judged] at finds
  obtain ⟨a, b, whole, first, last⟩ := frames.glyphs finds
  refine ⟨a, b, first, last, ?_⟩
  rw [Find.read_get, finds.text_read, whole, spell_append, spell_append, List.append_assoc]

/-- A pattern is not found where a character is missing that every match passes. -/
theorem not_found_of_not_mem {c : Char} (regular : pattern.Regular o Renaming.same.face)
    (judged : o.lead = Seal.lead) (takes : pattern.Takes Seal.lead (Glyph.char c ∈ ·)) (none : c ∉ text)
    (m : Match slot) : .found m ∉ pattern.segments text := by
  intro member
  obtain ⟨passed, inside, shown⟩ := exists_shape regular judged takes member
  refine none ((infix_of_mem_segments member).subset ?_)
  rw [shown]
  exact List.mem_flatMap.2 ⟨_, inside, List.mem_singleton_self c⟩

end Matches

def bracketed (inner : Text) : Text :=
  '<' :: inner ++ ['>']

def element (name content : Text) : Text :=
  bracketed name ++ content ++ bracketed ('/' :: name)

/-- The delimiters of emphasis, each with the element that it stands for. -/
def emphases : List (Text × Text) :=
  [("**".toList, "strong".toList), ("__".toList, "strong".toList), ("*".toList, "em".toList),
    ("_".toList, "em".toList)]

section Preservation

variable {holds : Text → Prop} {text : Text}

variable (holds) in
/-- Two delimiters may give way to the tags of an element. -/
def Pairs (delimiter name : Text) : Prop :=
  ∀ before content after, holds (before ++ (delimiter ++ (content ++ (delimiter ++ after)))) →
    holds (before ++ (element name content ++ after))

theorem Pairs.replace {delimiter name : Text} {pattern : Pattern Emphasis.Part}
    {o : Outline Seal Emphasis.Part} (pairs : Pairs holds delimiter name)
    (regular : pattern.Regular o Renaming.same.face) (judged : o.lead = Seal.lead)
    (frames : pattern.Frames Seal.lead .content (· = Glyph.chars delimiter)
      (· = Glyph.chars delimiter)) (whole : holds text) :
    holds (pattern.replace (fun m => element name (m.get .content)) text) := by
  refine replace_preserves whole fun m member before after here => ?_
  obtain ⟨_, _, rfl, rfl, framed⟩ := exists_frame regular judged frames member
  rw [spell_chars] at framed
  rw [framed] at here
  exact pairs before (m.get .content) after (by simpa using here)

theorem emphasis_preserves (pairs : ∀ mark ∈ emphases, Pairs holds mark.1 mark.2)
    (whole : holds text) : holds (Emphasis.render text) := by
  have quiet := Renaming.same.quiet
  have strongStars := (pairs ("**".toList, "strong".toList) (by decide)).replace
    (Emphasis.regular_strongStars quiet) rfl
    (Emphasis.frames_between (by decide) Emphasis.strongContent) whole
  have strongLines := (pairs ("__".toList, "strong".toList) (by decide)).replace
    (Emphasis.regular_strongLines quiet) rfl
    (Emphasis.frames_apartFromWords (Emphasis.frames_between (by decide) Emphasis.strongContent))
    strongStars
  have plainStars := (pairs ("*".toList, "em".toList) (by decide)).replace
    (Emphasis.regular_plainStars quiet) rfl
    (Emphasis.frames_between (by decide) (.few1 Pattern.anything)) strongLines
  exact (pairs ("_".toList, "em".toList) (by decide)).replace
    (Emphasis.regular_plainLines quiet) rfl
    (Emphasis.frames_apartFromWords (Emphasis.frames_between (by decide) (.few1 Pattern.anything)))
    plainStars

variable (holds) in
/-- Spaces at the end of a line may give way to a break. -/
def Breaks : Prop :=
  ∀ count before after, holds (before ++ (List.replicate (count + 2) ' ' ++ ['\n'] ++ after)) →
    holds (before ++ (bracketed "br".toList ++ ['\n'] ++ after))

variable (holds) in
/-- Tokens may give way to the characters that they stand for. -/
def Decodes : Prop :=
  ∀ c ∈ Escape.alphabet ++ Escape.markers, ∀ before after,
    holds (before ++ (Escape.token c ++ after)) → holds (before ++ ([c] ++ after))

theorem Breaks.renderBreaks (breaks : Breaks holds) (whole : holds text) :
    holds (Inline.renderBreaks text) := by
  refine replace_preserves whole fun m member before after here => ?_
  obtain ⟨_, ⟨count, rfl⟩, broken⟩ := exists_shape
    (Inline.regular_hardBreak Renaming.same.quiet) rfl Inline.takes_hardBreak member
  have spaces : m.text = List.replicate (count + 2) ' ' ++ ['\n'] := by
    rw [broken, ← spell_chars Renaming.same.face (_ ++ _)]
    simp [Glyph.chars]
  rw [spaces] at here
  exact breaks count before after here

theorem Decodes.replace {written : Match Empty → Text} (decodes : Decodes holds)
    (each : ∀ m, written m = m.text ∨
      ∃ c, Codec.standard.char? m.text = some c ∧ written m = [c]) (whole : holds text) :
    holds (Escape.tokenShape.replace written text) := by
  refine replace_preserves whole fun m _ before after here => ?_
  rcases each m with same | ⟨c, found, drawn⟩
  · rwa [same]
  · obtain ⟨member, token⟩ := Codec.eq_token_of_char? found
    rw [token] at here
    rw [drawn]
    exact decodes c member before after here

theorem Decodes.unescape (decodes : Decodes holds) (whole : holds text) :
    holds (Codec.standard.unescape text) := by
  refine decodes.replace (fun m => ?_) whole
  split
  · next c found =>
    split
    · exact .inl rfl
    · exact .inr ⟨c, found, rfl⟩
  · exact .inl rfl

theorem Decodes.decodeMarkers (decodes : Decodes holds) (whole : holds text) :
    holds (Codec.standard.decodeMarkers text) := by
  refine decodes.replace (fun m => ?_) whole
  split
  · next c found =>
    split
    · exact .inr ⟨c, found, rfl⟩
    · exact .inl rfl
  · exact .inl rfl

/-- Behind emphasis the passes put in breaks and take the tokens out. -/
theorem finish_preserves (breaks : Breaks holds) (decodes : Decodes holds) (whole : holds text) :
    holds (Codec.standard.decodeMarkers (Codec.standard.unescape (Codec.standard.unescape
      (Inline.renderBreaks text)))) :=
  decodes.decodeMarkers (decodes.unescape (decodes.unescape (breaks.renderBreaks whole)))

end Preservation

/-- The characters that tokens are written with. -/
def tokenLetters : Text :=
  Escape.opening :: 'e' :: Escape.closing :: digestDigits

theorem mem_tokenLetters {c d : Char} (inside : d ∈ Escape.token c) : d ∈ tokenLetters := by
  obtain ⟨bytes, whole⟩ := stamped_token c
  rw [whole, List.mem_cons, List.mem_cons, List.mem_append, List.mem_singleton] at inside
  simp only [tokenLetters, List.mem_cons]
  rcases inside with here | here | digit | here
  · exact .inl here
  · exact .inr (.inl here)
  · exact .inr (.inr (.inr (mem_digestDigits_of_mem_hex digit)))
  · exact .inr (.inr (.inl here))

section Encoding

variable {c : Char} {text : Text} (apart : c ∉ tokenLetters)
include apart

theorem not_mem_cover {d : Char} (covered : d ∈ Escape.alphabet ++ Escape.markers) :
    c ∉ Codec.standard.cover d := by
  rw [Codec.cover_eq covered]
  exact fun inside => apart (mem_tokenLetters inside)

theorem not_mem_normalize (other : c ≠ '\n') (none : c ∉ text) :
    c ∉ Codec.standard.normalize text := by
  intro inside
  obtain ⟨d, member, here⟩ := List.mem_flatMap.1 inside
  split at here
  · next marker => exact not_mem_cover apart (Codec.mem_markers_of_isMarker marker) here
  · obtain rfl := List.mem_singleton.1 here
    exact (Renaming.mem_of_mem_unifyNewlines member).elim none other

theorem not_mem_encodeEscapes (none : c ∉ text) : c ∉ Codec.standard.encodeEscapes text := by
  fun_induction Codec.encodeEscapes Codec.standard text with
  | case1 d rest escapable ih =>
    have covered := List.mem_append_left Escape.markers (List.contains_iff_mem.1 escapable)
    simp only [List.mem_cons, not_or] at none
    exact fun inside =>
      (List.mem_append.1 inside).elim (not_mem_cover apart covered) (ih none.2.2)
  | case2 d rest refused ih =>
    obtain ⟨here, others⟩ := List.ne_and_not_mem_of_not_mem_cons none
    exact List.not_mem_cons_of_ne_of_not_mem here (ih others)
  | case3 d rest other ih =>
    obtain ⟨here, others⟩ := List.ne_and_not_mem_of_not_mem_cons none
    exact List.not_mem_cons_of_ne_of_not_mem here (ih others)
  | case4 => simp

end Encoding

end Markdown.Markup
