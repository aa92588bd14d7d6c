import Markdown.Proofs.Markup.Passes
import Markdown.Proofs.Markup.Tags

set_option autoImplicit false

namespace Markdown.Markup

open Pattern Structure

/-- A character that may stand in a value while patterns are still searched for. -/
def Sheltered (c : Char) : Prop :=
  c ≠ '"' ∧ c ≠ '<' ∧ Escape.isProtected c = false

instance : DecidablePred Sheltered :=
  fun _ => inferInstanceAs (Decidable (_ ∧ _ ∧ _))

theorem sheltered_token {c d : Char} (inside : d ∈ Escape.token c) : Sheltered d :=
  (by decide : ∀ d ∈ tokenLetters, Sheltered d) d (mem_tokenLetters inside)

/-- Hidden, a text holds no protected character, and of the others only those it held before. -/
theorem of_mem_hide {text : Text} {c : Char} (inside : c ∈ Codec.standard.hide text) :
    Sheltered c ∨ c ∈ text ∧ Escape.isProtected c = false := by
  obtain ⟨d, member, here⟩ := List.mem_flatMap.1 inside
  split at here
  · next guarded =>
    rw [Codec.cover_eq (List.mem_append_left _ (Codec.mem_alphabet_of_isProtected guarded))] at here
    exact .inl (sheltered_token here)
  · next plain =>
    obtain rfl := List.mem_singleton.1 here
    exact .inr ⟨member, Bool.eq_false_iff.2 plain⟩

theorem not_mem_escapeAttributeChar_quote (c : Char) : '"' ∉ Html.escapeAttributeChar c := by
  rw [Html.escapeAttributeChar.eq_def]
  split <;> first | decide | (rename_i quote; simpa using Ne.symm quote)

/-- Whatever a value holds, nothing in it ends the value or opens a tag. -/
theorem sheltered_attributeValue (value : Text) : ∀ c ∈ Link.attributeValue value, Sheltered c := by
  intro c inside
  rcases of_mem_hide inside with sheltered | ⟨escaped, plain⟩
  · exact sheltered
  · obtain ⟨d, _, here⟩ := List.mem_flatMap.1 escaped
    refine ⟨?_, ?_, plain⟩
    · rintro rfl
      exact not_mem_escapeAttributeChar_quote d here
    · rintro rfl
      exact not_mem_escapeAttributeChar d here

theorem not_mem_protect (text : Text) : '<' ∉ Codec.standard.protect text := by
  intro inside
  rcases of_mem_hide inside with sheltered | ⟨escaped, _⟩
  · exact sheltered.2.1 rfl
  · obtain ⟨d, _, here⟩ := List.mem_flatMap.1 escaped
    exact not_mem_escapeChar d here

section Elements

variable {kind : Char → Prop} {text : Text}

theorem complete_tag (name : Text) (named : (name, []) ∈ forms) :
    Complete kind (bracketed name) := by
  have own : Tag.Own kind ⟨name, []⟩ := ⟨named, by simp⟩
  have tag := Complete.ofTag own
  simpa [Tag.text, Tag.inner, bracketed] using tag

def titleEntries : Option Text → List (Text × Text)
  | none => []
  | some title => if title.isEmpty then [] else [("title".toList, Link.attributeValue title)]

theorem flatMap_titleEntries (title : Option Text) :
    (titleEntries title).flatMap assignment = Link.titleAttribute title := by
  cases title with
  | none => rfl
  | some title =>
    rw [titleEntries, Link.titleAttribute]
    split
    · rfl
    · simp [assignment]

theorem map_titleEntries (title : Option Text) :
    (titleEntries title).map Prod.fst = [] ∨
      (titleEntries title).map Prod.fst = ["title".toList] := by
  cases title with
  | none => exact .inl rfl
  | some title =>
    rw [titleEntries]
    split
    · exact .inl rfl
    · exact .inr rfl

theorem sheltered_titleEntries (title : Option Text) :
    ∀ entry ∈ titleEntries title, ∀ c ∈ entry.2, Sheltered c := by
  cases title with
  | none => simp [titleEntries]
  | some title =>
    rw [titleEntries]
    split
    · simp
    · rintro _ member c inside
      obtain rfl := List.mem_singleton.1 member
      exact sheltered_attributeValue title c inside

theorem text_tag (name : Text) (entries : List (Text × Text)) :
    Tag.text ⟨name, entries⟩ = '<' :: (name ++ (entries.flatMap assignment ++ ['>'])) := by
  simp [Tag.text, Tag.inner]

theorem flatMap_assignment_cons (key value : Text) (entries : List (Text × Text)) :
    ((key, value) :: entries).flatMap assignment =
      ' ' :: (key ++ '=' :: '"' :: (value ++ '"' :: entries.flatMap assignment)) := by
  simp [assignment]

/-- Anchors and images with and without a title are of the forms. -/
theorem mem_forms {names : List Text} (titled : names = [] ∨ names = ["title".toList]) :
    ("a".toList, "href".toList :: names) ∈ forms ∧
      ("img".toList, "src".toList :: "alt".toList :: names) ∈ forms := by
  rcases titled with rfl | rfl <;> decide

theorem complete_anchor (content : Complete Sheltered text) (reference : Reference) :
    Complete Sheltered (Link.anchor text reference) := by
  have own : Tag.Own Sheltered ⟨"a".toList,
      ("href".toList, Link.attributeValue reference.url) :: titleEntries reference.title⟩ :=
    ⟨(mem_forms (map_titleEntries _)).1, List.forall_mem_cons.2
      ⟨sheltered_attributeValue reference.url, sheltered_titleEntries _⟩⟩
  have closing : Complete Sheltered "</a>".toList := complete_tag "/a".toList (by decide)
  have whole := Complete.tag own (content.append closing)
  rw [text_tag, flatMap_assignment_cons, flatMap_titleEntries] at whole
  have opened : Link.anchor text reference = "<a href=\"".toList ++
      Link.attributeValue reference.url ++ "\"".toList ++ Link.titleAttribute reference.title ++
        ">".toList ++ text ++ "</a>".toList := rfl
  rw [opened]
  simpa using whole

theorem complete_image (alt : Text) (reference : Reference) :
    Complete Sheltered (Link.image alt reference) := by
  have own : Tag.Own Sheltered ⟨"img".toList, ("src".toList, Link.attributeValue reference.url) ::
      ("alt".toList, Link.attributeValue alt) :: titleEntries reference.title⟩ :=
    ⟨(mem_forms (map_titleEntries _)).2, List.forall_mem_cons.2
      ⟨sheltered_attributeValue reference.url, List.forall_mem_cons.2
        ⟨sheltered_attributeValue alt, sheltered_titleEntries _⟩⟩⟩
  have whole := Complete.ofTag own
  rw [text_tag, flatMap_assignment_cons, flatMap_assignment_cons, flatMap_titleEntries] at whole
  have opened : Link.image alt reference = "<img src=\"".toList ++
      Link.attributeValue reference.url ++ "\" alt=\"".toList ++ Link.attributeValue alt ++
        "\"".toList ++ Link.titleAttribute reference.title ++ ">".toList := rfl
  rw [opened]
  simpa using whole

end Elements

section Passes

variable {text before after middle part : Text}

/-- What stands before a match is complete, and so is what is drawn for it. -/
theorem Complete.swap (whole : Complete Sheltered (before ++ (middle ++ after)))
    (early : Complete Sheltered before) (drawn : Complete Sheltered part) :
    Complete Sheltered (before ++ (part ++ after)) := by
  rw [← List.append_assoc] at whole
  exact early.append (drawn.append (whole.drop (by decide)))

/-- The delimiters of emphasis hold what no tag holds, and their elements are of inline markup. -/
theorem marks_emphases : ∀ mark ∈ emphases,
    (mark.1 ≠ [] ∧ ∀ c ∈ mark.1, isTagChar c = false ∧ Escape.isProtected c = true) ∧
      (mark.2, []) ∈ forms ∧ ('/' :: mark.2, []) ∈ forms := by
  decide

/-- Brackets and marks of emphasis stand in no tag. -/
theorem Complete.cut_protected {delimiter : Text} (some : delimiter ≠ [])
    (apart : ∀ c ∈ delimiter, isTagChar c = false ∧ Escape.isProtected c = true)
    (whole : Complete Sheltered (before ++ (delimiter ++ after))) :
    Complete Sheltered before ∧ Complete Sheltered after := by
  obtain ⟨c, rest, rfl⟩ := List.exists_cons_of_ne_nil some
  obtain ⟨foreign, guarded⟩ := apart c List.mem_cons_self
  have outside : ¬ Sheltered c := fun sheltered => by
    rw [sheltered.2.2] at guarded
    cases guarded
  have plain : c ≠ '<' := by
    rintro rfl
    exact absurd guarded (by decide)
  refine ⟨(whole.cut foreign outside plain).1, ?_⟩
  rw [← List.append_assoc] at whole
  exact whole.drop (by decide)

theorem complete_flatMap {kind : Char → Prop} {α : Type} {items : List α} {draw : α → Text}
    (each : ∀ item ∈ items, Complete kind (draw item)) : Complete kind (items.flatMap draw) := by
  induction items with
  | nil => exact .nil
  | cons item items ih =>
    obtain ⟨here, others⟩ := List.forall_mem_cons.1 each
    exact here.append (ih others)

theorem complete_codeSpans {kind : Char → Prop} (plain : '<' ∉ text) :
    Complete kind (CodeSpan.render text) := by
  refine complete_flatMap fun segment member => ?_
  cases segment with
  | plain c =>
    refine .char ?_ .nil
    rintro rfl
    refine plain ?_
    rw [← CodeSpan.codeSpan.flatMap_text_segments text]
    exact List.mem_flatMap.2 ⟨_, member, List.mem_singleton_self _⟩
  | found m =>
    have content : Complete kind (Codec.standard.protect (Codec.standard.restore (m.get .code))) :=
      .of_plain (not_mem_protect _)
    exact ((complete_tag "code".toList (by decide)).append content).append
      (complete_tag "/code".toList (by decide))

/-- Where the pattern is found in the text, what stands before the match is complete, and so is what
is drawn for it. -/
def Draws (draw : Text → Reference → Text) (pattern : Pattern Link.Part) (text : Text) : Prop :=
  ∀ m, .found m ∈ pattern.segments text → ∀ before after,
    Complete Sheltered (before ++ (m.text ++ after)) →
      Complete Sheltered before ∧ ∀ reference, Complete Sheltered (draw (m.get .text) reference)

variable {draw : Text → Reference → Text} {pattern : Pattern Link.Part}

theorem Draws.byReference (draws : Draws draw pattern text) (complete : Complete Sheltered text)
    (references : ReferenceTable) :
    Complete Sheltered (pattern.replace (Link.byReference references draw) text) := by
  refine replace_preserves complete fun m member before after whole => ?_
  obtain ⟨early, drawn⟩ := draws m member before after whole
  rw [Link.byReference]
  split
  · next reference _ => exact whole.swap early (drawn reference)
  · exact whole

theorem Draws.byTarget (draws : Draws draw pattern text) (complete : Complete Sheltered text) :
    Complete Sheltered (pattern.replace (Link.byTarget draw) text) := by
  refine replace_preserves complete fun m member before after whole => ?_
  obtain ⟨early, drawn⟩ := draws m member before after whole
  exact whole.swap early (drawn _)

theorem draws_anchor {rest : Pattern Link.Part} {o : Outline Seal Link.Part}
    (regular : (Link.textPart.seq rest).Regular o Renaming.same.face) (judged : o.lead = Seal.lead)
    (spares : rest.Captures Seal.lead fun other _ => other ≠ Link.Part.text) :
    Draws Link.anchor (Link.textPart.seq rest) text := by
  intro m member before after whole
  obtain ⟨_, _, rfl, ⟨more, rfl⟩, same⟩ := exists_frame regular judged (frames_link spares) member
  have brackets : m.text ++ after = "[".toList ++ (m.get .text ++
      ("]".toList ++ (spell Renaming.same.face more ++ after))) := by
    rw [same]
    simp [Glyph.spell]
  rw [brackets] at whole
  obtain ⟨early, later⟩ := whole.cut_protected (by decide) (by decide)
  exact ⟨early, complete_anchor (later.cut_protected (by decide) (by decide)).1⟩

theorem takes_imageOpening : Link.imagePart.Takes Seal.lead fun passed =>
    ∃ more, passed = Glyph.chars "![".toList ++ more :=
  (takes_literal (by decide)).seq (takes_any _) fun _ more same _ => ⟨more, same ▸ rfl⟩

theorem draws_image {rest : Pattern Link.Part} {o : Outline Seal Link.Part}
    (regular : (Link.imagePart.seq rest).Regular o Renaming.same.face)
    (judged : o.lead = Seal.lead) :
    Draws Link.image (Link.imagePart.seq rest) text := by
  intro m member before after whole
  have takes : (Link.imagePart.seq rest).Takes Seal.lead fun passed =>
      ∃ more, passed = Glyph.chars "![".toList ++ more :=
    takes_imageOpening.seq (takes_any _) fun _ later ⟨more, here⟩ _ =>
      ⟨more ++ later, by rw [here, List.append_assoc]⟩
  obtain ⟨_, ⟨more, rfl⟩, same⟩ := exists_shape regular judged takes member
  refine ⟨?_, complete_image (m.get .text)⟩
  have bracket : before ++ (m.text ++ after) = (before ++ ['!']) ++ ("[".toList ++
      (spell Renaming.same.face more ++ after)) := by
    rw [same]
    simp [Glyph.spell]
  rw [bracket] at whole
  exact (whole.cut_protected (by decide) (by decide)).1.dropLast (by decide)

/-- No tag begins as an address in angle brackets does. -/
theorem not_isSchemeStart :
    ∀ form ∈ forms, form.1.head?.any isSchemeStart = false ∧ form.1 ≠ [] := by
  decide

/-- No angle bracket of a complete text begins an address. -/
theorem not_found_autolink (complete : Complete Sheltered text) (m : Match Link.Part) :
    .found m ∉ Link.autolink.segments text := by
  intro member
  obtain ⟨_, ⟨c, rest, rfl, starts⟩, opened⟩ :=
    exists_shape (Link.regular_autolink Renaming.same.quiet) rfl takes_autolink member
  obtain ⟨before, after, whole⟩ := infix_of_mem_segments member
  rw [← whole, List.append_assoc] at complete
  have late := complete.drop (by decide)
  rw [opened] at late
  generalize tail : spell Renaming.same.face (.char '<' :: .char c :: rest) ++ after = shown at late
  cases late with
  | nil => cases tail
  | char plain _ => exact absurd (List.cons.inj tail).1.symm plain
  | @tag tag more own _ =>
    obtain ⟨other, filled⟩ := not_isSchemeStart _ own.form
    obtain ⟨d, name, named⟩ := List.exists_cons_of_ne_nil filled
    dsimp only at named other
    have inner : c :: (spell Renaming.same.face rest ++ after) =
        (tag.name ++ tag.attributes.flatMap assignment ++ ['>']) ++ more := (List.cons.inj tail).2
    rw [named] at inner other
    obtain rfl := (List.cons.inj inner).1
    rw [show isSchemeStart c = false from other] at starts
    cases starts

theorem complete_autolinks (complete : Complete Sheltered text) :
    Complete Sheltered (Link.autolink.replace Link.addressAnchor text) := by
  rwa [replace_eq_self (not_found_autolink complete)]

theorem pairs_complete :
    ∀ mark ∈ emphases, Pairs (Complete Sheltered) mark.1 mark.2 := by
  intro mark member before content after whole
  obtain ⟨⟨filled, apart⟩, opens, closes⟩ := marks_emphases mark member
  obtain ⟨early, later⟩ := whole.cut_protected filled apart
  obtain ⟨inner, late⟩ := later.cut_protected filled apart
  have drawn : Complete Sheltered (element mark.2 content) :=
    ((complete_tag mark.2 opens).append inner).append (complete_tag _ closes)
  exact early.append (drawn.append late)

/-- Every pass but the last ones leaves a complete text with sheltered values. -/
theorem complete_passes (references : ReferenceTable) (plain : '<' ∉ text) :
    Complete Sheltered (Emphasis.render (Link.renderImages references
      (Link.renderLinks references (CodeSpan.render text)))) := by
  have quiet := Renaming.same.quiet
  have codeSpans : Complete Sheltered (CodeSpan.render text) := complete_codeSpans plain
  have referenceLinks := (draws_anchor (Link.regular_referenceLink quiet) rfl (by
      simp [Captures, Link.labelPart, Pattern.sequence, Pattern.char, Pattern.optional]) :
    Draws Link.anchor Link.referenceLink (CodeSpan.render text)).byReference codeSpans references
  have inlineLinks := (draws_anchor (Link.regular_inlineLink quiet) rfl (by
    simp [Captures, Link.target, Link.titlePart, Pattern.sequence, Pattern.char, Pattern.optional,
      Pattern.few1])).byTarget referenceLinks
  have autolinks := complete_autolinks inlineLinks
  have referenceImages :=
    (draws_image (Link.regular_referenceImage quiet) rfl).byReference autolinks references
  have inlineImages := (draws_image (Link.regular_inlineImage quiet) rfl).byTarget referenceImages
  exact emphasis_preserves pairs_complete inlineImages

/-- A character of a finished value. -/
abbrev Quoteless (c : Char) : Prop := c ≠ '"'

theorem breaks_complete : Breaks (Complete Quoteless) := by
  intro count before after whole
  have only : ∀ c ∈ List.replicate (count + 2) ' ' ++ ['\n'], c = ' ' ∨ c = '\n' := by
    simp
  have without : ∀ c, c ≠ ' ' → c ≠ '\n' → c ∉ List.replicate (count + 2) ' ' ++ ['\n'] := by
    intro c other further inside
    exact (only c inside).elim other further
  have drawn : Complete Quoteless (bracketed "br".toList ++ ['\n']) :=
    (complete_tag "br".toList (by decide)).append (.char (by decide) .nil)
  exact .substitute (without _ (by decide) (by decide)) ⟨'\n', by simp, by decide⟩
    (by decide) (without _ (by decide) (by decide)) (without _ (by decide) (by decide)) whole drawn

theorem decodes_complete : Decodes (Complete Quoteless) := by
  intro c member before after whole
  obtain ⟨quote, opens⟩ : c ≠ '"' ∧ c ≠ '<' :=
    (by decide : ∀ d ∈ Escape.alphabet ++ Escape.markers, d ≠ '"' ∧ d ≠ '<') c member
  have closes : '>' ∉ Escape.token c := fun inside => absurd (mem_tokenLetters inside) (by decide)
  have odd : ∃ d ∈ Escape.token c, isTagChar d = false :=
    ⟨Escape.opening, List.mem_cons_self, by decide⟩
  exact .substitute (fun inside => (sheltered_token inside).1 rfl) odd (by simpa using quote)
    (fun inside => (sheltered_token inside).2.1 rfl) closes whole (.char opens .nil)

end Passes

/-- Whatever the labels, addresses and titles of the references, the inline rules put out characters
and complete tags of their own, and no value of an attribute ends early. -/
theorem complete_convert {text : Text} (plain : '<' ∉ text) (references : ReferenceTable) :
    Complete (· ≠ '"') (Inline.convert references text) := by
  have rendered := complete_passes references (not_mem_encodeEscapes (by decide)
    (not_mem_normalize (by decide) (by decide) plain))
  have released := rendered.mono fun _ sheltered => sheltered.1
  exact finish_preserves breaks_complete decodes_complete released

/-- A target that tries to end its attribute and to open a tag. -/
def hostile : ReferenceTable :=
  ⟨[("k".toList, ⟨"/a\"><b>) _c_".toList, some "\" \u000a<i> *d*  \n".toList⟩)]⟩

/-- Links and images by reference, with markup in their texts, and a target that ends in a title. -/
def usages : Text :=
  "*[\x60a\x60 ![b][k]][k] [c](d \"[e][k]) f* ![*g*][k]".toList

theorem complete_convert_usages :
    '<' ∉ usages ∧ Complete (· ≠ '"') (Inline.convert hostile usages) := by
  have plain : '<' ∉ usages := by decide
  exact ⟨plain, complete_convert plain hostile⟩

end Markdown.Markup
