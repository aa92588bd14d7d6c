import Markdown.Proofs.Escaped
import Markdown.Proofs.Markup.Passes
import Markdown.Proofs.Reference.Extraction
import Markdown.Proofs.Reference.Usage

set_option autoImplicit false

namespace Markdown

open Pattern

namespace Definition

def written (label : Text) : Text :=
  '[' :: (label ++ "]: /u".toList)

def target : Reference :=
  ⟨"/u".toList, none⟩

/-- A target without a title goes on to the end of the line, although the first of its characters
would do on its own. -/
theorem exists_leads_target (offset : Nat) (before : Text) (captures : List (Part × Thunk Text)) :
    ∃ stop url, stop.after = [] ∧ Thunk.get url = ['/', 'u'] ∧
      Leads (.sequence [.capture Part.url (.few1 notSpace), .optional (.char '>'),
          .optional (.seq titleGap (.capture .title title)), .many Text.isBlank, .lineEnd])
        ⟨⟨offset, before, ['/', 'u']⟩, captures⟩ ⟨stop, (.url, url) :: captures⟩ := by
  refine ⟨_, _, ?_, ?_, (rfl : List.head? _ = some _)⟩
  · rfl
  · simp only [Thunk.get, Cursor.upTo, Cursor.past]
    rw [Nat.add_assoc, Nat.add_sub_cancel_left]
    rfl

/-- On the last line it is found and recorded with its label as it is written. -/
theorem exists_cuts_written {label : Text} (filled : label ≠ []) (unclosed : ']' ∉ label)
    {offset : Nat} {before : Text}
    (starts : Cursor.atLineStart ⟨offset, before, written label⟩ = true) :
    ∃ found, Cuts ⟨offset, before, written label⟩ [found] [] ∧
      ∀ known, recordMatch known found = Extraction.record known.1 known.2 label target := by
  have inClass : ∀ c ∈ label, (c != ']') = true := fun c inside =>
    bne_iff_ne.2 fun same => unclosed (same ▸ inside)
  have whole : written label = '[' :: (label ++ [']', ':', ' ', '/', 'u']) := rfl
  rw [whole] at starts ⊢
  obtain ⟨stop, url, ended, same, reached⟩ := exists_leads_target _ _ _
  have leads : definition.Leads
      ⟨⟨offset, before, '[' :: (label ++ [']', ':', ' ', '/', 'u'])⟩, []⟩ _ :=
    (leads_place starts).seq ((leads_optional rfl).seq ((leads_char _).seq
      (((leads_many1 filled inClass rfl).capture _).seq (((leads_char _).seq (leads_char _)).seq
        ((@leads_many _ _ _ _ _ _ _ [' '] (by decide) _ rfl).seq ((leads_optional rfl).seq
          reached))))))
  refine ⟨_, .last leads ended, fun known => ?_⟩
  refine congrArg₂ (Extraction.record known.1 known.2) ?_ ?_
  · simp [Match.get, Match.get?, Reading.get?, Cursor.upTo, Thunk.get]
  · simp [reference, Match.get, Match.get?, Reading.get?, same, target]

/-- Below a usage the definition is found and nothing else. -/
theorem extract_bracketed_written {text label : Text} (unclosedText : ']' ∉ text)
    (unclosed : ']' ∉ label) (inLine : '\n' ∉ bracketed text label) (filled : label ≠ []) :
    ReferenceTable.empty.extract (bracketed text label ++ "\n\n".toList ++ written label) =
      ⟨bracketed text label ++ "\n\n".toList, ReferenceTable.empty.define label target, []⟩ := by
  have whole : bracketed text label ++ "\n\n".toList ++ written label =
      bracketed text label ++ '\n' :: ([] ++ '\n' :: written label) := by
    rw [List.append_assoc]
    rfl
  have starts : Cursor.atLineStart ⟨0 + ((bracketed text label).length + 1) + 1,
    '\n' :: '\n' :: ((bracketed text label).reverse ++ []), written label⟩ = true := rfl
  obtain ⟨found, last, recorded⟩ := exists_cuts_written filled unclosed starts
  have cuts : Cuts (.first (bracketed text label ++ '\n' :: ([] ++ '\n' :: written label)))
      [found] (bracketed text label ++ '\n' :: ([] ++ '\n' :: [])) :=
    .of_line inLine (fun _ => bracketed_not_mem_opening unclosedText label _)
      (.of_line List.not_mem_nil (fun _ => newline_not_mem_opening _) last)
  rw [whole, cuts.extract_eq, List.foldl_cons, List.foldl_nil, recorded]
  rfl

end Definition

namespace Codec

/-- What comes of a character stands in the normalized text. -/
theorem mem_normalize_iff {text : Text} (carriage : '\r' ∉ text) {d : Char} :
    d ∈ standard.normalize text ↔
      ∃ c ∈ text, d ∈ if Escape.isMarker c then Escape.token c else [c] := by
  rw [normalize, Sheet.unifyNewlines_eq_self carriage, List.mem_flatMap]
  refine exists_congr fun c => and_congr_right fun _ => ?_
  split
  · next marker => rw [cover_eq (mem_markers_of_isMarker marker)]
  · rfl

end Codec

theorem Text.trimSpace_ne_nil {text : Text} {c : Char} (member : c ∈ text)
    (ink : Unicode.isSpace c = false) : text.trimSpace ≠ [] := by
  intro blank
  obtain ⟨front, back, whole, before, behind⟩ := exists_eq_trimSpace text
  rw [blank, List.append_nil] at whole
  have space : Unicode.isSpace c = true :=
    (List.mem_append.1 (whole ▸ member)).elim (before c) (behind c)
  rw [ink] at space
  cases space

/-- A label that is not blank, stands on one line and holds no bracket, backslash or tick. -/
structure IsPlainLabel (label : Text) : Prop where
  inner : Usage.Inner label
  carriage : '\r' ∉ label
  inked : ∃ c ∈ label, Unicode.isSpace c = false

namespace IsPlainLabel

variable {label : Text} (plain : IsPlainLabel label)
include plain

theorem ne_nil : label ≠ [] := by
  rintro rfl
  obtain ⟨c, impossible, -⟩ := plain.inked
  cases impossible

theorem newline : '\n' ∉ label :=
  fun inside => absurd (plain.inner _ inside).1 (by decide)

theorem unclosed : ']' ∉ label :=
  fun inside => absurd (plain.inner _ inside).1 (by decide)

/-- With its markers hidden it is one, too. -/
theorem normalize : IsPlainLabel (Codec.standard.normalize label) where
  inner := by
    have letters : ∀ d ∈ Markup.tokenLetters,
        Unresolved.isInner d = true ∧ d ≠ '\\' ∧ Unresolved.isTick d = false := by decide
    intro d inside
    obtain ⟨c, member, here⟩ := (Codec.mem_normalize_iff plain.carriage).1 inside
    split at here
    · exact letters d (Markup.mem_tokenLetters here)
    · obtain rfl := List.mem_singleton.1 here
      exact plain.inner d member
  carriage := Markup.not_mem_normalize (by decide) (by decide) plain.carriage
  inked := by
    obtain ⟨c, member, ink⟩ := plain.inked
    by_cases marker : Escape.isMarker c = true
    · refine ⟨Escape.opening, (Codec.mem_normalize_iff plain.carriage).2 ⟨c, member, ?_⟩, by decide⟩
      rw [if_pos marker]
      exact List.mem_cons_self
    · refine ⟨c, (Codec.mem_normalize_iff plain.carriage).2 ⟨c, member, ?_⟩, ink⟩
      rw [if_neg marker]
      exact List.mem_cons_self

end IsPlainLabel

theorem ReferenceTable.lookup_define_empty (label : Text) (reference : Reference) :
    (empty.define label reference).lookup label = some reference := by
  simp [define, empty, contains, lookup]

theorem CodeSpan.render_eq_self {text : Text} (plain : ∀ c ∈ text, isTick c = false) :
    render text = text := by
  refine replace_of_run_eq_none (fun cursor c rest next inside => ?_) _
  simp [codeSpan, Pattern.sequence, notBehind, many1, run, next, plain c inside]

namespace Usage

def usage (label : Text) : Text :=
  bracketed "t".toList label

def link : Text :=
  "<a href=\"/u\">t</a>".toList

theorem inner_t : Inner "t".toList := by
  unfold Inner
  decide

/-- Behind the links by reference there is nothing to be done about the link. -/
theorem finish_link (references : ReferenceTable) :
    Codec.standard.decodeMarkers (Codec.standard.unescape (Codec.standard.unescape
      (Inline.renderBreaks (Emphasis.render (Link.renderImages references
        (Link.autolink.replace Link.addressAnchor
          (Link.inlineLink.replace (Link.byTarget Link.anchor) link))))))) = link := by
  have targets : Link.autolink.replace Link.addressAnchor
      (Link.inlineLink.replace (Link.byTarget Link.anchor) link) = link := by decide +kernel
  have imageless : Link.referenceImage.matches? link = [] := by decide +kernel
  have finished : Codec.standard.decodeMarkers (Codec.standard.unescape (Codec.standard.unescape
      (Inline.renderBreaks (Emphasis.render
        (Link.inlineImage.replace (Link.byTarget Link.image) link))))) = link := by decide +kernel
  rw [targets, Link.renderImages, replace_of_matches?_eq_nil imageless, finished]

section

variable {label : Text} (plain : IsPlainLabel label)
include plain

theorem carriage_not_mem_usage : '\r' ∉ usage label := by
  simp [usage, bracketed, plain.carriage]

theorem newline_not_mem_usage : '\n' ∉ usage label := by
  simp [usage, bracketed, plain.newline]

theorem normalize_usage :
    Codec.standard.normalize (usage label) = usage (Codec.standard.normalize label) := by
  have front : Codec.standard.normalize "[t][".toList = "[t][".toList := by decide
  have back : Codec.standard.normalize "]".toList = "]".toList := by decide
  change Codec.standard.normalize ("[t][".toList ++ (label ++ "]".toList)) = _
  rw [Codec.normalize_append (by decide), Codec.normalize_append plain.carriage, front, back]
  rfl

theorem normalize_written :
    Codec.standard.normalize (Definition.written label) =
      Definition.written (Codec.standard.normalize label) := by
  have front : Codec.standard.normalize "[".toList = "[".toList := by decide
  have back : Codec.standard.normalize "]: /u".toList = "]: /u".toList := by decide
  change Codec.standard.normalize ("[".toList ++ (label ++ "]: /u".toList)) = _
  rw [Codec.normalize_append (by decide), Codec.normalize_append plain.carriage, front, back]
  rfl

/-- A usage whose label is known is a link. -/
theorem convert_usage {references : ReferenceTable}
    (known : references.lookup (Codec.standard.normalize label) = some Definition.target) :
    Inline.convert references (usage label) = link := by
  have named := plain.normalize
  rw [Inline.convert, normalize_usage plain]
  generalize Codec.standard.normalize label = name at named known
  obtain ⟨c, member, ink⟩ := named.inked
  have untouched : ∀ c ∈ usage name, c ≠ '\\' ∧ Unresolved.isTick c = false :=
    plain_of_mem_bracketed inner_t named.inner
  have linked : Link.referenceLink.replace (Link.byReference references Link.anchor) (usage name) =
      Link.anchor "t".toList Definition.target := by
    rw [usage, replace_referenceLink_bracketed (fun c inside => (inner_t c inside).1)
      (fun c inside => (named.inner c inside).1), if_neg, known]
    simpa using Text.trimSpace_ne_nil member ink
  have drawn : Link.anchor "t".toList Definition.target = link := by decide
  rw [Codec.encodeEscapes_eq_self fun inside => (untouched _ inside).1 rfl, Inline.render,
    CodeSpan.render_eq_self fun c inside => (untouched c inside).2, Link.renderLinks, linked, drawn,
    finish_link]

end

end Usage

namespace Usage

def above (label : Text) : Text :=
  usage label ++ "\n\n".toList

def document (label : Text) : Text :=
  above label ++ Definition.written label

variable {label : Text} (plain : IsPlainLabel label)
include plain

theorem normalize_above :
    Codec.standard.normalize (above label) = above (Codec.standard.normalize label) := by
  have gap : Codec.standard.normalize "\n\n".toList = "\n\n".toList := by decide
  rw [above, Codec.normalize_append (carriage_not_mem_usage plain), normalize_usage plain, gap,
    above]

theorem carriage_not_mem_above : '\r' ∉ above label := by
  simp [above, carriage_not_mem_usage plain]

/-- The definition is recorded under the label as it stands in the usage. -/
theorem extract_document :
    ReferenceTable.empty.extract (Codec.standard.normalize (document label)) =
      ⟨Codec.standard.normalize (above label),
        ReferenceTable.empty.define (Codec.standard.normalize label) Definition.target, []⟩ := by
  have named := plain.normalize
  rw [document, Codec.normalize_append (carriage_not_mem_above plain), normalize_above plain,
    normalize_written plain]
  exact Definition.extract_bracketed_written (by decide) named.unclosed
    (newline_not_mem_usage named) named.ne_nil

/-- No block is found in the document, and none in what is left of it. -/
theorem blockless_above {below : Text} (newline : '\n' ∉ below)
    (bracket : below = [] ∨ below.head? = some '[') :
    Sheet.Blockless ((above label ++ below).map Sheet.glyphOf) := by
  have opened : ∀ c ∈ some '[', (Text.isBlank c || isBlockMark c || c == '>') = false := by
    intro c bracket
    rw [← Option.some.inj bracket]
    decide
  have starts : ∀ c ∈ below.head?, (Text.isBlank c || isBlockMark c || c == '>') = false := by
    rcases bracket with rfl | bracket
    · intro c impossible
      cases impossible
    · rw [bracket]
      exact opened
  have lines : ∀ line ∈ [usage label, [], below], '\n' ∉ line ∧
      ∀ c ∈ line.head?, (Text.isBlank c || isBlockMark c || c == '>') = false := by
    simp only [List.forall_mem_cons]
    exact ⟨⟨newline_not_mem_usage plain, opened⟩,
      ⟨List.not_mem_nil, fun _ impossible => by cases impossible⟩, ⟨newline, starts⟩,
      fun _ impossible => by cases impossible⟩
  have whole : above label ++ below = Text.join ['\n'] [usage label, [], below] := by
    simp [above, Text.join]
  rw [whole, Quoting.map_join]
  exact Sheet.blockless_ofLines lines

theorem prepare_document :
    prepare (document label) =
      ⟨Codec.standard.encodeEscapes (Codec.standard.normalize (above label)), .empty,
        ReferenceTable.empty.define (Codec.standard.normalize label) Definition.target, []⟩ := by
  have prints := Renaming.prints_normalize (document label)
  have carriage : '\r' ∉ document label := by
    simp [document, carriage_not_mem_above plain, Definition.written, plain.carriage]
  have newline : '\n' ∉ Definition.written label := by
    simp [Definition.written, plain.newline]
  have blockless := blockless_above plain newline (.inr rfl)
  rw [← document, ← Sheet.ofDocument_eq_map carriage] at blockless
  rw [prepare, prints.protectBlocks_of_absent blockless.htmlBlock]
  dsimp only
  rw [extract_document plain]

/-- There is no escape in a usage. -/
theorem encodeEscapes_ofDocument_usage {below : Text} (carriage : '\r' ∉ below)
    (unescaped : '\\' ∉ below) :
    Sheet.encodeEscapes (Sheet.ofDocument (usage label ++ below)) =
      (usage label ++ below).map Sheet.glyphOf := by
  have inside : '\\' ∉ usage label :=
    fun inside => (plain_of_mem_bracketed inner_t plain.inner _ inside).1 rfl
  rw [Sheet.ofDocument_eq_map (by simp [carriage_not_mem_usage plain, carriage])]
  apply Sheet.encodeEscapes_eq_self
  exact Sheet.char_not_mem_map_glyphOf (by simp [inside, unescaped])

/-- What is left of the document is a paragraph, which shows the usage. -/
theorem spell_paragraphs_above {table : Sheet.Table} {references : ReferenceTable}
    (tables : Renaming.same.PrintsTable [] table references) :
    spell Renaming.same.bare (Sheet.paragraphs table ((above label).map Sheet.glyphOf)) =
      "<p>".toList ++ Inline.convert references (usage label) ++ "</p>".toList := by
  have gap : "\n\n".toList.map Sheet.glyphOf = List.replicate 2 (Glyph.char '\n') :=
    Sheet.map_glyphOf_eq_chars (by decide)
  have newline := Sheet.char_not_mem_map_glyphOf (newline_not_mem_usage plain)
  have first : ((usage label).map Sheet.glyphOf).head? = some (.char '[') :=
    congrArg some (Sheet.glyphOf_of_not_isPrivate (by decide))
  have same := encodeEscapes_ofDocument_usage plain List.not_mem_nil List.not_mem_nil
  rw [List.append_nil] at same
  have keyless := (Renaming.prints_normalize (usage label)).encodeEscapes.keyless
  rw [same] at keyless
  have alone := Sheet.paragraphs_line table 0 2 newline keyless first (by decide)
  rw [List.replicate_zero, List.nil_append] at alone
  rw [above, List.map_append, gap, alone, ← same, Paragraph.spell_finish_element tables]

/-- A label that is written in the same way in its definition and in a usage resolves, provided that
it holds no backslash and no tick. -/
theorem html_convert_document {limit : Limit} (room : limit.Holds 1) :
    (convert limit (document label)).html = .ok ("<p>".toList ++ link ++ "</p>".toList) := by
  have apart : Fragments.Collisionless [] := by simp [Fragments.Collisionless]
  have tables := (Renaming.prints_normalize (document label)).extractTable apart
  rw [extract_document plain] at tables
  have known := ReferenceTable.lookup_define_empty (Codec.standard.normalize label)
    Definition.target
  have prints := (Renaming.prints_normalize (above label)).encodeEscapes
  rw [above, encodeEscapes_ofDocument_usage plain (by decide) (by decide), ← above] at prints
  have blockless := blockless_above plain List.not_mem_nil (.inl rfl)
  rw [List.append_nil] at blockless
  have output := prints.html_render room tables blockless
  rw [spell_paragraphs_above plain tables, convert_usage plain known] at output
  change ((prepare _).render limit).1.map _ = _
  rw [prepare_document plain]
  exact output

end Usage

/-- A label between spaces with a capital and stars. -/
theorem Usage.html_convert_document_k :
    IsPlainLabel " K *1*".toList ∧ (convert .standard (Usage.document " K *1*".toList)).html =
      .ok "<p><a href=\"/u\">t</a></p>".toList := by
  have plain : IsPlainLabel " K *1*".toList :=
    ⟨by unfold Usage.Inner; decide, by decide, 'K', by decide, by decide⟩
  exact ⟨plain, Usage.html_convert_document plain (by decide)⟩

/-- An escape is hidden in the usage and not in the definition, so there the two do not meet. -/
example : (convert .standard "[t][a\\_b]\n\n[a\\_b]: /u".toList).html =
    .ok "<p>[t][a_b]</p>".toList := by
  decide +kernel

end Markdown
