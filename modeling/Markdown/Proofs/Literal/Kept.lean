import Markdown.Proofs.Literal.Margin

set_option autoImplicit false

namespace Markdown

open Pattern

namespace Recasts

variable {slot : Type} {allowed : Find Seal slot → Sheet → Prop} {pieces : List (Piece Seal slot)}
  {result : Sheet}

theorem mem_of_plain {g : Glyph Seal} (recasts : Recasts allowed pieces result)
    (member : .plain g ∈ pieces) : g ∈ result := by
  induction recasts with
  | nil => cases member
  | plain h later ih =>
    rcases List.mem_cons.1 member with same | inside
    · obtain rfl := Piece.plain.inj same
      exact List.mem_cons_self
    · exact List.mem_cons_of_mem _ (ih inside)
  | found here later ih =>
    rcases List.mem_cons.1 member with impossible | inside
    · cases impossible
    · exact List.mem_append_right _ (ih inside)

theorem exists_part {f : Find Seal slot} (recasts : Recasts allowed pieces result)
    (member : .found f ∈ pieces) : ∃ part, allowed f part ∧ part ⊆ result := by
  induction recasts with
  | nil => cases member
  | plain h later ih =>
    rcases List.mem_cons.1 member with impossible | inside
    · cases impossible
    · obtain ⟨part, here, within⟩ := ih inside
      exact ⟨part, here, fun _ inPart => List.mem_cons_of_mem _ (within inPart)⟩
  | @found h part _ _ here later ih =>
    rcases List.mem_cons.1 member with same | inside
    · obtain rfl := Piece.found.inj same
      exact ⟨part, here, List.subset_append_left _ _⟩
    · obtain ⟨more, there, within⟩ := ih inside
      exact ⟨more, there, fun _ inPart => List.mem_append_right _ (within inPart)⟩

end Recasts

namespace Structure

/-- The fragment is under a key of the sheet, and every key stands between blank lines. -/
structure Keeps (strict : Bool) (fragment sheet : Sheet) : Prop where
  isolated : Isolated strict sheet
  mem : Glyph.sealed (.key fragment) ∈ sheet

variable {strict : Bool} {fragment sheet : Sheet}

section Passes

variable {slot : Type} [DecidableEq slot] {pattern : Pattern slot}

/-- A key is a piece of its own, or a match takes it. -/
theorem plain_or_found_of_mem (pattern : Pattern slot)
    (member : Glyph.sealed (.key fragment) ∈ sheet) :
    .plain (.sealed (.key fragment)) ∈ pattern.pieces Seal.lead sheet ∨
      ∃ f, .found f ∈ pattern.pieces Seal.lead sheet ∧ .sealed (.key fragment) ∈ f.glyphs := by
  rw [← pattern.flatMap_glyphs_pieces Seal.lead sheet] at member
  obtain ⟨piece, inside, here⟩ := List.mem_flatMap.1 member
  cases piece with
  | plain g =>
    obtain rfl := List.mem_singleton.1 here
    exact .inl inside
  | found f => exact .inr ⟨f, inside, here⟩

theorem withoutKeys_of_onlyMarkup {f : Find Seal slot} (only : pattern.OnlyMarkup)
    (finds : pattern.Finds Seal.lead sheet f) : WithoutKeys f.glyphs :=
  withoutKeys_of_markup (only.between finds.mem)

theorem plain_mem_of_spares (spares : ∀ f, pattern.Finds Seal.lead sheet f → WithoutKeys f.glyphs)
    (member : Glyph.sealed (.key fragment) ∈ sheet) :
    .plain (.sealed (.key fragment)) ∈ pattern.pieces Seal.lead sheet := by
  rcases plain_or_found_of_mem pattern member with plain | ⟨f, inside, here⟩
  · exact plain
  · exact absurd here (spares f (finds_of_mem_pieces inside) fragment)

variable (keeps : Keeps strict fragment sheet)
  (spares : ∀ f, pattern.Finds Seal.lead sheet f → WithoutKeys f.glyphs)
include keeps spares

theorem Keeps.recast {drawn : Find Seal slot → Sheet}
    (starts : strict = true → AtLine pattern ∧ pattern.Advances Seal.lead) :
    Keeps strict fragment (pattern.recast (fun f => Sheet.keyBlock (drawn f)) sheet) := by
  have recasts : Recasts (fun _ part => ∃ fragment, part = Sheet.keyBlock fragment)
      (pattern.pieces Seal.lead sheet)
      (pattern.recast (fun f => Sheet.keyBlock (drawn f)) sheet) :=
    .of_recast fun f _ => ⟨drawn f, rfl⟩
  have isolated := keeps.isolated
  rw [← pattern.flatMap_glyphs_pieces Seal.lead sheet] at isolated
  refine ⟨isolated.recasts (fun _ _ here => here) recasts fun strictly early f late split => ?_,
    recasts.mem_of_plain (plain_mem_of_spares spares keeps.mem)⟩
  obtain ⟨atLine, advances⟩ := starts strictly
  exact atLine.breaks advances split

theorem Keeps.redraw {drawn : Find Seal slot → Draft Sheet} :
    (pattern.redraw (fun f => do pure (Sheet.keyBlock (← drawn f))) sheet).Ensures
      (Keeps false fragment) := by
  have parts : ∀ f, pattern.Finds Seal.lead sheet f →
      (do pure (Sheet.keyBlock (← drawn f)) : Draft Sheet).Ensures
        fun part => ∃ fragment, part = Sheet.keyBlock fragment :=
    fun f _ => Draft.Ensures.bind (fun _ element _ => (trivial : True)) fun element _ =>
      .pure ⟨element, rfl⟩
  refine (Recasts.of_redraw parts).mono fun result recasts => ?_
  have isolated := keeps.isolated.relax
  rw [← pattern.flatMap_glyphs_pieces Seal.lead sheet] at isolated
  exact ⟨isolated.recasts (fun _ _ here => here) recasts nofun,
    recasts.mem_of_plain (plain_mem_of_spares spares keeps.mem)⟩

end Passes

theorem frames_htmlBlock :
    Html.htmlBlock.Frames Seal.lead .element Sheet.Markup Sheet.Markup := by
  refine .afterPlace _ (.markupBehind (Only.upTo onlyMarkup_space 3)
    (.markupAhead (frames_capture _ _) ((Only.many markup_of_isBlank).seq (.ahead _ _)) ?_))
  simp [Captures, Pattern.sequence]

theorem infix_finish {part sheet : Sheet} (within : part <:+: sheet) :
    Sheet.finish part <:+: Sheet.finish sheet := by
  obtain ⟨before, behind, rfl⟩ := within
  exact ⟨Sheet.finish before, Sheet.finish behind, by simp [Sheet.finish_append]⟩

theorem infix_finish_of_mem {part sheet : Sheet} (member : Glyph.sealed (.key part) ∈ sheet) :
    Sheet.finish part <:+: Sheet.finish sheet := by
  obtain ⟨before, behind, rfl⟩ := List.append_of_mem member
  rw [← Sheet.finish_key part]
  exact infix_finish ⟨before, behind, by simp⟩

theorem Keeps.htmlBlocks (keeps : Keeps strict fragment sheet) :
    ∃ outer, Keeps false outer (Sheet.htmlBlocks sheet) ∧
      Sheet.finish fragment <:+: Sheet.finish outer := by
  have recasts : Recasts (fun f part => part = Sheet.keyBlock (f.get .element))
      (Html.htmlBlock.pieces Seal.lead sheet) (Sheet.htmlBlocks sheet) := .of_recast fun _ _ => rfl
  have isolated := keeps.isolated.relax
  rw [← Html.htmlBlock.flatMap_glyphs_pieces Seal.lead sheet] at isolated
  have laid := isolated.recasts (fun _ _ here => ⟨_, here⟩) recasts nofun
  rcases plain_or_found_of_mem Html.htmlBlock keeps.mem with plain | ⟨f, inside, here⟩
  · exact ⟨fragment, ⟨laid, recasts.mem_of_plain plain⟩, List.infix_refl _⟩
  · obtain ⟨part, rfl, within⟩ := recasts.exists_part inside
    refine ⟨f.get .element, ⟨laid, within (by simp [Sheet.keyBlock])⟩, infix_finish_of_mem ?_⟩
    obtain ⟨front, back, same, before, behind⟩ := frames_htmlBlock.glyphs (finds_of_mem_pieces inside)
    rw [same, List.append_assoc] at here
    rcases List.mem_append.1 here with inFront | here
    · exact absurd inFront (withoutKeys_of_markup before fragment)
    · exact (List.mem_append.1 here).resolve_right (withoutKeys_of_markup behind fragment)

theorem mem_trim_of_key (member : Glyph.sealed (.key fragment) ∈ sheet) :
    Glyph.sealed (.key fragment) ∈ Sheet.trim Text.isNewline sheet := by
  obtain ⟨front, middle, back, whole, same, first, last, -⟩ :=
    Text.exists_eq_trimmed (fun g : Glyph Seal => g.fits Seal.lead Text.isNewline) sheet
  have refused : (Glyph.sealed (.key fragment)).fits Seal.lead Text.isNewline = false := rfl
  have trimmed : Sheet.trim Text.isNewline sheet = middle := same.symm
  rw [trimmed]
  rw [whole] at member
  rcases List.mem_append.1 member with inFront | member
  · exact absurd ((first _ inFront).symm.trans refused) (by decide)
  · rcases List.mem_append.1 member with here | inBack
    · exact here
    · exact absurd ((last _ inBack).symm.trans refused) (by decide)

theorem exists_mem_splitOff {slot : Type} {pieces : List (Piece Seal slot)} {g : Glyph Seal}
    (member : .plain g ∈ pieces) : ∃ part ∈ pieces.foldr Piece.splitOff [[]], g ∈ part := by
  induction pieces with
  | nil => cases member
  | cons piece pieces ih =>
    rw [List.foldr_cons]
    rcases List.mem_cons.1 member with rfl | later
    · cases pieces.foldr Piece.splitOff [[]] with
      | nil => exact ⟨[g], List.mem_cons_self, List.mem_cons_self⟩
      | cons part parts => exact ⟨g :: part, List.mem_cons_self, List.mem_cons_self⟩
    · obtain ⟨part, inside, here⟩ := ih later
      generalize pieces.foldr Piece.splitOff [[]] = parts at inside
      cases piece with
      | found f => exact ⟨part, List.mem_cons_of_mem _ inside, here⟩
      | plain h =>
        cases parts with
        | nil => cases inside
        | cons first parts =>
          rcases List.mem_cons.1 inside with rfl | inside
          · exact ⟨h :: part, List.mem_cons_self, List.mem_cons_of_mem _ here⟩
          · exact ⟨part, List.mem_cons_of_mem _ inside, here⟩

theorem infix_intercalate_of_mem {block : Sheet} {blocks : List Sheet} (member : block ∈ blocks) :
    block <:+: gap.intercalate blocks := by
  induction blocks with
  | nil => cases member
  | cons first blocks ih =>
    cases blocks with
    | nil =>
      obtain rfl := List.mem_singleton.1 member
      simp
    | cons next blocks =>
      rw [List.intercalate_cons_cons]
      rcases List.mem_cons.1 member with rfl | later
      · rw [List.append_assoc]
        exact List.infix_append' [] _ _
      · exact (ih later).trans (List.suffix_append _ _).isInfix

/-- A key between blank lines is a paragraph of its own, and its fragment stands in its place. -/
theorem infix_paragraphs {table : Sheet.Table} (keeps : Keeps false fragment sheet) :
    Sheet.finish fragment <:+: Sheet.paragraphs table sheet := by
  have plain := plain_mem_of_spares
    (fun f finds => withoutKeys_of_onlyMarkup Block.onlyMarkup_blankLines finds)
    (mem_trim_of_key keeps.mem)
  obtain ⟨part, cut, here⟩ := exists_mem_splitOff plain
  obtain ⟨first, others, same, alone, -, rest⟩ := keeps.isolated.spaced.parted.alone
  have single : Alone part := by
    rw [same] at cut
    exact (List.mem_cons.1 cut).elim (fun first => first ▸ alone) (rest part)
  rcases single with without | ⟨other, rfl⟩
  · exact absurd here (without fragment)
  obtain rfl : fragment = other := by simpa using here
  refine infix_finish (infix_intercalate_of_mem (List.mem_filterMap.2 ⟨_, cut, ?_⟩))
  rw [Sheet.paragraph?, trimSpace_key]

section Levels

variable {table : Sheet.Table} {interior : Sheet.Interior}

theorem keeps_headings (keeps : Keeps true fragment sheet) :
    Keeps true fragment (Sheet.markedHeadings table (Sheet.underlinedHeadings table sheet)) := by
  have underlined : Keeps true fragment (Sheet.underlinedHeadings table sheet) :=
    keeps.recast (fun _ => withoutKeys_underlined keeps.isolated) fun _ =>
      ⟨atLine_lineStart _, (Heading.regular_underlined Renaming.same.quiet).advances⟩
  exact underlined.recast (fun _ => withoutKeys_marked underlined.isolated) fun _ =>
    ⟨atLine_lineStart _, (Heading.regular_marked Renaming.same.quiet).advances⟩

theorem keeps_rules (keeps : Keeps true fragment sheet) : Keeps true fragment (Sheet.rules sheet) :=
  keeps.recast (fun _ => withoutKeys_of_onlyMarkup Heading.onlyMarkup_rule) fun _ =>
    ⟨atLine_lineStart _, (Heading.regular_rule Renaming.same.quiet).advances⟩

theorem keeps_lists (keeps : Keeps true fragment sheet) (inList : Bool) :
    (Sheet.lists table interior inList sheet).Ensures (Keeps false fragment) := by
  cases inList with
  | false =>
    exact keeps.redraw fun _ => withoutKeys_list keeps.isolated
      (Only.either (.place _) (Only.seq (.place _) (Only.optional onlyMarkup_newline)))
  | true => exact keeps.redraw fun _ => withoutKeys_list keeps.isolated (.place _)

theorem keeps_codeBlocks (keeps : Keeps false fragment sheet) :
    Keeps false fragment (Sheet.codeBlocks sheet) :=
  keeps.recast (fun _ => withoutKeys_codeBlock keeps.isolated) nofun

theorem keeps_quotes (keeps : Keeps false fragment sheet) :
    (Sheet.quotes interior sheet).Ensures (Keeps false fragment) :=
  keeps.redraw fun _ => withoutKeys_quote keeps.isolated

/-- No pass over the blocks of a level loses a key. -/
theorem infix_level (keeps : Keeps true fragment sheet) (inList : Bool) :
    (Sheet.level table interior inList sheet).Ensures
      fun result => Sheet.finish fragment <:+: result := by
  have headed := keeps_rules (@keeps_headings fragment sheet table keeps)
  refine (keeps_lists headed inList).bind fun _ listed => ?_
  refine (keeps_quotes (keeps_codeBlocks listed)).bind fun _ quoted => .pure ?_
  obtain ⟨outer, around, within⟩ := quoted.htmlBlocks
  exact within.trans (infix_paragraphs around)

theorem infix_blocks (limit : Limit) (left : Nat) (keeps : Keeps true fragment sheet)
    (inList : Bool) : ((Sheet.interior table limit left).blocks inList sheet).Ensures
      fun result => Sheet.finish fragment <:+: result := by
  cases left with
  | zero => exact (Draft.Ensures.giveOut _).nested _
  | succ left => exact (infix_level keeps inList).nested _

end Levels

theorem finished_ofDocument (document : Text) : ∀ g ∈ Sheet.ofDocument document, g.Finished := by
  refine List.forall_mem_map.2 fun c _ => ?_
  rw [Sheet.glyphOf]
  split
  · exact .marker .opening
  · split
    · exact .marker .closing
    · exact .char c

theorem withoutKeys_ofDocument (document : Text) : WithoutKeys (Sheet.ofDocument document) := by
  intro fragment member
  cases finished_ofDocument document _ member

theorem mem_htmlBlocks {f : Find Seal Html.Part}
    (member : .found f ∈ Html.htmlBlock.pieces Seal.lead sheet) :
    Glyph.sealed (.key (f.get .element)) ∈ Sheet.htmlBlocks sheet := by
  have recasts : Recasts (fun f part => part = Sheet.keyBlock (f.get .element))
      (Html.htmlBlock.pieces Seal.lead sheet) (Sheet.htmlBlocks sheet) := .of_recast fun _ _ => rfl
  obtain ⟨_, rfl, within⟩ := recasts.exists_part member
  exact within (by simp [Sheet.keyBlock])

theorem mem_withoutDefinitions (member : Glyph.sealed (.key fragment) ∈ sheet)
    (free : ∀ f, .found f ∈ Definition.definitionLine.pieces Seal.lead sheet →
      .sealed (.key fragment) ∉ f.glyphs) :
    Glyph.sealed (.key fragment) ∈ Sheet.withoutDefinitions sheet := by
  have recasts : Recasts (fun _ part => part = []) (Definition.definitionLine.pieces Seal.lead sheet)
      (Sheet.withoutDefinitions sheet) := .of_recast fun _ _ => rfl
  rcases plain_or_found_of_mem Definition.definitionLine member with plain | ⟨f, inside, here⟩
  · exact recasts.mem_of_plain plain
  · exact absurd here (free f inside)

/-- Definitions without the key in them leave the key where it is when they are taken out. -/
theorem mem_withoutDefinitions_of_spell (member : Glyph.sealed (.key fragment) ∈ sheet)
    (free : ∀ found ∈ Definition.definitionLine.matches? (spell Renaming.same.face sheet),
      ¬ Fragments.key (spell Renaming.same.face fragment) <:+: found.text) :
    Glyph.sealed (.key fragment) ∈ Sheet.withoutDefinitions sheet := by
  have regular := Renaming.regular_definitionLine Renaming.same
  refine mem_withoutDefinitions member fun f inside here => free _ (read_mem_matches? regular inside) ?_
  obtain ⟨before, behind, whole⟩ := List.append_of_mem here
  rw [(finds_of_mem_pieces inside).text_read, whole, spell_append, spell_cons, Glyph.spell, Renaming.face_key]
  exact List.infix_append' _ _ _

theorem mem_encodeEscapes (member : Glyph.sealed (.key fragment) ∈ sheet) :
    Glyph.sealed (.key fragment) ∈ Sheet.encodeEscapes sheet := by
  obtain ⟨front, back, rfl⟩ := List.append_of_mem member
  rw [Sheet.encodeEscapes_append (by rintro c more same; cases same)]
  have here : Sheet.encodeEscapes (.sealed (.key fragment) :: back) =
      .sealed (.key fragment) :: Sheet.encodeEscapes back := by
    rw [Sheet.encodeEscapes]
    rintro c more same
    cases same
  rw [here]
  simp

/-- What is left under its key when the definitions are taken out stands in the output. -/
theorem infix_rendered {limit : Limit} {document : Text} {result : Sheet}
    (left : Glyph.sealed (.key fragment) ∈
      Sheet.withoutDefinitions (Sheet.htmlBlocks (Sheet.ofDocument document)))
    (done : Sheet.rendered limit document = .ok result) : Sheet.finish fragment <:+: result := by
  have setOff := (setOff_htmlBlocks (withoutKeys_ofDocument document)).withoutDefinitions
  exact infix_blocks limit limit.capacity ⟨setOff.encodeEscapes.isolated, mem_encodeEscapes left⟩
    false .outermost result done

end Structure

namespace Html

theorem mem_history_of_foldl {finds : List (Find Seal Part)} {written : Find Seal Part → Text}
    {fragments : Fragments} {fragment : Text}
    (held : fragment ∈ (finds.foldl (fun fragments f => fragments.insert (written f))
      fragments).history) : fragment ∈ fragments.history ∨ ∃ f ∈ finds, fragment = written f := by
  induction finds generalizing fragments with
  | nil => exact .inl held
  | cons f finds ih =>
    rcases ih held with before | ⟨g, inside, same⟩
    · rcases List.mem_cons.1 before with here | before
      · exact .inr ⟨f, List.mem_cons_self, here⟩
      · exact .inl before
    · exact .inr ⟨g, List.mem_cons_of_mem _ inside, same⟩

/-- What is put aside first as literal HTML comes out as it was written, unless its key is in a
definition. -/
theorem infix_convert {document html fragment : Text} {limit : Limit}
    (held : fragment ∈ (prepare document).fragments.history)
    (free : ∀ found ∈ Definition.definitionLine.matches?
        (protectBlocks (Codec.standard.normalize document) .empty).1,
      ¬ Fragments.key fragment <:+: found.text)
    (success : (convert limit document).html = .ok html)
    (apart : (convert limit document).progress.fragments.NoCollision) :
    Codec.standard.decodeMarkers fragment <:+: html := by
  have prints := Renaming.prints_normalize document
  have aside := protectBlocks_spell Renaming.same (Sheet.ofDocument document) .empty
  rw [prints.spelled] at aside
  change fragment ∈ (protectBlocks (Codec.standard.normalize document) .empty).2.history at held
  rw [aside] at held free
  obtain ⟨f, member, rfl⟩ := (mem_history_of_foldl held).resolve_left List.not_mem_nil
  have inside := Piece.mem_filterMap_find?.1 member
  have left : Glyph.sealed (.key (f.get .element)) ∈
      Sheet.withoutDefinitions (Sheet.htmlBlocks (Sheet.ofDocument document)) :=
    Structure.mem_withoutDefinitions_of_spell (Structure.mem_htmlBlocks inside) free
  have keep := Renaming.html_convert
    (Renaming.spares_of_isMarker Renaming.isMarker_char_same document) limit
  rw [Renaming.map_apply_same] at keep
  have drafted := (keep apart).symm.trans success
  cases done : Sheet.rendered limit document with
  | error _ =>
    rw [done] at drafted
    cases drafted
  | ok sheet =>
    rw [done] at drafted
    obtain rfl := Except.ok.inj drafted
    have finds := finds_of_mem_pieces inside
    have element := (finds.get_infix .element).subset
    have finished : ∀ g ∈ f.get .element, g.Finished := fun g member =>
      Structure.finished_ofDocument document g (element member)
    obtain ⟨before, behind, rfl⟩ := Structure.infix_rendered left done
    rw [(prints.part element).decodeMarkers finished, Sheet.finish_of_finished finished,
      spell_append, spell_append]
    exact ⟨_, _, rfl⟩

/-- One element between two lines. -/
theorem infix_convert_element :
    "<div>*</div>".toList ∈ (prepare "a\n\n<div>*</div>\n\nb".toList).fragments.history ∧
      ∃ html, (convert .standard "a\n\n<div>*</div>\n\nb".toList).html = .ok html ∧
        (convert .standard "a\n\n<div>*</div>\n\nb".toList).progress.fragments.NoCollision ∧
        Codec.standard.decodeMarkers "<div>*</div>".toList <:+: html := by
  obtain ⟨held, free, written, apart⟩ :
      "<div>*</div>".toList ∈ (prepare "a\n\n<div>*</div>\n\nb".toList).fragments.history ∧
        (∀ found ∈ Definition.definitionLine.matches? (protectBlocks
            (Codec.standard.normalize "a\n\n<div>*</div>\n\nb".toList) .empty).1,
          ¬ Fragments.key "<div>*</div>".toList <:+: found.text) ∧
        (convert .standard "a\n\n<div>*</div>\n\nb".toList).html.toOption =
          some "<p>a</p>\n\n<div>*</div>\n\n<p>b</p>".toList ∧
        (convert .standard "a\n\n<div>*</div>\n\nb".toList).progress.fragments.NoCollision := by
    decide +kernel
  exact ⟨held, _, eq_ok_of_toOption written, apart,
    infix_convert held free (eq_ok_of_toOption written) apart⟩

/-- A label may hold a blank line, and with it an element that no output shows. -/
example : (convert .standard "[a\n<div>x</div>\n\nb]: /u".toList).html.toOption = some [] := by
  decide +kernel

end Html

end Markdown
