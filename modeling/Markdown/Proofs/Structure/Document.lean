import Markdown.Proofs.Output
import Markdown.Proofs.Structure.Paragraphs

set_option autoImplicit false

namespace Markdown.Structure

open Pattern

variable {kept : Sheet → Prop} {sheet : Sheet}

theorem Clean.angle_not_mem (clean : Clean kept sheet) : Glyph.char '<' ∉ sheet := by
  intro member
  cases clean _ member with
  | char plain => exact plain rfl

section Levels

variable {table : Sheet.Table} (targets : TargetsOf Keyless table)
include targets

/-- What one level renders is nested if what it renders further in is. -/
theorem exists_nest_level {interior : Sheet.Interior} (nests : Nests interior)
    (clean : Clean Keyless sheet) (inList : Bool) :
    (Sheet.level table interior inList sheet).Ensures
      fun result => ∃ w, finished.Weighs result w ∧ Nest .blocks w := by
  have headed := laid_markedHeadings targets (laid_underlinedHeadings targets clean)
  refine (laid_lists nests targets (laid_rules headed) inList).bind fun _ listed => ?_
  refine (laid_quotes nests (laid_codeBlocks listed)).bind fun _ quoted => .pure ?_
  rw [Sheet.htmlBlocks_eq_self quoted.clean.angle_not_mem]
  exact exists_nest_paragraphs targets quoted

theorem nests_interior (limit : Limit) (left : Nat) : Nests (Sheet.interior table limit left) := by
  induction left with
  | zero => exact ⟨fun _ _ => (Draft.Ensures.giveOut _).nested _, fun _ => (Draft.Ensures.giveOut _).nested _⟩
  | succ left ih =>
    refine ⟨fun clean inList => (exists_nest_level targets ih clean inList).nested _, fun clean => ?_⟩
    exact ((laid_lists ih targets (clean.laid true) true).mono fun _ laid => laid.clean).nested _

end Levels

theorem clean_ofDocument {document : Text} (plain : '<' ∉ document) :
    Clean Keyless (Sheet.ofDocument document) := by
  intro g member
  obtain ⟨c, inside, rfl⟩ := List.mem_map.1 member
  rw [Sheet.glyphOf]
  split
  · exact .sealed (.marker .opening)
  · split
    · exact .sealed (.marker .closing)
    · refine .char ?_
      rintro rfl
      rcases Renaming.mem_of_mem_unifyNewlines inside with here | impossible
      · exact plain here
      · exact absurd impossible (by decide)

theorem Clean.encodeEscapes (clean : Clean kept sheet) : Clean kept (Sheet.encodeEscapes sheet) := by
  fun_induction Sheet.encodeEscapes sheet with
  | case1 c rest escapable ih =>
    obtain ⟨_, here, later⟩ : _ ∧ Held kept (.char c) ∧ Clean kept rest :=
      ⟨clean _ List.mem_cons_self, clean _ (List.mem_cons_of_mem _ List.mem_cons_self),
        clean.part fun _ member => List.mem_cons_of_mem _ (List.mem_cons_of_mem _ member)⟩
    cases here with
    | char plain => exact List.forall_mem_cons.2 ⟨.sealed (.token plain), ih later⟩
  | case2 c rest plain ih =>
    obtain ⟨here, later⟩ := List.forall_mem_cons.1 clean
    exact List.forall_mem_cons.2 ⟨here, ih later⟩
  | case3 g rest other ih =>
    obtain ⟨here, later⟩ := List.forall_mem_cons.1 clean
    exact List.forall_mem_cons.2 ⟨here, ih later⟩
  | case4 => exact clean

theorem TargetsOf.record {table : Sheet.Table} (targets : TargetsOf kept table) {label : Sheet}
    {target : Sheet.Target} (url : SealsOf kept target.url)
    (titled : ∀ title ∈ target.title, SealsOf kept title) :
    TargetsOf kept (table.record label target) := by
  rw [Sheet.Table.record]
  split
  · exact targets
  · exact List.forall_mem_append.2 ⟨targets, List.forall_mem_singleton.2 ⟨url, titled⟩⟩

/-- What definitions refer to holds nothing that the document does not hold. -/
theorem targetsOf_extractTable (seals : SealsOf kept sheet) :
    TargetsOf kept (Sheet.extractTable sheet) := by
  rw [Sheet.extractTable]
  have finds : ∀ f ∈ (Definition.definitionLine.pieces Seal.lead sheet).filterMap Piece.find?,
      Definition.definitionLine.Finds Seal.lead sheet f := fun f member =>
    finds_of_mem_pieces (Piece.mem_filterMap_find?.1 member)
  have begun : TargetsOf kept [] := fun _ impossible => absurd impossible List.not_mem_nil
  generalize ([] : Sheet.Table) = table at begun
  generalize (Definition.definitionLine.pieces Seal.lead sheet).filterMap Piece.find? = found at finds
  induction found generalizing table with
  | nil => exact begun
  | cons f found ih =>
    obtain ⟨here, later⟩ := List.forall_mem_cons.1 finds
    have url : SealsOf kept (Sheet.targetOf f).url := seals.part (here.get_infix .url).subset
    have titled : ∀ title ∈ (Sheet.targetOf f).title, SealsOf kept title := by
      intro title given
      obtain ⟨caught, got, rfl⟩ := Option.map_eq_some_iff.1 given
      refine seals.part fun g inside => (here.get?_infix got).subset ?_
      exact List.mem_of_mem_tail (List.dropLast_subset _ inside)
    exact ih _ (begun.record url titled) later

/-- Block structure is well nested: in the output of a document without angle brackets no block
stands in a paragraph, a heading or code, and every list holds items only. -/
theorem nest_blockTags_convert {document html : Text} {limit : Limit} (plain : '<' ∉ document)
    (success : (convert limit document).html = .ok html)
    (apart : (convert limit document).progress.fragments.NoCollision) :
    Nest .blocks (blockTags html) := by
  have keep := Renaming.html_convert
    (Renaming.spares_of_isMarker Renaming.isMarker_char_same document) limit
  rw [Renaming.map_apply_same] at keep
  have drafted := (keep apart).symm.trans success
  have clean := clean_ofDocument plain
  cases done : Sheet.rendered limit document with
  | error _ =>
    rw [done] at drafted
    cases drafted
  | ok sheet =>
    rw [done] at drafted
    obtain rfl := Except.ok.inj drafted
    rw [Sheet.rendered, Sheet.draft, Sheet.htmlBlocks_eq_self clean.angle_not_mem] at done
    have stripped : Clean Keyless (Sheet.withoutDefinitions (Sheet.ofDocument document)) :=
      clean.recast_chars [] (by decide)
    obtain ⟨w, weighs, nest⟩ := (nests_interior (targetsOf_extractTable clean.sealsOf) limit
      limit.capacity).blocks stripped.encodeEscapes false .outermost sheet done
    rw [blockTags_spell weighs]
    exact nest

/-- A heading in front of an item with a quote in it. -/
theorem nest_blockTags_convert_quote :
    ∃ html, '<' ∉ "# a\n- b\n\n  > c".toList ∧
      (convert .standard "# a\n- b\n\n  > c".toList).html = .ok html ∧
      (convert .standard "# a\n- b\n\n  > c".toList).progress.fragments.NoCollision ∧
      blockTags html = ["h1", "/h1", "ul", "li", "p", "/p", "blockquote", "p", "/p", "/blockquote",
        "/li", "/ul"].map String.toList ∧ Nest .blocks (blockTags html) := by
  have plain : '<' ∉ "# a\n- b\n\n  > c".toList := by decide
  obtain ⟨apart, written⟩ :
      (convert .standard "# a\n- b\n\n  > c".toList).progress.fragments.NoCollision ∧
        (convert .standard "# a\n- b\n\n  > c".toList).html.toOption = some ("<h1>a</h1>\n\n<ul>" ++
          "\n<li><p>b</p>\n\n<blockquote>\n<p>c</p>\n</blockquote></li>\n</ul>").toList := by
    decide +kernel
  have success := eq_ok_of_toOption written
  exact ⟨_, plain, success, apart, by decide +kernel, nest_blockTags_convert plain success apart⟩

end Markdown.Structure
