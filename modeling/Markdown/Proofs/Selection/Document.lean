import Markdown.Proofs.Output
import Markdown.Proofs.Selection.Block

set_option autoImplicit false

namespace Markdown.Selection

variable {sheet : Sheet} {w : Text}

/-- The parts between matches of markup weigh what the whole does. -/
theorem Holds.exists_divide {slot : Type} [DecidableEq slot] {pattern : Pattern slot}
    (only : pattern.OnlyMarkup) (holds : Holds w sheet) :
    ∃ weights, List.Forall₂ Holds weights (pattern.divide sheet) ∧ weights.flatten = w := by
  have marks : ∀ f, .found f ∈ pattern.pieces Seal.lead sheet → Sheet.Markup f.glyphs :=
    fun f member => only.between (Pattern.finds_of_mem_pieces member).mem
  rw [← pattern.flatMap_glyphs_pieces Seal.lead sheet] at holds
  rw [Pattern.divide]
  generalize pattern.pieces Seal.lead sheet = pieces at holds marks
  induction pieces generalizing w with
  | nil =>
    obtain rfl : w = [] := eq_nil_of_markup (by simp [Sheet.Markup]) holds.weighs
    exact ⟨[[]], .cons holds .nil, rfl⟩
  | cons piece rest ih =>
    rw [List.flatMap_cons, ← List.nil_append (piece.glyphs ++ _), ← List.append_assoc] at holds
    obtain ⟨u, v, x, nothing, here, later, rfl⟩ := holds.exists_part
    obtain rfl : u = [] := eq_nil_of_markup (by simp [Sheet.Markup]) nothing
    obtain ⟨weights, parts, rfl⟩ := ih
      ⟨holds.clear.part (List.subset_append_right _ _), later⟩
      fun f member => marks f (List.mem_cons_of_mem _ member)
    rw [List.foldr_cons]
    cases piece with
    | found f =>
      obtain rfl : v = [] := eq_nil_of_markup (marks f List.mem_cons_self) here.weighs
      exact ⟨[] :: weights, .cons (holds_of_markup (by simp [Sheet.Markup])) parts, rfl⟩
    | plain g =>
      generalize rest.foldr Piece.splitOff [[]] = others at parts
      cases parts with
      | nil => exact ⟨[v], .cons here .nil, by simp⟩
      | @cons x part weights others first more =>
        refine ⟨(v ++ x) :: weights, .cons ⟨here.clear.append first.clear,
          here.weighs.append first.weighs⟩ more, by simp⟩

/-- A piece between blank lines comes to what counts in it. -/
theorem weighs_paragraph? (table : Sheet.Table) (holds : Holds w sheet) :
    (∀ part, Sheet.paragraph? table sheet = some part → finished.Weighs (Sheet.finish part) w) ∧
      (Sheet.paragraph? table sheet = none → w = []) := by
  have trimmed := holds.trim fun _ space => space
  change Holds w (Sheet.trimSpace sheet) at trimmed
  rw [Sheet.paragraph?]
  split
  · next empty =>
    rw [empty] at trimmed
    refine ⟨fun part impossible => (by cases impossible), fun _ => ?_⟩
    exact eq_nil_of_markup (by simp [Sheet.Markup]) trimmed.weighs
  · next fragment alone =>
    refine ⟨fun part same => ?_, fun impossible => by cases impossible⟩
    obtain rfl := Option.some.inj same
    rw [alone] at trimmed
    rw [← Sheet.finish_key]
    exact finish trimmed.weighs
  · refine ⟨fun part same => ?_, fun impossible => by cases impossible⟩
    obtain rfl := Option.some.inj same
    exact finish (@weighs_element "p".toList "/p".toList _ _ (by decide) (by decide)
      (weighs_inline table holds))

theorem exists_filterMap (table : Sheet.Table) {weights : List Text} {pieces : List Sheet}
    (parts : List.Forall₂ Holds weights pieces) :
    ∃ others, List.Forall₂ (fun w part => finished.Weighs (Sheet.finish part) w) others
      (pieces.filterMap (Sheet.paragraph? table)) ∧ others.flatten = weights.flatten := by
  induction parts with
  | nil => exact ⟨[], .nil, rfl⟩
  | cons here _ ih =>
    obtain ⟨others, later, same⟩ := ih
    obtain ⟨drawn, left⟩ := weighs_paragraph? table here
    rw [List.filterMap_cons]
    split
    · next nothing =>
      rw [left nothing]
      exact ⟨others, later, by simpa using same⟩
    · next part found => exact ⟨_ :: others, .cons (drawn part found) later, by simp [same]⟩

theorem weighs_intercalate {weights : List Text} {parts : List Sheet} {separator : Sheet}
    (markup : separator.Markup)
    (all : List.Forall₂ (fun w part => finished.Weighs (Sheet.finish part) w) weights parts) :
    finished.Weighs (Sheet.finish (separator.intercalate parts)) weights.flatten := by
  have gap : finished.Weighs (Sheet.finish separator) [] := finish (holds_of_markup markup).weighs
  induction all with
  | nil => exact .nil
  | @cons w part weights parts here rest ih =>
    cases rest with
    | nil => simpa using here
    | @cons v next weights parts there more =>
      rw [List.intercalate_cons_cons, Sheet.finish_append, Sheet.finish_append,
        List.flatten_cons]
      simpa using here.append (gap.append ih)

theorem weighs_paragraphs (table : Sheet.Table) (holds : Holds w sheet) :
    finished.Weighs (Sheet.paragraphs table sheet) w := by
  have trimmed := holds.trim fun _ => isSpace_of_isNewline
  obtain ⟨weights, parts, rfl⟩ := trimmed.exists_divide Block.onlyMarkup_blankLines
  obtain ⟨others, drawn, same⟩ := exists_filterMap table parts
  rw [← same]
  exact weighs_intercalate (markup_newlines 2) drawn

theorem weighs_level {interior : Sheet.Interior} (keeps : Keeps interior) (table : Sheet.Table)
    (holds : Holds w sheet) (inList : Bool) :
    (Sheet.level table interior inList sheet).Ensures fun result => finished.Weighs result w := by
  have headed := (holds.underlinedHeadings table).markedHeadings table
  refine (holds_lists keeps headed.rules inList).bind fun _ listed => ?_
  refine (holds_quotes keeps listed.codeBlocks).bind fun _ quoted => .pure ?_
  rw [Sheet.htmlBlocks_eq_self quoted.clear.angle_not_mem]
  exact weighs_paragraphs table quoted

theorem keeps_interior (table : Sheet.Table) (limit : Limit) (left : Nat) :
    Keeps (Sheet.interior table limit left) := by
  induction left with
  | zero => exact ⟨fun _ _ => (Draft.Ensures.giveOut _).nested _, fun _ => (Draft.Ensures.giveOut _).nested _⟩
  | succ left ih =>
    refine ⟨fun holds inList => ?_, fun holds => (holds_lists ih holds true).nested _⟩
    exact ((weighs_level ih table holds inList).mono fun _ => weighs_of_finished).nested _

theorem weighs_blocks (table : Sheet.Table) (limit : Limit) (left : Nat) (inList : Bool)
    (holds : Holds w sheet) :
    ((Sheet.interior table limit left).blocks inList sheet).Ensures
      fun result => finished.Weighs result w := by
  cases left with
  | zero => exact (Draft.Ensures.giveOut _).nested _
  | succ left => exact (weighs_level (keeps_interior table limit left) table holds inList).nested _

theorem select_unifyNewlines (text : Text) : select text.unifyNewlines = select text := by
  fun_induction Text.unifyNewlines text with
  | case1 => rfl
  | case2 rest ih =>
    change select ([_] ++ _) = select ([_, _] ++ _)
    rw [select_append, select_append, ih]
    rfl
  | case3 c rest other ih =>
    change select ([_] ++ _) = select ([_] ++ _)
    rw [select_append, select_append, ih]
    split
    · next carriage =>
      rw [carriage]
      rfl
    · rfl

theorem weighs_glyphOf {c : Char} (plain : isReserved c = false) :
    scale.Weighs [Sheet.glyphOf c] (select [c]) := by
  rw [Sheet.glyphOf]
  split
  · next opens =>
    rw [opens]
    exact .ofSeal (Hidden.marker .opening)
  · split
    · next closes =>
      rw [closes]
      exact .ofSeal (Hidden.marker .closing)
    · exact weighs_char plain

theorem holds_map_glyphOf {text : Text} (plain : ∀ c ∈ text, isReserved c = false) :
    Holds (select text) (text.map Sheet.glyphOf) := by
  induction text with
  | nil => exact holds_of_markup (by simp [Sheet.Markup])
  | cons c rest ih =>
    obtain ⟨here, others⟩ := List.forall_mem_cons.1 plain
    have later := ih others
    refine ⟨fun d member => ?_, ?_⟩
    · rcases List.mem_cons.1 member with first | inside
      · rw [Sheet.glyphOf] at first
        split at first
        · cases first
        · split at first
          · cases first
          · rw [Glyph.char.inj first]
            exact here
      · exact later.clear d inside
    · have whole := (weighs_glyphOf here).append later.weighs
      rwa [← select_append] at whole

theorem isReserved_of_mem_unifyNewlines {text : Text} (plain : ∀ c ∈ text, isReserved c = false) :
    ∀ c ∈ text.unifyNewlines, isReserved c = false := by
  intro c member
  rcases Renaming.mem_of_mem_unifyNewlines member with inside | rfl
  · exact plain c inside
  · decide

theorem holds_ofDocument {document : Text} (plain : ∀ c ∈ document, isReserved c = false) :
    Holds (select document) (Sheet.ofDocument document) := by
  have unified := holds_map_glyphOf (isReserved_of_mem_unifyNewlines plain)
  rwa [select_unifyNewlines] at unified

theorem eq_select_of_weighs {c : Char} (plain : isReserved c = false)
    (weighs : scale.Weighs [.char c] w) : w = select [c] := by
  generalize whole : [Glyph.char c] = sheet at weighs
  cases weighs with
  | nil => cases whole
  | sealed here later => cases (List.cons.inj whole).1
  | text here later =>
    cases here with
    | char opens escapes =>
      obtain ⟨first, rfl⟩ := List.cons.inj whole
      obtain rfl := Glyph.char.inj first
      rw [eq_nil_of_markup (by simp [Sheet.Markup]) later, List.append_nil]
    | tag named =>
      obtain rfl := Glyph.char.inj (List.cons.inj whole).1
      cases plain
    | angle =>
      obtain rfl := Glyph.char.inj (List.cons.inj whole).1
      cases plain

theorem Holds.exists_cons {g : Glyph Seal} {rest : Sheet} (holds : Holds w (g :: rest)) :
    ∃ u v, Holds u [g] ∧ Holds v rest ∧ u ++ v = w := by
  have whole : Holds w ([] ++ [g] ++ rest) := holds
  obtain ⟨t, u, v, nothing, here, later, rfl⟩ := whole.exists_part
  obtain rfl : t = [] := eq_nil_of_markup (by simp [Sheet.Markup]) nothing
  exact ⟨u, v, here, ⟨holds.clear.part (List.subset_cons_self _ _), later⟩, rfl⟩

/-- An escape keeps its character, and the backslash does not count. -/
theorem Holds.encodeEscapes (holds : Holds w sheet) : Holds w (Sheet.encodeEscapes sheet) := by
  fun_induction Sheet.encodeEscapes sheet generalizing w with
  | case1 c rest escapable ih =>
    obtain ⟨u, _, backslash, behind, rfl⟩ := holds.exists_cons
    obtain ⟨v, x, here, later, rfl⟩ := behind.exists_cons
    have plain := here.clear c List.mem_cons_self
    obtain rfl := eq_select_of_weighs (by decide) backslash.weighs
    obtain rfl := eq_select_of_weighs plain here.weighs
    rw [select_of_not_counts (c := '\\') (by decide), List.nil_append]
    have rest := ih later
    refine ⟨fun d member => rest.clear d ?_, (weighs_token plain).append rest.weighs⟩
    exact (List.mem_cons.1 member).resolve_left fun same => by cases same
  | case2 c rest plain ih =>
    obtain ⟨u, v, backslash, behind, rfl⟩ := holds.exists_cons
    have rest := ih behind
    exact ⟨backslash.clear.append rest.clear, backslash.weighs.append rest.weighs⟩
  | case3 g rest other ih =>
    obtain ⟨u, v, here, behind, rfl⟩ := holds.exists_cons
    have rest := ih behind
    exact ⟨here.clear.append rest.clear, here.weighs.append rest.weighs⟩
  | case4 => exact holds

/-- Without square brackets nothing is defined. -/
theorem withoutDefinitions_eq_self (none : Glyph.char '[' ∉ sheet) :
    Sheet.withoutDefinitions sheet = sheet := by
  have takes : Definition.definition.Takes Seal.lead (Glyph.char '[' ∈ ·) :=
    .memSecond _ (.memSecond _ ((Pattern.takes_mem_char (by decide)).memFirst _))
  exact Pattern.recast_eq_self (Pattern.not_finds_of_not_mem (takes.memFirst _) none) _

/-- What counts in the output is what counts in the document. -/
theorem select_shown_convert {document html : Text} {limit : Limit}
    (plain : ∀ c ∈ document, isReserved c = false)
    (success : (convert limit document).html = .ok html)
    (apart : (convert limit document).progress.fragments.NoCollision) :
    select (shown false html) = select document := by
  have keep := Renaming.html_convert
    (Renaming.spares_of_isMarker Renaming.isMarker_char_same document) limit
  rw [Renaming.map_apply_same] at keep
  have drafted := (keep apart).symm.trans success
  have holds := holds_ofDocument plain
  have bare : Sheet.htmlBlocks (Sheet.ofDocument document) = Sheet.ofDocument document :=
    Sheet.htmlBlocks_eq_self holds.clear.angle_not_mem
  cases done : Sheet.rendered limit document with
  | error _ =>
    rw [done] at drafted
    cases drafted
  | ok sheet =>
    rw [done] at drafted
    obtain rfl := Except.ok.inj drafted
    refine select_shown ?_
    rw [Sheet.rendered, Sheet.draft, bare,
      withoutDefinitions_eq_self holds.clear.bracket_not_mem] at done
    exact weighs_blocks _ limit limit.capacity false holds.encodeEscapes .outermost sheet done

/-- A quote in an item, with an escape and a bare angle bracket. -/
theorem select_shown_convert_quote :
    ∃ html, (∀ c ∈ "- a\n\n  > \\*b>c".toList, isReserved c = false) ∧
      (convert .standard "- a\n\n  > \\*b>c".toList).html = .ok html ∧
      (convert .standard "- a\n\n  > \\*b>c".toList).progress.fragments.NoCollision ∧
      select "- a\n\n  > \\*b>c".toList = "abc".toList ∧
      select (shown false html) = select "- a\n\n  > \\*b>c".toList := by
  have plain : ∀ c ∈ "- a\n\n  > \\*b>c".toList, isReserved c = false := by decide
  obtain ⟨apart, written⟩ :
      (convert .standard "- a\n\n  > \\*b>c".toList).progress.fragments.NoCollision ∧
        (convert .standard "- a\n\n  > \\*b>c".toList).html.toOption = some ("<ul>\n<li>" ++
          "<p>a</p>\n\n<blockquote>\n<p>*b>c</p>\n</blockquote></li>\n</ul>").toList := by
    decide +kernel
  have success := eq_ok_of_toOption written
  exact ⟨_, plain, success, apart, by decide +kernel, select_shown_convert plain success apart⟩

end Markdown.Selection
