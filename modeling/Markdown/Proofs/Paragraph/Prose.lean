import Markdown.Proofs.Paragraph.BlankLines
import Markdown.Proofs.Quoting.Document

set_option autoImplicit false

namespace Markdown

open Pattern

theorem isBlank_of_ink {c : Char} (ink : Unicode.isSpace c = false) : Text.isBlank c = false := by
  refine Bool.eq_false_iff.2 fun blank => ?_
  rcases (show c = ' ' ∨ c = '\t' by simpa [Text.isBlank] using blank) with rfl | rfl <;>
    exact absurd ink (by decide)

namespace Sheet

variable {line rest : Sheet}

theorem Marked.of_line {marks : Char → Bool} (apart : marks '\n' = false)
    (ends : rest = [] ∨ ∃ tail, rest = .char '\n' :: tail) (marked : Marked marks (line ++ rest)) :
    Marked marks line := by
  induction line with
  | nil =>
    rcases ends with rfl | ⟨tail, rfl⟩
    · exact marked
    · rcases marked with ⟨c, same, here⟩ | ⟨⟨c, same, here⟩, _⟩
      · rw [← Glyph.char.inj same, apart] at here
        cases here
      · rw [← Glyph.char.inj same] at here
        exact absurd here (by decide)
  | cons g line ih => exact marked.imp_right fun later => ⟨later.1, ih later.2⟩

theorem prefix_of_line {front : Sheet} (inside : Glyph.char '\n' ∉ front)
    (ends : rest = [] ∨ ∃ tail, rest = .char '\n' :: tail) (here : front <+: line ++ rest) :
    front <+: line := by
  rcases List.prefix_or_prefix_of_prefix here (List.prefix_append line rest) with
    within | ⟨more, rfl⟩
  · exact within
  · rw [List.prefix_append_right_inj] at here
    cases more with
    | nil => simp
    | cons g more =>
      rcases ends with rfl | ⟨tail, rfl⟩
      · cases List.prefix_nil.1 here
      · rw [(List.cons_prefix_cons.1 here).1] at inside
        simp at inside

theorem OpensBlock.of_line (ends : rest = [] ∨ ∃ tail, rest = .char '\n' :: tail)
    (opens : OpensBlock (line ++ rest)) : OpensBlock line :=
  opens.imp (·.of_line (by decide) ends)
    (.imp (prefix_of_line (by simp) ends) (prefix_of_line (by simp) ends))

theorem LeadsBlock.of_line (ends : rest = [] ∨ ∃ tail, rest = .char '\n' :: tail)
    (leads : LeadsBlock (line ++ rest)) : LeadsBlock line :=
  leads.imp (·.of_line (by decide) ends)
    (.imp (prefix_of_line (by simp) ends) (prefix_of_line (by simp) ends))

/-- What is told from a line alone is avoided by a sheet if each of its lines avoids it. -/
theorem avoids_ofLines {shape : Sheet → Prop} (filled : ¬ shape [])
    (ofLine : ∀ line rest : Sheet, (rest = [] ∨ ∃ tail, rest = .char '\n' :: tail) →
      shape (line ++ rest) → shape line)
    {lines : List Sheet} (each : ∀ line ∈ lines, Glyph.char '\n' ∉ line)
    (plain : ∀ line ∈ lines, ¬ shape line) : (ofLines lines).Avoids shape := by
  intro early late whole starts here
  rw [StartsLine, List.head?_reverse] at starts
  obtain ⟨line, member, rest, rfl, ends⟩ :=
    exists_line_of_startsLine each whole starts fun none => filled (none ▸ here)
  exact plain line member (ofLine line rest ends here)

/-- Where no line begins with a blank or with the mark of a block there are no blocks. -/
theorem blockless_ofLines {lines : List Text} (each : ∀ line ∈ lines, '\n' ∉ line ∧
      ∀ c ∈ line.head?, (Text.isBlank c || isBlockMark c || c == '>') = false) :
    (ofLines (lines.map (·.map glyphOf))).Blockless := by
  have nothing : ¬ LeadsBlock [] := fun leads => by
    obtain ⟨c, rest, impossible, -⟩ := leads.begins
    cases impossible
  refine (avoids_ofLines nothing (fun _ _ => LeadsBlock.of_line)
    (List.forall_mem_map.2 fun line member => ?_)
    (List.forall_mem_map.2 fun line member leads => ?_)).blockless
  · intro newline
    obtain ⟨c, inside, same⟩ := List.mem_map.1 newline
    exact (each line member).1 (Quoting.glyphOf_eq_char same ▸ inside)
  · obtain ⟨c, rest, whole, opens⟩ := leads.begins
    cases line with
    | nil => cases whole
    | cons d line =>
      obtain rfl := Quoting.glyphOf_eq_char (List.cons.inj whole).1
      exact absurd (((each _ member).2 _ rfl).symm.trans opens) Bool.false_ne_true

/-- Lines that open no block make a sheet in which no line does. -/
theorem prose_ofLines {lines : List Sheet} (each : ∀ line ∈ lines, Glyph.char '\n' ∉ line)
    (plain : ∀ line ∈ lines, ¬ line.OpensBlock) : (ofLines lines).Prose := by
  refine avoids_ofLines (fun opens => ?_) (fun _ _ => OpensBlock.of_line) each plain
  obtain ⟨c, rest, impossible, -⟩ := opens.begins
  cases impossible

theorem encodeEscapes_eq_char_cons {sheet : Sheet} {c : Char}
    (whole : encodeEscapes sheet = .char c :: rest) :
    ∃ more, sheet = .char c :: more ∧ rest = encodeEscapes more := by
  fun_cases encodeEscapes sheet with
  | case1 d more escapable =>
    rw [encodeEscapes, if_pos escapable] at whole
    cases (List.cons.inj whole).1
  | case2 d more refused =>
    rw [encodeEscapes, if_neg refused] at whole
    obtain ⟨same, tail⟩ := List.cons.inj whole
    exact ⟨_, by rw [same], tail.symm⟩
  | case3 g more other =>
    rw [encodeEscapes] at whole
    · obtain ⟨rfl, tail⟩ := List.cons.inj whole
      exact ⟨more, rfl, tail.symm⟩
    · exact other
  | case4 => cases whole

theorem Marked.of_encodeEscapes {marks : Char → Bool} {sheet : Sheet}
    (marked : Marked marks (encodeEscapes sheet)) : Marked marks sheet := by
  generalize hidden : encodeEscapes sheet = shown at marked
  induction shown generalizing sheet with
  | nil => exact marked.elim
  | cons g rest ih =>
    rcases marked with ⟨c, rfl, here⟩ | ⟨⟨c, rfl, blank⟩, later⟩
    · obtain ⟨more, rfl, _⟩ := encodeEscapes_eq_char_cons hidden
      exact .inl ⟨c, rfl, here⟩
    · obtain ⟨more, rfl, tail⟩ := encodeEscapes_eq_char_cons hidden
      exact .inr ⟨⟨c, rfl, blank⟩, ih tail.symm later⟩

theorem prefix_of_encodeEscapes {front : Text} {sheet : Sheet}
    (here : Glyph.chars front <+: encodeEscapes sheet) : Glyph.chars front <+: sheet := by
  induction front generalizing sheet with
  | nil => exact List.nil_prefix
  | cons c front ih =>
    obtain ⟨rest, whole⟩ := here
    obtain ⟨more, rfl, tail⟩ := encodeEscapes_eq_char_cons whole.symm
    exact List.cons_prefix_cons.2 ⟨rfl, ih ⟨rest, tail⟩⟩

theorem OpensBlock.of_encodeEscapes {sheet : Sheet} (opens : OpensBlock (encodeEscapes sheet)) :
    OpensBlock sheet :=
  opens.imp .of_encodeEscapes
    (.imp prefix_of_encodeEscapes (@prefix_of_encodeEscapes "\t".toList sheet))

theorem newline_not_mem_encodeEscapes (newline : Glyph.char '\n' ∉ line) :
    Glyph.char '\n' ∉ encodeEscapes line := by
  intro member
  rcases mem_of_mem_encodeEscapes member with inside | ⟨c, impossible⟩
  · exact newline inside
  · cases impossible

/-- Hiding escapes opens no block. -/
theorem prose_encodeEscapes {lines : List Sheet} (each : ∀ line ∈ lines, Glyph.char '\n' ∉ line)
    (plain : ∀ line ∈ lines, ¬ line.OpensBlock) : (encodeEscapes (ofLines lines)).Prose := by
  rw [encodeEscapes_ofLines]
  refine prose_ofLines (List.forall_mem_map.2 fun line member => ?_)
    (List.forall_mem_map.2 fun line member opens => ?_)
  · exact newline_not_mem_encodeEscapes (each line member)
  · exact plain line member opens.of_encodeEscapes

theorem char_not_mem_map_glyphOf {c : Char} {text : Text} (none : c ∉ text) :
    Glyph.char c ∉ text.map glyphOf := by
  intro member
  obtain ⟨d, inside, same⟩ := List.mem_map.1 member
  exact none (Quoting.glyphOf_eq_char same ▸ inside)

theorem glyphOf_fits {accepts : Char → Bool}
    (hidden : ∀ c, Unicode.isPrivate c = true → accepts c = false) (c : Char) :
    (glyphOf c).fits Seal.lead accepts = accepts c := by
  rw [glyphOf]
  split
  · next here => rw [here]; rfl
  · split
    · next here =>
      rw [here, hidden Escape.closing (by decide)]
      exact hidden Escape.opening (by decide)
    · rfl

theorem all_encodeEscapes {accepts : Char → Bool} (plain : accepts '\\' = false)
    (hidden : accepts Escape.opening = false) (sheet : Sheet) :
    (encodeEscapes sheet).all (·.fits Seal.lead accepts) =
      sheet.all (·.fits Seal.lead accepts) := by
  fun_induction encodeEscapes sheet with
  | case1 c rest escapable ih =>
    have token : (Glyph.sealed (Seal.token c)).fits Seal.lead accepts = false := hidden
    have backslash : (Glyph.char '\\' : Glyph Seal).fits Seal.lead accepts = false := plain
    rw [List.all_cons, List.all_cons, token, backslash, Bool.false_and, Bool.false_and]
  | case2 c rest refused ih => rw [List.all_cons, List.all_cons, ih]
  | case3 g rest other ih => rw [List.all_cons, List.all_cons, ih]
  | case4 => rfl

end Sheet

namespace Paragraph

/-- The line begins with the mark of a block, or it is indented as code is. -/
def opensBlock (line : Text) : Bool :=
  "    ".toList.isPrefixOf line || "\t".toList.isPrefixOf line ||
    (line.dropWhile Text.isBlank).head?.any fun c => isMark c || c == '>'

def isBlankLine (line : Text) : Bool :=
  line.all Text.isBlank

/-- A document in which no line opens a block, from a line with text to a line with text. -/
structure IsProse (document : Text) : Prop where
  carriage : '\r' ∉ document
  plain : ∀ line ∈ document.lines, opensBlock line = false
  first : ∀ line ∈ document.lines.head?, isBlankLine line = false
  last : ∀ line ∈ document.lines.getLast?, isBlankLine line = false

/-- The passages of a document: its lines between blank lines. -/
def passages (document : Text) : List Text :=
  (runs isBlankLine document.lines).map (Text.join ['\n'])

def amidNewlines (before behind : Nat) (document : Text) : Text :=
  List.replicate before '\n' ++ (document ++ List.replicate behind '\n')

section

variable {document : Text}

/-- Newlines around a document are empty lines. -/
theorem lines_newlines (document : Text) (before behind : Nat) :
    (amidNewlines before behind document).lines =
      List.replicate before [] ++ (document.lines ++ List.replicate behind []) := by
  rw [amidNewlines]
  induction before with
  | zero =>
    cases behind with
    | zero => simp
    | succ behind =>
      have newlines : Text.lines (List.replicate behind '\n') = List.replicate (behind + 1) [] := by
        induction behind with
        | zero => rfl
        | succ behind ih => rw [List.replicate_succ, List.replicate_succ, ← ih]; rfl
      rw [List.replicate_zero, List.nil_append, List.replicate_succ, Quoting.lines_append, newlines]
      rfl
  | succ before ih =>
    rw [List.replicate_succ, List.replicate_succ, List.cons_append, List.cons_append, ← ih]
    rfl

theorem isBlank_of_mark {c : Char} (mark : (isMark c || c == '>') = true) :
    Text.isBlank c = false := by
  refine Bool.eq_false_iff.2 fun blank => ?_
  rcases (show c = ' ' ∨ c = '\t' by simpa [Text.isBlank] using blank) with rfl | rfl <;>
    exact absurd mark (by decide)

theorem prefix_of_sheet {front line : Text}
    (here : Glyph.chars front <+: line.map Sheet.glyphOf) : front <+: line := by
  induction front generalizing line with
  | nil => exact List.nil_prefix
  | cons c front ih =>
    cases line with
    | nil => cases List.prefix_nil.1 here
    | cons d line =>
      obtain ⟨same, rest⟩ := List.cons_prefix_cons.1 here
      exact List.cons_prefix_cons.2 ⟨(Quoting.glyphOf_eq_char same.symm).symm, ih rest⟩

theorem infix_of_sheet {part text : Text}
    (inside : Glyph.chars part <:+: text.map Sheet.glyphOf) : part <:+: text := by
  obtain ⟨front, back, whole⟩ := inside
  obtain ⟨early, late, rfl, here, -⟩ := List.map_eq_append_iff.1 whole.symm
  obtain ⟨before, found, rfl, -, same⟩ := List.map_eq_append_iff.1 here
  have within : part <+: found := prefix_of_sheet (same ▸ List.prefix_refl _)
  exact (within.isInfix.trans (List.suffix_append before found).isInfix).trans
    (List.prefix_append _ late).isInfix

theorem mark_of_sheet {line : Text}
    (marked : Sheet.Marked (fun c => isMark c || c == '>') (line.map Sheet.glyphOf)) :
    ((line.dropWhile Text.isBlank).head?.any fun c => isMark c || c == '>') = true := by
  induction line with
  | nil => exact marked.elim
  | cons c line ih =>
    rw [List.map_cons] at marked
    rcases marked with ⟨d, same, mark⟩ | ⟨⟨d, same, blank⟩, later⟩
    · obtain rfl := Quoting.glyphOf_eq_char same
      rw [List.dropWhile_cons_of_neg (Bool.eq_false_iff.1 (isBlank_of_mark mark))]
      exact mark
    · obtain rfl := Quoting.glyphOf_eq_char same
      rw [List.dropWhile_cons_of_pos blank]
      exact ih later

theorem opensBlock_of_sheet {line : Text} (opens : Sheet.OpensBlock (line.map Sheet.glyphOf)) :
    opensBlock line = true := by
  rw [opensBlock, Bool.or_eq_true, Bool.or_eq_true, List.isPrefixOf_iff_prefix,
    List.isPrefixOf_iff_prefix]
  rcases opens with marked | spaces | tab
  · exact .inr (mark_of_sheet marked)
  · exact .inl (.inl (prefix_of_sheet spaces))
  · exact .inl (.inr (@prefix_of_sheet "\t".toList line tab))

/-- A line of a document as it is rendered. -/
noncomputable def sheetLine (line : Text) : Sheet :=
  Sheet.encodeEscapes (line.map Sheet.glyphOf)

theorem isBlankLine_sheetLine (line : Text) :
    (sheetLine line).isBlankLine = isBlankLine line := by
  rw [Sheet.isBlankLine, sheetLine, Sheet.all_encodeEscapes (by decide) (by decide), List.all_map]
  exact congrArg line.all (funext (Sheet.glyphOf_fits fun _ => isBlank_of_isPrivate))

theorem encodeEscapes_newlines (sheet : Sheet) (before behind : Nat) :
    Sheet.encodeEscapes (List.replicate before (Glyph.char '\n') ++
        (sheet ++ List.replicate behind (Glyph.char '\n'))) =
      List.replicate before (Glyph.char '\n') ++
        (Sheet.encodeEscapes sheet ++ List.replicate behind (Glyph.char '\n')) := by
  have final : Sheet.encodeEscapes (List.replicate behind (Glyph.char '\n')) =
      List.replicate behind (Glyph.char '\n') := by
    have same := Sheet.encodeEscapes_replicate behind []
    rwa [List.append_nil, Sheet.encodeEscapes, List.append_nil] at same
  rw [Sheet.encodeEscapes_replicate, Sheet.encodeEscapes_append, final]
  intro c more whole _
  cases behind with
  | zero => cases whole
  | succ behind =>
    rw [← Glyph.char.inj (List.cons.inj whole).1]
    decide

/-- A passage as it is rendered. -/
theorem ofLines_sheetLines (group : List Text) (carriage : ∀ line ∈ group, '\r' ∉ line) :
    Sheet.ofLines (group.map sheetLine) =
      Sheet.encodeEscapes (Sheet.ofDocument (Text.join ['\n'] group)) := by
  rw [Sheet.ofDocument_eq_map (Quoting.not_mem_join (by decide) carriage), Quoting.map_join,
    Sheet.encodeEscapes_ofLines, List.map_map]
  rfl

variable (prose : IsProse document)
include prose

theorem IsProse.carriage_amidNewlines (before behind : Nat) :
    '\r' ∉ amidNewlines before behind document := by
  have newlines : ∀ count, '\r' ∉ List.replicate count '\n' :=
    fun count member => absurd (List.eq_of_mem_replicate member) (by decide)
  simp [amidNewlines, newlines, prose.carriage]

theorem IsProse.not_opensBlock {before behind : Nat} {line : Text}
    (member : line ∈ (amidNewlines before behind document).lines) : opensBlock line = false := by
  simp only [lines_newlines, List.mem_append, List.mem_replicate] at member
  rcases member with ⟨_, rfl⟩ | inside | ⟨_, rfl⟩
  · rfl
  · exact prose.plain line inside
  · rfl

theorem IsProse.each_line (before behind : Nat) :
    ∀ sheet ∈ Quoting.sheetLines (amidNewlines before behind document),
      Glyph.char '\n' ∉ sheet ∧ ¬ sheet.OpensBlock := by
  refine List.forall_mem_map.2 fun line inside => ⟨?_, fun opens => ?_⟩
  · exact Sheet.char_not_mem_map_glyphOf (Text.not_newline_of_mem_lines inside)
  · have here := opensBlock_of_sheet opens
    rw [prose.not_opensBlock inside] at here
    cases here

/-- The lines of prose, rendered on their own. -/
theorem IsProse.encodeEscapes_eq (before behind : Nat) :
    Sheet.encodeEscapes (Sheet.ofDocument (amidNewlines before behind document)) =
    List.replicate before (Glyph.char '\n') ++
      (Sheet.ofLines (document.lines.map sheetLine) ++ List.replicate behind (Glyph.char '\n')) := by
  have newline : Sheet.glyphOf '\n' = .char '\n' := Sheet.glyphOf_of_not_isPrivate (by decide)
  have lines : document.map Sheet.glyphOf = Sheet.ofLines (Quoting.sheetLines document) := by
    rw [Quoting.sheetLines, ← Quoting.map_join, Quoting.join_lines]
  rw [Sheet.ofDocument_eq_map (prose.carriage_amidNewlines before behind), amidNewlines,
    List.map_append, List.map_append, List.map_replicate, List.map_replicate, newline,
    encodeEscapes_newlines, lines, Sheet.encodeEscapes_ofLines, Quoting.sheetLines, List.map_map]
  rfl

theorem IsProse.framed : Sheet.Framed (document.lines.map sheetLine) where
  some := by simpa using Text.lines_ne_nil document
  newline := List.forall_mem_map.2 fun line inside => Sheet.newline_not_mem_encodeEscapes
    (Sheet.char_not_mem_map_glyphOf (Text.not_newline_of_mem_lines inside))
  first line here := by
    rw [List.head?_map] at here
    obtain ⟨origin, first, rfl⟩ := Option.map_eq_some_iff.1 here
    rw [isBlankLine_sheetLine, prose.first origin first]
  last line here := by
    rw [List.getLast?_map] at here
    obtain ⟨origin, last, rfl⟩ := Option.map_eq_some_iff.1 here
    rw [isBlankLine_sheetLine, prose.last origin last]

theorem IsProse.carriage_group {group : List Text}
    (member : group ∈ runs isBlankLine document.lines) : ∀ line ∈ group, '\r' ∉ line := by
  intro line inside carriage
  refine prose.carriage ?_
  rw [← Quoting.join_lines document]
  exact Quoting.mem_join (mem_of_mem_runs member inside) carriage

theorem IsProse.divide_eq (before behind : Nat) :
    Block.blankLines.divide (Sheet.trim Text.isNewline
      (Sheet.encodeEscapes (Sheet.ofDocument (amidNewlines before behind document)))) =
      (passages document).map fun passage => Sheet.encodeEscapes (Sheet.ofDocument passage) := by
  have judged : Sheet.isBlankLine ∘ sheetLine = isBlankLine := funext isBlankLine_sheetLine
  rw [prose.encodeEscapes_eq, prose.framed.divide_newlines, Sheet.passages, runs_map, judged,
    passages, List.map_map, List.map_map]
  exact List.map_congr_left fun group member =>
    ofLines_sheetLines group (prose.carriage_group member)

theorem IsProse.paragraph?_eq {table : Sheet.Table} {passage : Text}
    (member : passage ∈ passages document) :
    Sheet.paragraph? table (Sheet.encodeEscapes (Sheet.ofDocument passage)) =
      if passage.all Unicode.isSpace then none
      else some (element table (Sheet.encodeEscapes (Sheet.ofDocument passage))) := by
  have carriage : '\r' ∉ passage := by
    obtain ⟨group, inside, rfl⟩ := List.mem_map.1 member
    exact Quoting.not_mem_join (by decide) (prose.carriage_group inside)
  have prints := (Renaming.prints_normalize passage).encodeEscapes
  have judged := funext (Sheet.glyphOf_fits fun _ => Unicode.isSpace_of_isPrivate)
  rw [Sheet.paragraph?_of_keyless _ prints.keyless]
  refine if_congr ?_ rfl rfl
  rw [Sheet.trimSpace_eq_nil_iff, ← List.all_eq_true,
    Sheet.all_encodeEscapes (by decide) (by decide), Sheet.ofDocument_eq_map carriage,
    List.all_map]
  exact Eq.congr_left (congrArg passage.all judged)

theorem IsProse.filterMap_paragraph? (table : Sheet.Table) :
    ((passages document).map fun passage =>
      Sheet.encodeEscapes (Sheet.ofDocument passage)).filterMap (Sheet.paragraph? table) =
    ((passages document).filter fun passage => !passage.all Unicode.isSpace).map
      fun passage => element table (Sheet.encodeEscapes (Sheet.ofDocument passage)) := by
  have pieces := fun passage => @IsProse.paragraph?_eq document prose table passage
  rw [List.filterMap_map]
  generalize passages document = parts at pieces
  induction parts with
  | nil => rfl
  | cons passage parts ih =>
    obtain ⟨here, others⟩ := List.forall_mem_cons.1 pieces
    rw [List.filterMap_cons, Function.comp_apply, here, ih others]
    by_cases blank : passage.all Unicode.isSpace = true <;> simp [blank]

/-- With its escapes hidden, prose opens no block either. -/
theorem IsProse.prose_encodeEscapes (before behind : Nat) :
    (Sheet.encodeEscapes (Sheet.ofDocument (amidNewlines before behind document))).Prose := by
  have each := prose.each_line before behind
  rw [Quoting.ofDocument_eq_ofLines (prose.carriage_amidNewlines before behind)]
  exact Sheet.prose_encodeEscapes (fun line member => (each line member).1)
    fun line member => (each line member).2

/-- The blocks of prose are the elements of its passages. -/
theorem IsProse.paragraphs_eq (table : Sheet.Table) (before behind : Nat) :
    Sheet.paragraphs table
        (Sheet.encodeEscapes (Sheet.ofDocument (amidNewlines before behind document))) =
      (Glyph.chars "\n\n".toList).intercalate (((passages document).filter fun passage =>
        !passage.all Unicode.isSpace).map fun passage =>
          Sheet.finish (element table (Sheet.encodeEscapes (Sheet.ofDocument passage)))) := by
  rw [Sheet.paragraphs, prose.divide_eq, prose.filterMap_paragraph?, finish_intercalate, List.map_map]
  rfl

/-- Prose is rendered passage by passage, each of them by the inline rules alone. -/
theorem IsProse.html_render {limit : Limit} (room : limit.Holds 1) {table : Sheet.Table}
    {references : ReferenceTable} (tables : Renaming.same.PrintsTable [] table references)
    (before behind : Nat) :
    ((Block.render ⟨references, limit⟩ false (Codec.standard.encodeEscapes (Codec.standard.normalize
        (amidNewlines before behind document)))).run .start).1.map Codec.standard.decodeMarkers =
      .ok (Text.join "\n\n".toList (((passages document).filter fun passage =>
        !passage.all Unicode.isSpace).map fun passage =>
          "<p>".toList ++ Inline.convert references passage ++ "</p>".toList)) := by
  have prints := (Renaming.prints_normalize (amidNewlines before behind document)).encodeEscapes
  have output := prints.html_render room tables (prose.prose_encodeEscapes before behind).blockless
  rw [prose.paragraphs_eq, spell_intercalate] at output
  refine output.trans (congrArg (fun parts => Except.ok (Text.join "\n\n".toList parts)) ?_)
  simp [spell_finish_element tables, Function.comp_def]

/-- Prose converts to its passages, each of them by the inline rules alone. -/
theorem IsProse.html_convert {limit : Limit} (room : limit.Holds 1) (before behind : Nat) :
    (convert limit (amidNewlines before behind document)).html =
      .ok (Text.join "\n\n".toList (((passages document).filter fun passage =>
        !passage.all Unicode.isSpace).map fun passage =>
          "<p>".toList ++ Inline.convert .empty passage ++ "</p>".toList)) := by
  have each := prose.each_line before behind
  have plain : (Sheet.ofDocument (amidNewlines before behind document)).Prose :=
    Quoting.ofDocument_eq_ofLines (prose.carriage_amidNewlines before behind) ▸
      Sheet.prose_ofLines (fun line member => (each line member).1)
        fun line member => (each line member).2
  have none : Renaming.same.PrintsTable [] [] .empty := .nil
  change ((prepare _).render limit).1.map _ = _
  rw [prepare_eq plain]
  exact prose.html_render room none before behind

/-- Around prose, newlines make no difference, nor does the lack of one at its end. -/
theorem IsProse.html_convert_amidNewlines {limit : Limit} (room : limit.Holds 1)
    (before behind : Nat) :
    (convert limit (amidNewlines before behind document)).html = (convert limit document).html := by
  have alone := prose.html_convert room 0 0
  rw [amidNewlines, List.replicate_zero, List.nil_append, List.append_nil] at alone
  rw [prose.html_convert room, alone]

end

def emptied (line : Text) : Text :=
  if line.length ≤ 3 ∧ line.all (· == ' ') then [] else line

/-- A document with its lines of at most three spaces made empty. -/
def emptyBlanks (document : Text) : Text :=
  Text.join ['\n'] (document.lines.map emptied)

theorem emptied_cases (line : Text) :
    emptied line = line ∨ emptied line = [] ∧ isBlankLine line = true := by
  rw [emptied]
  split
  · next spaces =>
    refine .inr ⟨rfl, List.all_eq_true.2 fun c inside => ?_⟩
    rw [show c = ' ' by simpa using List.all_eq_true.1 spaces.2 c inside]
    rfl
  · exact .inl rfl

theorem emptied_of (holds : Text → Prop) (empty : holds []) {line : Text} (here : holds line) :
    holds (emptied line) := by
  rw [emptied]
  split
  · exact empty
  · exact here

theorem isBlankLine_emptied (line : Text) : isBlankLine (emptied line) = isBlankLine line := by
  rcases emptied_cases line with same | ⟨none, blank⟩
  · rw [same]
  · rw [none, blank]
    rfl

theorem lines_emptyBlanks (document : Text) :
    (emptyBlanks document).lines = document.lines.map emptied := by
  refine Quoting.lines_join (by simpa using Text.lines_ne_nil document)
    (List.forall_mem_map.2 fun line member => ?_)
  exact emptied_of ('\n' ∉ ·) List.not_mem_nil (Text.not_newline_of_mem_lines member)

/-- Blank lines are where the passages end, whatever blanks are on them. -/
theorem passages_emptyBlanks (document : Text) :
    passages (emptyBlanks document) = passages document := by
  have split : (document.lines.map emptied).splitOnP isBlankLine =
      document.lines.splitOnP isBlankLine := by
    induction document.lines with
    | nil => rfl
    | cons line lines ih =>
      rw [List.map_cons, List.splitOnP_cons_eq_if_modifyHead, List.splitOnP_cons_eq_if_modifyHead,
        ih, isBlankLine_emptied]
      rcases emptied_cases line with same | ⟨_, blank⟩
      · rw [same]
      · rw [if_pos blank, if_pos blank]
  rw [passages, passages, lines_emptyBlanks, runs, split, runs]

theorem IsProse.emptyBlanks {document : Text} (prose : IsProse document) :
    IsProse (emptyBlanks document) where
  carriage := by
    refine Quoting.not_mem_join (by decide) (List.forall_mem_map.2 fun line member => ?_)
    refine emptied_of ('\r' ∉ ·) List.not_mem_nil fun carriage => prose.carriage ?_
    rw [← Quoting.join_lines document]
    exact Quoting.mem_join member carriage
  plain := by
    rw [lines_emptyBlanks]
    exact List.forall_mem_map.2 fun line member =>
      emptied_of (opensBlock · = false) rfl (prose.plain line member)
  first line here := by
    rw [lines_emptyBlanks, List.head?_map] at here
    obtain ⟨origin, first, rfl⟩ := Option.map_eq_some_iff.1 here
    rw [isBlankLine_emptied, prose.first origin first]
  last line here := by
    rw [lines_emptyBlanks, List.getLast?_map] at here
    obtain ⟨origin, last, rfl⟩ := Option.map_eq_some_iff.1 here
    rw [isBlankLine_emptied, prose.last origin last]

/-- In prose a line of at most three spaces is as good as an empty one, and newlines around it make no
difference. -/
theorem html_convert_emptyBlanks {limit : Limit} (room : limit.Holds 1) {document : Text}
    (prose : IsProse document) (before behind : Nat) :
    (convert limit (amidNewlines before behind document)).html = (convert limit document).html ∧
      (convert limit (amidNewlines before behind (emptyBlanks document))).html =
        (convert limit document).html := by
  have around := prose.html_convert_amidNewlines room before behind
  refine ⟨around, ?_⟩
  rw [← around, prose.html_convert room, prose.emptyBlanks.html_convert room, passages_emptyBlanks]

/-- Two lines of prose with a line of spaces between them, and a newline at the end. -/
theorem html_convert_emptyBlanks_spaces :
    Limit.standard.Holds 1 ∧ IsProse "a\n  \nb".toList ∧
      (convert .standard (amidNewlines 0 1 (emptyBlanks "a\n  \nb".toList))).html =
        (convert .standard "a\n  \nb".toList).html := by
  have room : Limit.standard.Holds 1 := by decide
  have prose : IsProse "a\n  \nb".toList := by constructor <;> decide
  exact ⟨room, prose, (html_convert_emptyBlanks room prose 0 1).2⟩

end Paragraph

end Markdown
