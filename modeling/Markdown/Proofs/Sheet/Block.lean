import Markdown.Proofs.Sheet.Rendering

set_option autoImplicit false

namespace Markdown

namespace Sheet

/-- The renderings that lists and quotes use for their content, one level further in. -/
structure Interior where
  blocks : (inList : Bool) → Sheet → Draft Sheet
  lists : Sheet → Draft Sheet

section Definitions

variable (table : Table) (interior : Interior)

noncomputable def headingElement (rank : Nat) (content : Sheet) : Sheet :=
  let tag := 'h' :: (toString rank).toList
  Glyph.chars ('<' :: tag ++ ['>']) ++ inline table content ++ Glyph.chars ("</".toList ++ tag ++ ['>'])

noncomputable def underlinedHeadings (sheet : Sheet) : Sheet :=
  Heading.underlined.recast (fun found => keyBlock (headingElement table
    (Heading.rankOf (outline (found.get .underline))) (found.get .content))) sheet

noncomputable def markedHeadings (sheet : Sheet) : Sheet :=
  Heading.marked.recast (fun found => keyBlock
    (headingElement table (found.get .marks).length (found.get .content))) sheet

def rules (sheet : Sheet) : Sheet :=
  Heading.rule.recast (fun _ => keyBlock (Glyph.chars "<hr>".toList)) sheet

/-- A sheet with one level of indentation less in each line. -/
def outdent (sheet : Sheet) : Sheet :=
  CodeBlock.indentation.recast (fun _ => []) sheet

def codeBlockElement (lines : Sheet) : Sheet :=
  Glyph.chars "<pre><code>".toList ++
    trimEnd Unicode.isSpace (trim Text.isNewline (protect (restore (outdent lines)))) ++
    Glyph.chars "\n</code></pre>".toList

def codeBlocks (sheet : Sheet) : Sheet :=
  CodeBlock.codeBlock.recast (fun found => keyBlock (codeBlockElement (found.get .code))) sheet

def htmlBlocks (sheet : Sheet) : Sheet :=
  Html.htmlBlock.recast (fun found => keyBlock (found.get .element)) sheet

def quoteElement (lines : Sheet) : Draft Sheet := do
  let content ← interior.blocks false (Quote.mark.recast (fun _ => []) lines)
  pure (Glyph.chars "<blockquote>\n".toList ++ content ++ Glyph.chars "\n</blockquote>".toList)

def quotes (sheet : Sheet) : Draft Sheet :=
  Quote.quote.redraw (fun found => do
    let element ← quoteElement interior (found.get .lines)
    pure (keyBlock element)) sheet

def isLoose (found : Find Seal Listing.Part) : Bool :=
  (found.get? .gap).isSome || Text.occursIn "\n\n".toList (outline (found.get .content))

/-- A sheet with one newline for every run of newlines. -/
def singleSpaced (sheet : Sheet) : Sheet :=
  Listing.newlines.recast (fun _ => Glyph.chars ['\n']) sheet

noncomputable def itemContent (found : Find Seal Listing.Part) : Draft Sheet := do
  let content := outdent (found.get .content)
  if isLoose found then interior.blocks true content
  else
    let sheet ← interior.lists content
    pure (finish (inline table (singleSpaced (trimEnd Text.isNewline sheet))))

noncomputable def itemElement (found : Find Seal Listing.Part) : Draft Sheet := do
  let content ← itemContent table interior found
  pure (Glyph.chars "<li>".toList ++ content ++ Glyph.chars "</li>\n".toList)

def evenlySpaced (list : Sheet) : Sheet :=
  Listing.finalNewlines.recast (fun _ => Glyph.chars ['\n'])
    (Listing.newlines.recast (fun _ => Glyph.chars "\n\n\n".toList) list)

noncomputable def listElement (found : Find Seal Listing.Part) : Draft Sheet := do
  let items ← Listing.item.redraw (itemElement table interior) (evenlySpaced (found.get .list))
  let tag := Listing.tagOf (outline (found.get .marker))
  pure (Glyph.chars ('<' :: tag ++ ">\n".toList) ++ items ++
    Glyph.chars ("</".toList ++ tag ++ ['>']))

noncomputable def lists (inList : Bool) (sheet : Sheet) : Draft Sheet :=
  (if inList then Listing.nestedList else Listing.topList).redraw (fun found => do
    let element ← listElement table interior found
    pure (keyBlock element)) sheet

/-- A piece of a sheet between blank lines: nothing, a fragment under its key, or a paragraph. -/
noncomputable def paragraph? (piece : Sheet) : Option Sheet :=
  match trimSpace piece with
  | [] => none
  | [.sealed (.key fragment)] => some fragment
  | _ => some (Glyph.chars "<p>".toList ++ inline table piece ++ Glyph.chars "</p>".toList)

noncomputable def paragraphs (sheet : Sheet) : Sheet :=
  finish ((Glyph.chars "\n\n".toList).intercalate
    ((Block.blankLines.divide (trim Text.isNewline sheet)).filterMap (paragraph? table)))

noncomputable def level (inList : Bool) (sheet : Sheet) : Draft Sheet := do
  let sheet := rules (markedHeadings table (underlinedHeadings table sheet))
  let sheet ← lists table interior inList sheet
  let sheet ← quotes interior (codeBlocks sheet)
  pure (paragraphs table (htmlBlocks sheet))

end Definitions

/-- The renderings one level further in, when a number of further levels is left. -/
noncomputable def interior (table : Table) (limit : Limit) : Nat → Interior
  | 0 =>
    { blocks := fun _ _ => Draft.nested limit (.giveOut limit)
      lists := fun _ => Draft.nested limit (.giveOut limit) }
  | left + 1 =>
    { blocks := fun inList sheet =>
        Draft.nested limit (level table (interior table limit left) inList sheet)
      lists := fun sheet =>
        Draft.nested limit (lists table (interior table limit left) true sheet) }

end Sheet

namespace Render.Grows

theorem headings (references : ReferenceTable) (text : Text) :
    Grows (Heading.render references text) :=
  (replaceM _ (fun _ => .setAside _) _).bind fun _ => replaceM _ (fun _ => .setAside _) _

theorem rules (text : Text) : Grows (Heading.renderRules text) :=
  replaceM _ (fun _ => .setAside _) _

theorem codeBlocks (text : Text) : Grows (CodeBlock.render text) :=
  replaceM _ (fun _ => .setAside _) _

variable {setting : Setting} {interior : Interior}

theorem quoteElement (blocks : ∀ inList text, Grows (interior.blocks inList text)) (lines : Text) :
    Grows (Quote.element interior lines) :=
  (blocks _ _).bind fun _ => .pure _

theorem quotes (blocks : ∀ inList text, Grows (interior.blocks inList text)) (text : Text) :
    Grows (Quote.render interior text) :=
  replaceM _ (fun _ => (quoteElement blocks _).bind fun _ => .setAside _) _

theorem itemContent (blocks : ∀ inList text, Grows (interior.blocks inList text))
    (lists : ∀ text, Grows (interior.lists text)) (found : Match Listing.Part) :
    Grows (Listing.itemContent setting interior found) := by
  rw [Listing.itemContent]
  split
  · exact blocks _ _
  · exact (lists _).bind fun _ => .finish _

theorem itemElement (blocks : ∀ inList text, Grows (interior.blocks inList text))
    (lists : ∀ text, Grows (interior.lists text)) (found : Match Listing.Part) :
    Grows (Listing.itemElement setting interior found) :=
  (itemContent blocks lists found).bind fun _ => .pure _

theorem listElement (blocks : ∀ inList text, Grows (interior.blocks inList text))
    (lists : ∀ text, Grows (interior.lists text)) (found : Match Listing.Part) :
    Grows (Listing.listElement setting interior found) :=
  (replaceM _ (itemElement blocks lists) _).bind fun _ => .pure _

theorem lists (blocks : ∀ inList text, Grows (interior.blocks inList text))
    (lists : ∀ text, Grows (interior.lists text)) (inList : Bool) (text : Text) :
    Grows (Listing.render setting interior inList text) :=
  replaceM _ (fun found => (listElement blocks lists found).bind fun _ => .setAside _) _

end Render.Grows

/-- Literal HTML is put aside as every other block is. -/
theorem Render.protectHtml_eq (text : Text) :
    Render.protectHtml text =
      Html.htmlBlock.replaceM (fun found => Render.setAside (found.get .element)) text := by
  let act : Match Html.Part → StateM Fragments Text := fun found fragments =>
    (Fragments.keyBlock (found.get .element), fragments.insert (found.get .element))
  have step : ∀ (segments : List (Segment Html.Part)) (progress : Progress),
      (segments.mapM (Segment.replacedM
        fun found => Render.setAside (found.get .element))).run progress =
        (.ok ((segments.mapM (Segment.replacedM act)).run progress.fragments).1,
          { progress with
            fragments := ((segments.mapM (Segment.replacedM act)).run progress.fragments).2 }) := by
    intro segments
    induction segments with
    | nil => exact fun _ => rfl
    | cons segment rest ih =>
      intro progress
      rw [List.mapM_cons, List.mapM_cons, run_bind]
      cases segment with
      | plain c =>
        change ((rest.mapM _) >>= _ : Render (List Text)).run progress = _
        rw [run_bind, ih]
        rfl
      | found m =>
        change ((rest.mapM _) >>= _ : Render (List Text)).run
          { progress with fragments := progress.fragments.insert (m.get .element) } = _
        rw [run_bind, ih]
        rfl
  refine funext fun progress => ?_
  change _ = ((Html.htmlBlock.segments text).mapM _ >>= _ : Render Text).run progress
  rw [run_bind, step]
  rfl

namespace Render.Grows

theorem htmlBlocks (text : Text) : Grows (Render.protectHtml text) := by
  rw [Render.protectHtml_eq]
  exact replaceM _ (fun _ => .setAside _) _

theorem paragraphs (references : ReferenceTable) (text : Text) :
    Grows (Block.renderParagraphs references text) :=
  fun _ => List.Subset.refl _

theorem level {setting : Setting} {interior : Interior}
    (blocks : ∀ inList text, Grows (interior.blocks inList text))
    (lists : ∀ text, Grows (interior.lists text)) (inList : Bool) (text : Text) :
    Grows (Block.renderLevel setting interior inList text) :=
  (headings _ _).bind fun _ => (rules _).bind fun _ => (Grows.lists blocks lists _ _).bind
    fun _ => (codeBlocks _).bind fun _ => (quotes blocks _).bind fun _ =>
      (htmlBlocks _).bind fun _ => paragraphs _ _

theorem interior (setting : Setting) (left : Nat) :
    (∀ inList text, Grows ((Block.interior setting left).blocks inList text)) ∧
      ∀ text, Grows ((Block.interior setting left).lists text) := by
  induction left with
  | zero => exact ⟨fun _ _ => (Grows.giveOut _).nested _, fun _ => (Grows.giveOut _).nested _⟩
  | succ left ih =>
    exact ⟨fun _ _ => (level ih.1 ih.2 _ _).nested _, fun _ => (lists ih.1 ih.2 _ _).nested _⟩

end Render.Grows

namespace Renaming

variable {r : Renaming} {known : List Text} {sheet : Sheet} {text : Text}

namespace Refines

/-- The results of a rendering stand in the places of the matches as those of a draft do. -/
theorem redraw {slot : Type} [DecidableEq slot] {pattern : Pattern slot} {o : Outline Seal slot}
    (regular : pattern.Regular o r.face) (judged : o.lead = Seal.lead)
    {drawn : Find Seal slot → Draft Sheet} {replacement : Match slot → Render Text}
    (prints : r.Prints known sheet text) (grows : ∀ found, (replacement found).Grows)
    (each : ∀ {more f}, known ⊆ more → r.Prints more sheet text →
      pattern.Finds Seal.lead sheet f → r.Refines more (replacement (f.read r.face)) (drawn f)) :
    r.Refines known (pattern.replaceM replacement text) (pattern.redraw drawn sheet) := by
  have finds : ∀ f, .found f ∈ pattern.pieces Seal.lead sheet →
      pattern.Finds Seal.lead sheet f := fun f member => Pattern.finds_of_mem_pieces member
  have plain : ∀ g, .plain g ∈ pattern.pieces Seal.lead sheet → g ∈ sheet :=
    fun g member => Pattern.mem_of_plain_mem_pieces member
  have spelled := Pattern.replaceM_spell regular replacement sheet
  rw [prints.spelled, judged] at spelled
  rw [spelled, Pattern.redraw]
  generalize pattern.pieces Seal.lead sheet = pieces at finds plain
  have goes : ∀ pieces : List (Piece Seal slot),
      (Piece.replacedM r.face replacement pieces).Grows := by
    intro pieces
    induction pieces with
    | nil => exact .pure _
    | cons piece rest ih =>
      cases piece with
      | plain g => exact ih.bind fun _ => .pure _
      | found f => exact (grows _).bind fun _ => ih.bind fun _ => .pure _
  induction pieces generalizing known with
  | nil => exact .pure .nil
  | cons piece rest ih =>
    have later : ∀ {more}, known ⊆ more → r.Refines more
        (Piece.replacedM r.face replacement rest) (Piece.redrawn drawn rest) :=
      fun wider => ih (prints.mono wider) (fun further => each (List.Subset.trans wider further))
        (fun f member => finds f (List.mem_cons_of_mem _ member))
        fun g member => plain g (List.mem_cons_of_mem _ member)
    cases piece with
    | plain g =>
      refine (later (List.Subset.refl _)).bind (goes rest) (fun _ => .pure _) fun wider after => ?_
      exact .pure (after.cons ((prints.valid g (plain g List.mem_cons_self)).mono wider))
    | found f =>
      refine (each (List.Subset.refl _) prints (finds f List.mem_cons_self)).bind (grows _)
        (fun _ => (goes rest).bind fun _ => .pure _) fun wider here => ?_
      refine (later wider).bind (goes rest) (fun _ => .pure _) fun further after => ?_
      exact .pure ((here.mono further).append after)

/-- Blocks that need no rendering of their own. -/
theorem recast {slot : Type} [DecidableEq slot] {pattern : Pattern slot} {o : Outline Seal slot}
    (regular : pattern.Regular o r.face) (judged : o.lead = Seal.lead)
    {drawn : Find Seal slot → Sheet} {fragment : Match slot → Text}
    (prints : r.Prints known sheet text)
    (each : ∀ {more f}, known ⊆ more → Fragments.Collisionless more → r.Prints more sheet text →
      pattern.Finds Seal.lead sheet f → r.Prints more (drawn f) (fragment (f.read r.face))) :
    r.Refines known (pattern.replaceM (fun found => .setAside (fragment found)) text)
      (Pure.pure (pattern.recast (fun f => Sheet.keyBlock (drawn f)) sheet)) := by
  rw [← Pattern.redraw_pure]
  refine redraw regular judged prints (fun _ => .setAside _) fun wider here finds => ?_
  exact assuming (.setAside _) fun apart => .setAside (each wider apart here finds)

variable {table : Sheet.Table} {references : ReferenceTable}

theorem isPrivate_of_mem_tag (rank : Nat) :
    ∀ c ∈ 'h' :: (toString rank).toList, Unicode.isPrivate c = false := by
  intro c member
  rcases List.mem_cons.1 member with rfl | inside
  · decide
  · rw [Nat.toString_eq_repr, Nat.toList_repr] at inside
    have digit := Nat.isDigit_of_mem_toDigits (by decide) (by decide) inside
    refine Bool.eq_false_iff.2 fun here => ?_
    have bounds := Unicode.isPrivate_bounds here
    simp only [Char.isDigit, Bool.and_eq_true, decide_eq_true_eq] at digit
    have small : c.toNat ≤ 57 := UInt32.le_iff_toNat_le.1 digit.2
    omega

theorem headingElement (apart : Fragments.Collisionless known)
    (tables : r.PrintsTable known table references) (rank : Nat)
    (prints : r.Prints known sheet text) :
    r.Prints known (Sheet.headingElement table rank sheet)
      (Heading.element references rank text) := by
  have tag := isPrivate_of_mem_tag rank
  have front : r.Prints known (Glyph.chars ('<' :: 'h' :: (toString rank).toList ++ ['>']))
      ('<' :: 'h' :: (toString rank).toList ++ ['>']) := by
    refine .chars _ fun c member => ?_
    rcases List.mem_append.1 member with opened | closed
    · rcases List.mem_cons.1 opened with rfl | inside
      · decide
      · exact tag c inside
    · obtain rfl := List.mem_singleton.1 closed
      decide
  have back : r.Prints known
      (Glyph.chars ("</".toList ++ 'h' :: (toString rank).toList ++ ['>']))
      ("</".toList ++ 'h' :: (toString rank).toList ++ ['>']) := by
    refine .chars _ fun c member => ?_
    rcases List.mem_append.1 member with named | closed
    · rcases List.mem_append.1 named with opened | inside
      · exact (by decide : ∀ c ∈ "</".toList, Unicode.isPrivate c = false) c opened
      · exact tag c inside
    · obtain rfl := List.mem_singleton.1 closed
      decide
  have whole := (front.append (prints.inline apart tables)).append back
  rw [Sheet.headingElement, Heading.element]
  simpa using whole

/-- The marks of a heading are number signs. -/
theorem captures_marked :
    Heading.marked.Captures Seal.lead fun name (glyphs : Sheet) =>
      name = Heading.Part.marks → ∀ g ∈ glyphs, g = .char '#' := by
  have marks : (.seq (.char '#') (.upTo 5 (.char '#')) : Pattern Heading.Part).Only Seal.lead
      fun g => g = .char '#' := by
    have mark : (.char '#' : Pattern Heading.Part).Only Seal.lead fun g => g = .char '#' :=
      Pattern.only_char (by decide)
    exact mark.seq (mark.upTo 5)
  refine ⟨trivial, ⟨⟨trivial, ?_⟩, fun _ _ member _ => marks.between member⟩, trivial, ?_⟩
  · simp [Pattern.Captures, Pattern.upTo, Pattern.optional, Pattern.char]
  · simp [Pattern.Captures, Pattern.sequence, Pattern.few1, Heading.ending, Pattern.choice,
      Pattern.many1, Pattern.textEnd]

theorem length_of_marks {marks : Sheet} (all : ∀ g ∈ marks, g = .char '#') :
    (spell r.face marks).length = marks.length := by
  induction marks with
  | nil => rfl
  | cons g rest ih =>
    rw [all g List.mem_cons_self, spell_cons, List.length_append,
      ih fun h member => all h (List.mem_cons_of_mem _ member)]
    simp [Glyph.spell, Nat.add_comm]

theorem length_get_marks {f : Find Seal Heading.Part}
    (finds : Heading.marked.Finds Seal.lead sheet f) :
    ((f.read r.face).get .marks).length = (f.get .marks).length := by
  rw [Find.read_get, Find.get]
  cases here : f.get? .marks with
  | none => rfl
  | some marks => exact length_of_marks (captures_marked.get? finds here rfl)

/-- A seal is no underline. -/
theorem rankOf_eq (prints : r.Prints known sheet text) :
    Heading.rankOf text = Heading.rankOf (Sheet.outline sheet) := by
  obtain ⟨rfl, _⟩ := prints
  cases sheet with
  | nil => rfl
  | cons g rest =>
    cases g with
    | char c => rfl
    | sealed s =>
      obtain ⟨c, more, written, here⟩ := r.quiet.first s
      have differs : c ≠ '=' := Unicode.ne_of_isPrivate here (by decide)
      have other : Seal.lead s ≠ '=' := Unicode.ne_of_isPrivate (r.quiet.lead s) (by decide)
      simp [Heading.rankOf, Sheet.outline, Glyph.spell, written, differs, other]

theorem headings (tables : r.PrintsTable known table references)
    (prints : r.Prints known sheet text) :
    r.Refines known (Heading.render references text)
      (Pure.pure (Sheet.markedHeadings table (Sheet.underlinedHeadings table sheet))) := by
  have underlined : r.Refines known
      (Heading.underlined.replaceM (fun found => .setAside (Heading.element references
        (Heading.rankOf (found.get .underline)) (found.get .content))) text)
      (Pure.pure (Sheet.underlinedHeadings table sheet)) := by
    refine recast (Heading.regular_underlined r.quiet) rfl prints fun wider apart here finds => ?_
    rw [← rankOf_eq (here.get finds .underline)]
    exact headingElement apart (tables.mono wider) _ (here.get finds .content)
  rw [← pure_bind (Sheet.underlinedHeadings table sheet) fun sheet =>
    (Pure.pure (Sheet.markedHeadings table sheet) : Draft Sheet)]
  refine underlined.bind (.replaceM Heading.underlined (fun _ => .setAside _) text)
    (.replaceM Heading.marked fun _ => .setAside _) fun wider later => ?_
  refine recast (Heading.regular_marked r.quiet) rfl later fun further apart here finds => ?_
  rw [← length_get_marks finds]
  exact headingElement apart (tables.mono (List.Subset.trans wider further)) _
    (here.get finds .content)

theorem rules (prints : r.Prints known sheet text) :
    r.Refines known (Heading.renderRules text) (Pure.pure (Sheet.rules sheet)) :=
  recast (Heading.regular_rule r.quiet) rfl prints fun _ _ _ _ => .chars _ (by decide)

theorem codeBlockElement (lines : r.Prints known sheet text) :
    r.Prints known (Sheet.codeBlockElement sheet) (CodeBlock.element text) := by
  have plain : r.Prints known (Sheet.outdent sheet) (CodeBlock.outdent text) :=
    lines.recast (CodeBlock.regular_indentation r.quiet) rfl fun _ _ => .nil
  have code := (plain.restore.protect.trim fun _ => isNewline_of_isPrivate).trimEnd
    fun _ => Unicode.isSpace_of_isPrivate
  exact code.enclosed (by decide) (by decide)

theorem codeBlocks (prints : r.Prints known sheet text) :
    r.Refines known (CodeBlock.render text) (Pure.pure (Sheet.codeBlocks sheet)) :=
  recast (CodeBlock.regular_codeBlock r.quiet) rfl prints
    fun _ _ here finds => codeBlockElement (here.get finds .code)

theorem htmlBlocks (prints : r.Prints known sheet text) :
    r.Refines known (.protectHtml text) (Pure.pure (Sheet.htmlBlocks sheet)) := by
  rw [Render.protectHtml_eq]
  exact recast (Html.regular_htmlBlock r.quiet) rfl prints
    fun _ _ here finds => here.get finds .element

variable {limit : Limit} {interior : Markdown.Interior} {drafts : Sheet.Interior}

variable (r known) in
/-- The renderings of an interior refine those of another. -/
structure Inside (interior : Markdown.Interior) (drafts : Sheet.Interior) : Prop where
  blocksGrow : ∀ inList text, (interior.blocks inList text).Grows
  listsGrow : ∀ text, (interior.lists text).Grows
  blocks : ∀ {more sheet text}, known ⊆ more → r.Prints more sheet text → ∀ inList,
    r.Refines more (interior.blocks inList text) (drafts.blocks inList sheet)
  lists : ∀ {more sheet text}, known ⊆ more → r.Prints more sheet text →
    r.Refines more (interior.lists text) (drafts.lists sheet)

theorem Inside.mono {more : List Text} (wider : known ⊆ more)
    (inside : Inside r known interior drafts) : Inside r more interior drafts where
  blocksGrow := inside.blocksGrow
  listsGrow := inside.listsGrow
  blocks further := inside.blocks (List.Subset.trans wider further)
  lists further := inside.lists (List.Subset.trans wider further)

theorem quotes (inside : Inside r known interior drafts) (prints : r.Prints known sheet text) :
    r.Refines known (Quote.render interior text) (Sheet.quotes drafts sheet) := by
  have grows := Render.Grows.quoteElement inside.blocksGrow
  refine redraw (Quote.regular_quote r.quiet) rfl prints
    (fun _ => (grows _).bind fun _ => .setAside _) fun wider here finds => ?_
  refine Refines.bind ?_ (grows _) (fun _ => .setAside _) fun _ element => .setAside element
  have content : r.Prints _ (Quote.mark.recast (fun _ => []) _) (Quote.mark.replace (fun _ => []) _) :=
    (here.get finds .lines).recast (Quote.regular_mark r.quiet) rfl fun _ _ => .nil
  exact (inside.blocks wider content false).bind (inside.blocksGrow _ _) (fun _ => .pure _)
    fun _ blocks => .pure (blocks.enclosed (by decide) (by decide))

theorem isLoose_eq {f : Find Seal Listing.Part} {pattern : Pattern Listing.Part}
    (prints : r.Prints known sheet text) (finds : pattern.Finds Seal.lead sheet f) :
    Listing.isLoose (f.read r.face) = Sheet.isLoose f := by
  have content : Text.occursIn ['\n', '\n'] ((f.read r.face).get .content) =
      Text.occursIn ['\n', '\n'] (Sheet.outline (f.get .content)) :=
    (prints.get finds .content).occursIn_eq (by decide) (by decide)
  have gap := isSome_eq_of_rel (prints.get? finds .gap)
  rw [Listing.isLoose, Sheet.isLoose, gap]
  exact congrArg _ content

theorem itemContent (tables : r.PrintsTable known table references)
    (inside : Inside r known interior drafts) {f : Find Seal Listing.Part}
    (prints : r.Prints known sheet text) (finds : Listing.item.Finds Seal.lead sheet f) :
    r.Refines known (Listing.itemContent ⟨references, limit⟩ interior (f.read r.face))
      (Sheet.itemContent table drafts f) := by
  have content : r.Prints known (Sheet.outdent (f.get .content))
      (CodeBlock.outdent ((f.read r.face).get .content)) :=
    (prints.get finds .content).recast (CodeBlock.regular_indentation r.quiet) rfl fun _ _ => .nil
  rw [Listing.itemContent, Sheet.itemContent, isLoose_eq prints finds]
  split
  · exact inside.blocks (List.Subset.refl _) content true
  · refine (inside.lists (List.Subset.refl _) content).bind (inside.listsGrow _)
      (fun _ => .finish _) fun wider nested => ?_
    refine assuming (.finish _) fun apart => .finish ?_
    have trimmed := nested.trimEnd fun _ => isNewline_of_isPrivate
    have single : r.Prints _ (Sheet.singleSpaced _) (Listing.newlines.replace (fun _ => ['\n']) _) :=
      trimmed.recast (Listing.regular_newlines r.quiet) rfl fun _ _ => .chars _ (by decide)
    exact single.inline apart (tables.mono wider)

theorem itemElement (tables : r.PrintsTable known table references)
    (inside : Inside r known interior drafts) {f : Find Seal Listing.Part}
    (prints : r.Prints known sheet text) (finds : Listing.item.Finds Seal.lead sheet f) :
    r.Refines known (Listing.itemElement ⟨references, limit⟩ interior (f.read r.face))
      (Sheet.itemElement table drafts f) := by
  refine (itemContent tables inside prints finds).bind
    (Render.Grows.itemContent inside.blocksGrow inside.listsGrow _) (fun _ => .pure _)
    fun _ content => ?_
  exact .pure (content.enclosed (by decide) (by decide))

/-- A text is a public character where its sheet is. -/
theorem eq_singleton_iff (prints : r.Prints known sheet text) {c : Char}
    (plain : Unicode.isPrivate c = false) : text = [c] ↔ Sheet.outline sheet = [c] := by
  obtain ⟨rfl, _⟩ := prints
  cases sheet with
  | nil => exact Iff.rfl
  | cons g rest =>
    cases g with
    | sealed s =>
      obtain ⟨d, more, written, here⟩ := r.quiet.first s
      have differs : d ≠ c := Unicode.ne_of_isPrivate here plain
      have other : Seal.lead s ≠ c := Unicode.ne_of_isPrivate (r.quiet.lead s) plain
      simp [Sheet.outline, Glyph.spell, written, differs, other]
    | char d =>
      have outlined : spell (fun s => [Seal.lead s]) rest = [] ↔ rest = [] :=
        Filled.spell_eq_nil fun _ => List.cons_ne_nil _ _
      simp [Sheet.outline, Glyph.spell, r.quiet.filled.spell_eq_nil, outlined]

theorem tagOf_eq (prints : r.Prints known sheet text) :
    Listing.tagOf text = Listing.tagOf (Sheet.outline sheet) := by
  simp only [Listing.tagOf, eq_singleton_iff prints (c := '*') (by decide),
    eq_singleton_iff prints (c := '+') (by decide), eq_singleton_iff prints (c := '-') (by decide)]

theorem isPrivate_of_mem_tagOf (marker : Text) :
    ∀ c ∈ Listing.tagOf marker, Unicode.isPrivate c = false := by
  rw [Listing.tagOf]
  split <;> decide

/-- Between the tags of a list. -/
theorem tagged (items : r.Prints known sheet text) (marker : Text) :
    r.Prints known
      (Glyph.chars ('<' :: Listing.tagOf marker ++ ">\n".toList) ++ sheet ++
        Glyph.chars ("</".toList ++ Listing.tagOf marker ++ ['>']))
      ('<' :: Listing.tagOf marker ++ ">\n".toList ++ text ++
        ("</".toList ++ Listing.tagOf marker ++ ['>'])) := by
  have tag := isPrivate_of_mem_tagOf marker
  have front : ∀ c ∈ '<' :: Listing.tagOf marker ++ ">\n".toList, Unicode.isPrivate c = false := by
    intro c member
    rcases List.mem_append.1 member with opened | closed
    · rcases List.mem_cons.1 opened with rfl | named
      · decide
      · exact tag c named
    · exact (by decide : ∀ c ∈ ">\n".toList, Unicode.isPrivate c = false) c closed
  have back : ∀ c ∈ "</".toList ++ Listing.tagOf marker ++ ['>'], Unicode.isPrivate c = false := by
    intro c member
    rcases List.mem_append.1 member with begun | closed
    · rcases List.mem_append.1 begun with opened | named
      · exact (by decide : ∀ c ∈ "</".toList, Unicode.isPrivate c = false) c opened
      · exact tag c named
    · exact (by decide : ∀ c ∈ ['>'], Unicode.isPrivate c = false) c closed
  exact items.enclosed front back

theorem evenlySpaced (list : r.Prints known sheet text) :
    r.Prints known (Sheet.evenlySpaced sheet) (Listing.evenlySpaced text) := by
  have gaps : r.Prints known _ (Listing.newlines.replace (fun _ => "\n\n\n".toList) text) :=
    list.recast (Listing.regular_newlines r.quiet) rfl fun _ _ => .chars _ (by decide)
  exact gaps.recast (Listing.regular_finalNewlines r.quiet) rfl fun _ _ => .chars _ (by decide)

theorem listElement (tables : r.PrintsTable known table references)
    (inside : Inside r known interior drafts) {pattern : Pattern Listing.Part}
    {f : Find Seal Listing.Part} (prints : r.Prints known sheet text)
    (finds : pattern.Finds Seal.lead sheet f) :
    r.Refines known (Listing.listElement ⟨references, limit⟩ interior (f.read r.face))
      (Sheet.listElement table drafts f) := by
  have even := evenlySpaced (prints.get finds .list)
  have grows : ∀ found, (Listing.itemElement ⟨references, limit⟩ interior found).Grows :=
    Render.Grows.itemElement inside.blocksGrow inside.listsGrow
  refine Refines.bind (redraw (Listing.regular_item r.quiet) rfl even grows ?_)
    (.replaceM _ grows _) (fun _ => .pure _) fun _ items => ?_
  · exact fun wider here found => itemElement (tables.mono wider) (inside.mono wider) here found
  · have whole := tagged items ((f.read r.face).get .marker)
    rw [← tagOf_eq (prints.get finds .marker)]
    exact .pure (by simpa using whole)

theorem lists (tables : r.PrintsTable known table references)
    (inside : Inside r known interior drafts) (prints : r.Prints known sheet text)
    (inList : Bool) :
    r.Refines known (Listing.render ⟨references, limit⟩ interior inList text)
      (Sheet.lists table drafts inList sheet) := by
  have grows : ∀ found, (Listing.listElement ⟨references, limit⟩ interior found).Grows :=
    Render.Grows.listElement inside.blocksGrow inside.listsGrow
  have regular : (if inList then Listing.nestedList else Listing.topList).Regular
      (Listing.outline Seal.lead) r.face := by
    split
    · exact Listing.regular_nestedList r.quiet
    · exact Listing.regular_topList r.quiet
  refine redraw regular rfl prints (fun found => (grows found).bind fun _ => .setAside _)
    fun wider here finds => ?_
  exact (listElement (tables.mono wider) (inside.mono wider) here finds).bind (grows _)
    (fun _ => .setAside _) fun _ element => .setAside element

section Paragraphs

variable {fragments : Fragments}

/-- A piece is a fragment under its key if it is the key of one that was put aside. -/
theorem get?_trimSpace (apart : fragments.NoCollision)
    (prints : r.Prints fragments.history sheet text) :
    (∃ fragment, sheet = [.sealed (.key fragment)] ∧
        fragments.get? text = some (spell r.face fragment) ∧
        ∀ g ∈ fragment, r.Valid fragments.history g) ∨
      (∀ fragment, sheet ≠ [.sealed (.key fragment)]) ∧ fragments.get? text = none := by
  by_cases shaped : ∃ fragment, sheet = [.sealed (.key fragment)]
  · obtain ⟨fragment, rfl⟩ := shaped
    cases prints.valid _ List.mem_cons_self with
    | key kept valid =>
      have written := prints.spelled
      simp only [spell_cons, Glyph.spell, face_key, spell_nil, List.append_nil] at written
      exact .inl ⟨fragment, rfl, by rw [← written, Fragments.get?_key apart kept], valid⟩
  · refine .inr ⟨fun fragment same => shaped ⟨fragment, same⟩, ?_⟩
    cases found : fragments.get? text with
    | none => rfl
    | some other =>
      obtain ⟨entry, first, rfl⟩ := Option.map_eq_some_iff.1 found
      have same : entry.1 = text := by simpa using List.find?_some first
      have keyed := (fragments.keyed entry (List.mem_of_find?_eq_some first)).1
      rw [← same, keyed] at prints
      exact absurd prints.exists_key shaped

theorem paragraph? (apart : fragments.NoCollision)
    (tables : r.PrintsTable fragments.history table references)
    (prints : r.Prints fragments.history sheet text) :
    Option.Rel (r.Prints fragments.history) (Sheet.paragraph? table sheet)
      (Block.paragraph? references fragments text) := by
  have trimmed := prints.trimSpace
  rw [Block.paragraph?, Sheet.paragraph?, trimmed.isEmpty_eq]
  rcases get?_trimSpace apart trimmed with ⟨fragment, same, found, valid⟩ | ⟨other, found⟩
  · rw [same, found]
    exact .some ⟨rfl, valid⟩
  · rw [found]
    split
    · next empty =>
      rw [empty]
      exact .none
    · next fragment same => exact absurd same (other fragment)
    · next filled _ =>
      have some : (Sheet.trimSpace sheet).isEmpty = false := by
        simpa using fun empty => filled empty
      rw [some]
      exact .some ((prints.inline apart tables).enclosed (by decide) (by decide))

theorem forall₂_filterMap {drawn : Sheet → Option Sheet} {written : Text → Option Text}
    {sheets : List Sheet} {texts : List Text} (all : List.Forall₂ (r.Prints known) sheets texts)
    (each : ∀ {sheet text}, r.Prints known sheet text →
      Option.Rel (r.Prints known) (drawn sheet) (written text)) :
    List.Forall₂ (r.Prints known) (sheets.filterMap drawn) (texts.filterMap written) := by
  induction all with
  | nil => exact .nil
  | cons here _ ih =>
    rw [List.filterMap_cons, List.filterMap_cons]
    have related := each here
    revert related
    generalize drawn _ = left
    generalize written _ = right
    rintro (prints | _)
    · exact .cons prints ih
    · exact ih

theorem paragraphs (tables : r.PrintsTable known table references)
    (prints : r.Prints known sheet text) :
    r.Refines known (Block.renderParagraphs references text)
      (Pure.pure (Sheet.paragraphs table sheet)) := by
  intro progress begun apart
  have trimmed : r.Prints progress.fragments.history _ (text.trim Text.isNewline) :=
    (prints.mono begun).trim fun _ => isNewline_of_isPrivate
  have pieces := forall₂_filterMap (trimmed.divide (Block.regular_blankLines r.quiet) rfl)
    (paragraph? apart (tables.mono begun))
  have joined := Prints.intercalate (Prints.chars "\n\n".toList (by decide)) pieces
  exact ⟨rfl, .ok (joined.expand apart).unescape⟩

end Paragraphs

theorem level (tables : r.PrintsTable known table references)
    (inside : Inside r known interior drafts) (prints : r.Prints known sheet text)
    (inList : Bool) :
    r.Refines known (Block.renderLevel ⟨references, limit⟩ interior inList text)
      (Sheet.level table drafts inList sheet) := by
  have atParagraphs := Render.Grows.paragraphs references
  have atHtml := fun text => (Render.Grows.htmlBlocks text).bind atParagraphs
  have quoting := Render.Grows.quotes inside.blocksGrow
  have atQuotes := fun text => (quoting text).bind atHtml
  have atCode := fun text => (Render.Grows.codeBlocks text).bind atQuotes
  have listing : ∀ text, (Listing.render ⟨references, limit⟩ interior inList text).Grows :=
    Render.Grows.lists inside.blocksGrow inside.listsGrow inList
  have atLists := fun text => (listing text).bind atCode
  have atRules := fun text => (Render.Grows.rules text).bind atLists
  have passes : Sheet.level table drafts inList sheet = (do
      let sheet ← Pure.pure (Sheet.markedHeadings table (Sheet.underlinedHeadings table sheet))
      let sheet ← Pure.pure (Sheet.rules sheet)
      let sheet ← Sheet.lists table drafts inList sheet
      let sheet ← Pure.pure (Sheet.codeBlocks sheet)
      let sheet ← Sheet.quotes drafts sheet
      let sheet ← Pure.pure (Sheet.htmlBlocks sheet)
      Pure.pure (Sheet.paragraphs table sheet)) := by
    simp only [pure_bind]
    rfl
  rw [passes]
  refine (headings tables prints).bind (.headings _ _) atRules fun wider prints => ?_
  replace tables := tables.mono wider
  replace inside := inside.mono wider
  refine (rules prints).bind (.rules _) atLists fun wider prints => ?_
  replace tables := tables.mono wider
  replace inside := inside.mono wider
  refine (lists tables inside prints inList).bind (listing _) atCode fun wider prints => ?_
  replace tables := tables.mono wider
  replace inside := inside.mono wider
  refine (codeBlocks prints).bind (.codeBlocks _) atQuotes fun wider prints => ?_
  replace tables := tables.mono wider
  replace inside := inside.mono wider
  refine (quotes inside prints).bind (quoting _) atHtml fun wider prints => ?_
  replace tables := tables.mono wider
  refine (htmlBlocks prints).bind (.htmlBlocks _) atParagraphs fun wider prints => ?_
  exact paragraphs (tables.mono wider) prints

theorem inside_interior (tables : r.PrintsTable known table references) (left : Nat) :
    Inside r known (Block.interior ⟨references, limit⟩ left) (Sheet.interior table limit left) := by
  have grows := Render.Grows.interior ⟨references, limit⟩ left
  induction left generalizing known with
  | zero =>
    exact ⟨grows.1, grows.2, fun _ _ _ => (giveOut _).nested _, fun _ _ => (giveOut _).nested _⟩
  | succ left ih =>
    have deeper := ih tables (Render.Grows.interior _ _)
    exact ⟨grows.1, grows.2,
      fun wider prints inList =>
        (level (tables.mono wider) (deeper.mono wider) prints inList).nested _,
      fun wider prints => (lists (tables.mono wider) (deeper.mono wider) prints true).nested _⟩

end Refines

end Renaming

end Markdown
