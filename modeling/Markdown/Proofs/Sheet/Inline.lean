import Markdown.Proofs.Sheet.Reference

set_option autoImplicit false

namespace Markdown

namespace Sheet

def codeElement (code : Sheet) : Sheet :=
  Glyph.chars "<code>".toList ++ protect (restore code) ++ Glyph.chars "</code>".toList

def codeSpans (sheet : Sheet) : Sheet :=
  CodeSpan.codeSpan.recast (fun found => codeElement (found.get .code)) sheet

def titleAttribute : Option Sheet → Sheet
  | none => []
  | some title =>
    if title.isEmpty then []
    else Glyph.chars " title=\"".toList ++ attributeValue title ++ Glyph.chars "\"".toList

def anchor (content : Sheet) (target : Target) : Sheet :=
  Glyph.chars "<a href=\"".toList ++ attributeValue target.url ++ Glyph.chars "\"".toList ++
    titleAttribute target.title ++ Glyph.chars ">".toList ++ content ++ Glyph.chars "</a>".toList

def image (alt : Sheet) (target : Target) : Sheet :=
  Glyph.chars "<img src=\"".toList ++ attributeValue target.url ++ Glyph.chars "\" alt=\"".toList ++
    attributeValue alt ++ Glyph.chars "\"".toList ++ titleAttribute target.title ++
      Glyph.chars ">".toList

/-- The target of a usage: its label or, if that is blank, its text is looked up. -/
noncomputable def usedTarget (table : Table) (found : Find Seal Link.Part) : Option Target :=
  let label := trimSpace (found.get .label)
  table.lookup (if label.isEmpty then found.get .text else label)

/-- A usage by reference drawn as an element, or left as it is if its label is unknown. -/
noncomputable def byReference (table : Table) (draw : Sheet → Target → Sheet)
    (found : Find Seal Link.Part) : Sheet :=
  match usedTarget table found with
  | some target => draw (found.get .text) target
  | none => found.glyphs

def byTarget (draw : Sheet → Target → Sheet) (found : Find Seal Link.Part) : Sheet :=
  draw (found.get .text) ⟨found.get .url, found.get? .title⟩

/-- The address that is shown for a link to it: a mail address goes without its scheme. -/
def shownAddress (url : Sheet) : Sheet :=
  if "mailto:".toList.isPrefixOf (outline (lower url)) then url.drop 7 else url

def addressAnchor (found : Find Seal Link.Part) : Sheet :=
  let url := found.get .url
  Glyph.chars "<a href=\"".toList ++ attributeValue url ++ Glyph.chars "\">".toList ++
    attributeValue (shownAddress url) ++ Glyph.chars "</a>".toList

noncomputable def links (table : Table) (sheet : Sheet) : Sheet :=
  Link.autolink.recast addressAnchor
    (Link.inlineLink.recast (byTarget anchor)
      (Link.referenceLink.recast (byReference table anchor) sheet))

noncomputable def images (table : Table) (sheet : Sheet) : Sheet :=
  Link.inlineImage.recast (byTarget image)
    (Link.referenceImage.recast (byReference table image) sheet)

def strong (found : Find Seal Emphasis.Part) : Sheet :=
  Glyph.chars "<strong>".toList ++ found.get .content ++ Glyph.chars "</strong>".toList

def plain (found : Find Seal Emphasis.Part) : Sheet :=
  Glyph.chars "<em>".toList ++ found.get .content ++ Glyph.chars "</em>".toList

def emphasis (sheet : Sheet) : Sheet :=
  Emphasis.plainLines.recast plain (Emphasis.plainStars.recast plain
    (Emphasis.strongLines.recast strong (Emphasis.strongStars.recast strong sheet)))

def breaks (sheet : Sheet) : Sheet :=
  Inline.hardBreak.recast (fun _ => Glyph.chars "<br>\n".toList) sheet

/-- The sheet of one block with its inline markup rendered. -/
noncomputable def inline (table : Table) (sheet : Sheet) : Sheet :=
  unescape (breaks (emphasis (images table (links table (codeSpans sheet)))))

end Sheet

namespace Renaming

variable {r : Renaming} {known : List Text} {sheet : Sheet} {text : Text}

/-- Characters at the front of a text in small letters are characters at the front of its sheet. -/
theorem exists_chars_of_isPrefixOf_lowerBehind {p : Text}
    (plain : ∀ c ∈ p, Unicode.isPrivate c = false ∧ c ≠ '\u0307') {sheet : Sheet} {before : Text}
    (front : p.isPrefixOf (Unicode.lowerBehind before (spell r.face sheet)) = true) :
    ∃ u rest, sheet = Glyph.chars u ++ rest ∧ u.length = p.length := by
  induction p generalizing sheet before with
  | nil => exact ⟨[], sheet, rfl, rfl⟩
  | cons c more ih =>
    have later := @ih fun d member => plain d (List.mem_cons_of_mem _ member)
    cases sheet with
    | nil => simp [Unicode.lowerBehind] at front
    | cons g rest =>
      cases g with
      | sealed s =>
        obtain ⟨d, tail, written, here⟩ := r.quiet.first s
        rw [spell_cons, Glyph.spell, written, List.cons_append, Unicode.lowerBehind,
          lowerBetween_of_manner (.inl here), List.singleton_append, List.isPrefixOf,
          Bool.and_eq_true] at front
        have same : c = d := by simpa using front.1
        rw [← same, (plain c List.mem_cons_self).1] at here
        cases here
      | char d =>
        rw [spell_cons, Glyph.spell, List.singleton_append, Unicode.lowerBehind] at front
        have single : ∀ e, Unicode.lowerBetween before d (spell r.face rest) = [e] →
            ∃ u tail, Glyph.char d :: rest = Glyph.chars u ++ tail ∧
              u.length = (c :: more).length := by
          intro e one
          rw [one, List.singleton_append, List.isPrefixOf, Bool.and_eq_true] at front
          obtain ⟨u, tail, rfl, length⟩ := later front.2
          exact ⟨d :: u, tail, rfl, by rw [List.length_cons, length, List.length_cons]⟩
        by_cases dotted : d = '\u0130'
        · subst dotted
          have two : Unicode.lowerBetween before '\u0130' (spell r.face rest) = ['i', '\u0307'] := by
            simp [Unicode.lowerBetween]
          rw [two] at front
          cases more with
          | nil => exact ⟨['\u0130'], rest, rfl, rfl⟩
          | cons e more =>
            simp only [List.cons_append, List.nil_append, List.isPrefixOf, Bool.and_eq_true,
              beq_iff_eq] at front
            exact absurd front.2.1 (plain e (by simp)).2
        · by_cases final : d = '\u03a3'
          · subst final
            rw [Unicode.lowerBetween, if_pos (by decide)] at single
            split at single
            · exact single _ rfl
            · exact single _ rfl
          · refine single (Unicode.lowerChar d) ?_
            rw [Unicode.lowerBetween, if_neg (by simpa using final), if_neg (by simpa using dotted)]

namespace Prints

theorem codeElement (prints : r.Prints known sheet text) :
    r.Prints known (Sheet.codeElement sheet) (CodeSpan.element text) :=
  prints.restore.protect.enclosed (by decide) (by decide)

theorem codeSpans (prints : r.Prints known sheet text) :
    r.Prints known (Sheet.codeSpans sheet) (CodeSpan.render text) :=
  prints.recast (CodeSpan.regular r.quiet) rfl fun _ finds => (prints.get finds .code).codeElement

theorem titleAttribute {title : Option Sheet} {written : Option Text}
    (prints : Option.Rel (r.Prints known) title written) :
    r.Prints known (Sheet.titleAttribute title) (Link.titleAttribute written) := by
  cases prints with
  | none => exact .nil
  | some here =>
    rw [Sheet.titleAttribute, Link.titleAttribute, here.isEmpty_eq]
    split
    · exact .nil
    · exact here.attributeValue.enclosed (by decide) (by decide)

theorem anchor {target : Sheet.Target} {reference : Reference}
    (prints : r.Prints known sheet text) (aim : r.PrintsTarget known target reference) :
    r.Prints known (Sheet.anchor sheet target) (Link.anchor text reference) :=
  ((((aim.url.attributeValue.enclosed (by decide) (by decide)).append
    (titleAttribute aim.title)).append (chars _ (by decide))).append prints).append
      (chars _ (by decide))

theorem image {target : Sheet.Target} {reference : Reference}
    (prints : r.Prints known sheet text) (aim : r.PrintsTarget known target reference) :
    r.Prints known (Sheet.image sheet target) (Link.image text reference) :=
  ((((aim.url.attributeValue.enclosed (by decide) (by decide)).append
    prints.attributeValue).append (chars _ (by decide))).append (titleAttribute aim.title)).append
      (chars _ (by decide))

section Usages

variable {table : Sheet.Table} {references : ReferenceTable} {pattern : Pattern Link.Part}
  {f : Find Seal Link.Part} {draw : Sheet → Sheet.Target → Sheet}
  {drawn : Text → Reference → Text}

theorem usedTarget (apart : Fragments.Collisionless known)
    (tables : r.PrintsTable known table references) (prints : r.Prints known sheet text)
    (finds : pattern.Finds Seal.lead sheet f) :
    Option.Rel (r.PrintsTarget known) (Sheet.usedTarget table f)
      (Link.referenceOf references (f.read r.face)) := by
  have label := (prints.get finds .label).trimSpace
  rw [Sheet.usedTarget, Link.referenceOf]
  refine tables.lookup apart ?_
  rw [label.isEmpty_eq]
  split
  · exact prints.get finds .text
  · exact label

theorem byReference (apart : Fragments.Collisionless known)
    (tables : r.PrintsTable known table references) (prints : r.Prints known sheet text)
    (finds : pattern.Finds Seal.lead sheet f)
    (each : ∀ {content written target reference}, r.Prints known content written →
      r.PrintsTarget known target reference →
      r.Prints known (draw content target) (drawn written reference)) :
    r.Prints known (Sheet.byReference table draw f)
      (Link.byReference references drawn (f.read r.face)) := by
  have found := usedTarget apart tables prints finds
  rw [Sheet.byReference, Link.byReference]
  generalize Sheet.usedTarget table f = target at found ⊢
  generalize Link.referenceOf references (f.read r.face) = reference at found ⊢
  cases found with
  | none => exact prints.found finds
  | some aim => exact each (prints.get finds .text) aim

theorem byTarget (prints : r.Prints known sheet text) (finds : pattern.Finds Seal.lead sheet f)
    (each : ∀ {content written target reference}, r.Prints known content written →
      r.PrintsTarget known target reference →
      r.Prints known (draw content target) (drawn written reference)) :
    r.Prints known (Sheet.byTarget draw f) (Link.byTarget drawn (f.read r.face)) :=
  each (prints.get finds .text) ⟨prints.get finds .url, prints.get? finds .title⟩

theorem shownAddress (prints : r.Prints known sheet text) :
    r.Prints known (Sheet.shownAddress sheet) (Link.shownAddress text) := by
  have front := prints.lower.isPrefixOf_eq "mailto:".toList (by decide)
  rw [Sheet.shownAddress, Link.shownAddress, ← front]
  split
  · next mail =>
    obtain ⟨rfl, valid⟩ := prints
    obtain ⟨u, rest, rfl, length⟩ := exists_chars_of_isPrefixOf_lowerBehind (by decide) mail
    have seven : u.length = 7 := length
    have characters : (Glyph.chars u : Sheet).length = 7 := by rw [Glyph.chars, List.length_map, seven]
    rw [spell_append, spell_chars, ← seven, List.drop_left, seven, ← characters, List.drop_left]
    exact ⟨rfl, fun g member => valid g (List.mem_append_right _ member)⟩
  · exact prints

theorem addressAnchor (prints : r.Prints known sheet text)
    (finds : pattern.Finds Seal.lead sheet f) :
    r.Prints known (Sheet.addressAnchor f) (Link.addressAnchor (f.read r.face)) := by
  have url := prints.get finds .url
  exact ((url.attributeValue.enclosed (by decide) (by decide)).append
    url.shownAddress.attributeValue).append (chars _ (by decide))

theorem links (apart : Fragments.Collisionless known)
    (tables : r.PrintsTable known table references) (prints : r.Prints known sheet text) :
    r.Prints known (Sheet.links table sheet) (Link.renderLinks references text) := by
  have references := prints.recast (Link.regular_referenceLink r.quiet) rfl
    fun _ finds => prints.byReference apart tables finds fun content aim => content.anchor aim
  have inlines := references.recast (Link.regular_inlineLink r.quiet) rfl
    fun _ finds => references.byTarget finds fun content aim => content.anchor aim
  exact inlines.recast (Link.regular_autolink r.quiet) rfl fun _ finds => inlines.addressAnchor finds

theorem images (apart : Fragments.Collisionless known)
    (tables : r.PrintsTable known table references) (prints : r.Prints known sheet text) :
    r.Prints known (Sheet.images table sheet) (Link.renderImages references text) := by
  have references := prints.recast (Link.regular_referenceImage r.quiet) rfl
    fun _ finds => prints.byReference apart tables finds fun content aim => content.image aim
  exact references.recast (Link.regular_inlineImage r.quiet) rfl
    fun _ finds => references.byTarget finds fun content aim => content.image aim

end Usages

theorem strong {pattern : Pattern Emphasis.Part} {f : Find Seal Emphasis.Part}
    (prints : r.Prints known sheet text) (finds : pattern.Finds Seal.lead sheet f) :
    r.Prints known (Sheet.strong f) (Emphasis.strong (f.read r.face)) :=
  (prints.get finds .content).enclosed (by decide) (by decide)

theorem plain {pattern : Pattern Emphasis.Part} {f : Find Seal Emphasis.Part}
    (prints : r.Prints known sheet text) (finds : pattern.Finds Seal.lead sheet f) :
    r.Prints known (Sheet.plain f) (Emphasis.plain (f.read r.face)) :=
  (prints.get finds .content).enclosed (by decide) (by decide)

theorem emphasis (prints : r.Prints known sheet text) :
    r.Prints known (Sheet.emphasis sheet) (Emphasis.render text) := by
  have stars := prints.recast (Emphasis.regular_strongStars r.quiet) rfl
    fun _ finds => prints.strong finds
  have lines := stars.recast (Emphasis.regular_strongLines r.quiet) rfl
    fun _ finds => stars.strong finds
  have single := lines.recast (Emphasis.regular_plainStars r.quiet) rfl
    fun _ finds => lines.plain finds
  exact single.recast (Emphasis.regular_plainLines r.quiet) rfl fun _ finds => single.plain finds

theorem breaks (prints : r.Prints known sheet text) :
    r.Prints known (Sheet.breaks sheet) (Inline.renderBreaks text) :=
  prints.recast (Inline.regular_hardBreak r.quiet) rfl fun _ _ => chars _ (by decide)

/-- Inline markup is rendered in texts as it is on sheets. -/
theorem inline (apart : Fragments.Collisionless known) {table : Sheet.Table}
    {references : ReferenceTable} (tables : r.PrintsTable known table references)
    (prints : r.Prints known sheet text) :
    r.Prints known (Sheet.inline table sheet) (Inline.render references text) :=
  (((prints.codeSpans.links apart tables).images apart tables).emphasis.breaks).unescape

end Prints

end Renaming

end Markdown
