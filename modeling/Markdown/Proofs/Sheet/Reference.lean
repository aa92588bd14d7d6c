import Mathlib.Data.List.Forall2
import Markdown.Proofs.Glyph.Only
import Markdown.Proofs.Sheet.Decoding

set_option autoImplicit false

namespace Markdown

namespace Sheet

/-- The small form of a sheet that stands behind a reversed sheet. -/
def lowerBehind : Sheet → Sheet → Sheet
  | _, [] => []
  | behind, .char c :: rest =>
    Glyph.chars (Unicode.lowerBetween (spellBack (fun s => [Seal.lead s]) behind) c (outline rest))
      ++ lowerBehind (.char c :: behind) rest
  | behind, .sealed s :: rest => .sealed s :: lowerBehind (.sealed s :: behind) rest

def lower (sheet : Sheet) : Sheet :=
  lowerBehind [] sheet

/-- A label in small letters, its words separated by single spaces. -/
def normalizeLabel (label : Sheet) : Sheet :=
  (Glyph.chars [' ']).intercalate (words (lower label))

/-- What a label refers to. -/
structure Target where
  url : Sheet
  title : Option Sheet

abbrev Table := List (Sheet × Target)

open Classical in
noncomputable def Table.lookup (table : Table) (label : Sheet) : Option Target :=
  (table.find? fun entry => entry.1 = normalizeLabel label).map (·.2)

/-- The table with one more definition, unless the label has one already. -/
noncomputable def Table.record (table : Table) (label : Sheet) (target : Target) : Table :=
  if (table.lookup label).isSome then table else table ++ [(normalizeLabel label, target)]

def targetOf (found : Find Seal Definition.Part) : Target where
  url := found.get .url
  title := (found.get? .title).map fun title => title.tail.dropLast

noncomputable def extractTable (sheet : Sheet) : Table :=
  ((Definition.definitionLine.pieces Seal.lead sheet).filterMap Piece.find?).foldl
    (fun table found => Table.record table (found.get .label) (targetOf found)) []

def withoutDefinitions (sheet : Sheet) : Sheet :=
  Definition.definitionLine.recast (fun _ => []) sheet

end Sheet

namespace Renaming

variable {r : Renaming} {known : List Text} {sheet : Sheet} {text : Text}

theorem meetsCased_of_isPrivate {c : Char} (here : Unicode.isPrivate c = true) (rest : Text) :
    Unicode.meetsCased (c :: rest) = false := by
  have seen : Unicode.inRanges Unicode.caseIgnorableRanges c = false :=
    Unicode.inRanges_eq_false (by decide +kernel) here
  have caseless : Unicode.inRanges Unicode.casedRanges c = false :=
    Unicode.inRanges_eq_false (by decide +kernel) here
  simp [Unicode.meetsCased, seen, caseless]

/-- Letters beside a seal are not seen through it, and the seal itself has no case. -/
theorem meetsCased_spell (sheet : Sheet) :
    Unicode.meetsCased (spell r.face sheet) = Unicode.meetsCased (Sheet.outline sheet) := by
  induction sheet with
  | nil => rfl
  | cons g rest ih =>
    cases g with
    | char c =>
      by_cases ignorable : Unicode.inRanges Unicode.caseIgnorableRanges c = true
      · simpa [Unicode.meetsCased, Sheet.outline, Glyph.spell, ignorable] using ih
      · simp [Unicode.meetsCased, Sheet.outline, Glyph.spell, ignorable]
    | sealed s =>
      obtain ⟨c, more, written, here⟩ := r.quiet.first s
      rw [spell_cons, Glyph.spell, written, Sheet.outline, spell_cons, Glyph.spell]
      exact (meetsCased_of_isPrivate here _).trans (meetsCased_of_isPrivate (r.quiet.lead s) _).symm

theorem meetsCased_spellBack (behind : Sheet) :
    Unicode.meetsCased (spellBack r.face behind) =
      Unicode.meetsCased (spellBack (fun s => [Seal.lead s]) behind) := by
  induction behind with
  | nil => rfl
  | cons g rest ih =>
    cases g with
    | char c =>
      by_cases ignorable : Unicode.inRanges Unicode.caseIgnorableRanges c = true
      · simpa [Unicode.meetsCased, Glyph.spell, ignorable] using ih
      · simp [Unicode.meetsCased, Glyph.spell, ignorable]
    | sealed s =>
      obtain ⟨front, c, written, here⟩ := r.quiet.last s
      rw [spellBack_cons, Glyph.spell, written, spellBack_cons, Glyph.spell, List.reverse_append]
      exact (meetsCased_of_isPrivate here _).trans (meetsCased_of_isPrivate (r.quiet.lead s) _).symm

theorem lowerBetween_of_manner {c : Char}
    (manner : Unicode.isPrivate c = true ∨ c ∈ digestDigits) (before after : Text) :
    Unicode.lowerBetween before c after = [c] := by
  have small : Unicode.lowerChar c = c ∧ c ≠ '\u03a3' ∧ c ≠ '\u0130' := by
    rcases manner with here | digit
    · exact ⟨Unicode.lowerChar_of_isPrivate here, Unicode.ne_of_isPrivate here (by decide),
        Unicode.ne_of_isPrivate here (by decide)⟩
    · have all : ∀ d ∈ digestDigits, Unicode.lowerChar d = d ∧ d ≠ '\u03a3' ∧ d ≠ '\u0130' := by
        decide
      exact all c digit
  simp [Unicode.lowerBetween, small.1, small.2.1, small.2.2]

theorem lowerBehind_append {u : Text}
    (manner : ∀ c ∈ u, Unicode.isPrivate c = true ∨ c ∈ digestDigits) (before rest : Text) :
    Unicode.lowerBehind before (u ++ rest) = u ++ Unicode.lowerBehind (u.reverse ++ before) rest := by
  induction u generalizing before with
  | nil => rfl
  | cons c more ih =>
    rw [List.cons_append, Unicode.lowerBehind, lowerBetween_of_manner (manner c List.mem_cons_self),
      ih fun d member => manner d (List.mem_cons_of_mem _ member)]
    simp

/-- The small form of a free character is free. -/
theorem Free.of_mem_lowerBetween {c : Char} (free : r.Free c) {before after : Text} {d : Char}
    (member : d ∈ Unicode.lowerBetween before c after) : r.Free d := by
  rw [Unicode.lowerBetween] at member
  split at member
  · split at member <;>
    · obtain rfl := List.mem_singleton.1 member
      exact r.free_of_not_isPrivate (by decide)
  · split at member
    · rcases List.mem_cons.1 member with rfl | last
      · exact r.free_of_not_isPrivate (by decide)
      · obtain rfl := List.mem_singleton.1 last
        exact r.free_of_not_isPrivate (by decide)
    · obtain rfl := List.mem_singleton.1 member
      by_cases here : Unicode.isPrivate (Unicode.lowerChar c) = true
      · rw [Unicode.lowerChar_of_isPrivate (Unicode.isPrivate_of_lowerChar here)]
        exact free
      · exact r.free_of_not_isPrivate (Bool.eq_false_iff.2 here)

namespace Prints

theorem free_chars {text : Text} (free : ∀ c ∈ text, r.Free c) :
    r.Prints known (Glyph.chars text) text where
  spelled := spell_chars r.face text
  valid g member := by
    obtain ⟨c, inside, rfl⟩ := Glyph.mem_chars.1 member
    exact .char (free c inside)

theorem lowerBehind (behind : Sheet) (prints : r.Prints known sheet text) :
    r.Prints known (Sheet.lowerBehind behind sheet)
      (Unicode.lowerBehind (spellBack r.face behind) text) := by
  obtain ⟨rfl, valid⟩ := prints
  induction sheet generalizing behind with
  | nil => exact .nil
  | cons g rest ih =>
    have later := ih (g :: behind) fun h member => valid h (List.mem_cons_of_mem _ member)
    have here := valid g List.mem_cons_self
    cases g with
    | sealed s =>
      rw [spell_cons, Glyph.spell, lowerBehind_append (r.quiet.all s)]
      exact later.cons here
    | char c =>
      cases here with
      | char free =>
        have same : Unicode.lowerBetween (spellBack r.face behind) c (spell r.face rest) =
            Unicode.lowerBetween (spellBack (fun s => [Seal.lead s]) behind) c
              (Sheet.outline rest) := by
          rw [Unicode.lowerBetween, Unicode.lowerBetween, meetsCased_spell, meetsCased_spellBack]
        rw [spell_cons, Glyph.spell, List.singleton_append, Unicode.lowerBehind, same]
        exact (free_chars fun d member => free.of_mem_lowerBetween member).append later

theorem lower (prints : r.Prints known sheet text) :
    r.Prints known (Sheet.lower sheet) (Unicode.lower text) :=
  prints.lowerBehind []

theorem splitAt_append {separates : Char → Bool} {u : Text}
    (within : ∀ c ∈ u, separates c = false) {rest first : Text} {more : List Text}
    (pieces : Text.splitAt separates rest = first :: more) :
    Text.splitAt separates (u ++ rest) = (u ++ first) :: more := by
  induction u with
  | nil => exact pieces
  | cons c u ih =>
    rw [List.cons_append, Text.splitAt, within c List.mem_cons_self,
      ih fun d member => within d (List.mem_cons_of_mem _ member)]
    rfl

theorem splitAt {separates : Char → Bool}
    (hidden : ∀ c, Unicode.isPrivate c = true → separates c = false)
    (digits : ∀ c ∈ digestDigits, separates c = false) (prints : r.Prints known sheet text) :
    List.Forall₂ (r.Prints known) (Sheet.splitAt separates sheet) (Text.splitAt separates text) := by
  obtain ⟨rfl, valid⟩ := prints
  induction sheet with
  | nil => exact .cons .nil .nil
  | cons g rest ih =>
    have later := ih fun h member => valid h (List.mem_cons_of_mem _ member)
    have here := valid g List.mem_cons_self
    obtain ⟨first, more, pieces⟩ :=
      List.exists_cons_of_ne_nil (Text.splitAt_ne_nil separates (spell r.face rest))
    rw [pieces] at later
    generalize parts : Sheet.splitAt separates rest = sheets at later
    cases later with
    | @cons head _ tail _ front back =>
      have still : g.fits Seal.lead separates = false →
          (∀ c ∈ g.spell r.face, separates c = false) →
          List.Forall₂ (r.Prints known) (Sheet.splitAt separates (g :: rest))
            (Text.splitAt separates (spell r.face (g :: rest))) := by
        intro fits within
        rw [spell_cons, splitAt_append within pieces, Sheet.splitAt, fits, parts]
        exact .cons (front.cons here) back
      cases g with
      | sealed s =>
        exact still (hidden _ (r.quiet.lead s))
          fun c inside => (r.quiet.all s c inside).elim (hidden c) (digits c)
      | char c =>
        by_cases apart : separates c = true
        · have fits : (Glyph.char c : Glyph Seal).fits Seal.lead separates = true := apart
          rw [spell_cons, Glyph.spell, List.singleton_append, Text.splitAt, if_pos apart, pieces,
            Sheet.splitAt, if_pos fits, parts]
          exact .cons .nil (.cons front back)
        · exact still (Bool.eq_false_iff.2 apart) (by simpa [Glyph.spell] using apart)

theorem words (prints : r.Prints known sheet text) :
    List.Forall₂ (r.Prints known) (Sheet.words sheet) (Text.words text) := by
  have all := prints.splitAt (fun _ => Unicode.isSpace_of_isPrivate) (by decide)
  rw [Sheet.words, Text.words]
  generalize Sheet.splitAt Unicode.isSpace sheet = sheets at all ⊢
  generalize Text.splitAt Unicode.isSpace text = texts at all ⊢
  induction all with
  | nil => exact .nil
  | @cons piece written _ _ here _ ih =>
    rw [List.filter_cons, List.filter_cons, here.isEmpty_eq]
    split
    · exact .cons here ih
    · exact ih

theorem intercalate {separator : Sheet} {between : Text} {sheets : List Sheet} {texts : List Text}
    (gap : r.Prints known separator between) (all : List.Forall₂ (r.Prints known) sheets texts) :
    r.Prints known (separator.intercalate sheets) (between.intercalate texts) := by
  induction all with
  | nil => exact .nil
  | cons here rest ih =>
    cases rest with
    | nil => simpa using here
    | cons next rest =>
      rw [List.intercalate_cons_cons, List.intercalate_cons_cons]
      exact (here.append gap).append ih

theorem normalizeLabel (prints : r.Prints known sheet text) :
    r.Prints known (Sheet.normalizeLabel sheet) (Markdown.normalizeLabel text) :=
  (chars [' '] (by decide)).intercalate prints.lower.words

end Prints

variable (r known) in
/-- The reference is the target in characters. -/
structure PrintsTarget (target : Sheet.Target) (reference : Reference) : Prop where
  url : r.Prints known target.url reference.url
  title : Option.Rel (r.Prints known) target.title reference.title

variable (r known) in
/-- The references are the targets of the table in characters, in the same order. -/
def PrintsTable (table : Sheet.Table) (references : ReferenceTable) : Prop :=
  List.Forall₂ (fun entry written =>
    r.Prints known entry.1 written.1 ∧ r.PrintsTarget known entry.2 written.2)
    table references.entries

theorem PrintsTarget.mono {more : List Text} (wider : known ⊆ more) {target : Sheet.Target}
    {reference : Reference} (prints : r.PrintsTarget known target reference) :
    r.PrintsTarget more target reference := by
  refine ⟨prints.url.mono wider, ?_⟩
  have title := prints.title
  generalize target.title = shown at title ⊢
  generalize reference.title = written at title ⊢
  cases title with
  | none => exact .none
  | some title => exact .some (title.mono wider)

theorem PrintsTable.mono {more : List Text} (wider : known ⊆ more) {table : Sheet.Table}
    {references : ReferenceTable} (prints : r.PrintsTable known table references) :
    r.PrintsTable more table references :=
  List.Forall₂.imp (fun _ _ both => ⟨both.1.mono wider, both.2.mono wider⟩) prints

/-- A label finds on sheets what it finds in texts. -/
theorem PrintsTable.lookup (apart : Fragments.Collisionless known) {table : Sheet.Table}
    {references : ReferenceTable} (prints : r.PrintsTable known table references)
    {label : Sheet} {written : Text} (named : r.Prints known label written) :
    Option.Rel (r.PrintsTarget known) (table.lookup label) (references.lookup written) := by
  have wanted := named.normalizeLabel
  rw [Sheet.Table.lookup, ReferenceTable.lookup]
  rw [PrintsTable] at prints
  generalize references.entries = entries at prints ⊢
  induction prints with
  | nil => exact .none
  | @cons entry other _ _ both _ ih =>
    have agree := both.1.text_inj apart wanted
    by_cases same : entry.1 = Sheet.normalizeLabel label
    · have here : (other.1 == normalizeLabel written) = true := by simpa using agree.2 same
      simp only [List.find?_cons, same, decide_true, here]
      exact .some both.2
    · have here : (other.1 == normalizeLabel written) = false := by simpa using mt agree.1 same
      simp only [List.find?_cons, same, decide_false, here]
      exact ih

theorem isSome_eq_of_rel {α β : Type} {relation : α → β → Prop} {first : Option α}
    {second : Option β} (related : Option.Rel relation first second) :
    first.isSome = second.isSome := by
  cases related <;> rfl

theorem PrintsTable.record (apart : Fragments.Collisionless known) {table : Sheet.Table}
    {references : ReferenceTable} (prints : r.PrintsTable known table references)
    {label : Sheet} {written : Text} (named : r.Prints known label written)
    {target : Sheet.Target} {reference : Reference}
    (drawn : r.PrintsTarget known target reference) (duplicates : List Text) :
    r.PrintsTable known (table.record label target)
      (Extraction.record references duplicates written reference).1 := by
  have agree := isSome_eq_of_rel (prints.lookup apart named)
  rw [Sheet.Table.record, Extraction.record, ReferenceTable.contains, agree]
  split
  · exact prints
  · next new =>
    rw [ReferenceTable.define, ReferenceTable.contains, if_neg new]
    exact List.rel_append prints (.cons ⟨named.normalizeLabel, drawn⟩ .nil)

theorem spots_char {slot : Type} [DecidableEq slot] {c : Char}
    (plain : Unicode.isPrivate c = false) {spot later : Spot Seal slot}
    (member : later ∈ (Pattern.char c : Pattern slot).spots Seal.lead spot) :
    spot.Passes [.char c] later := by
  obtain ⟨g, passes, _⟩ := Pattern.spots_one member
  have same := (Pattern.only_char plain).between member
  rw [passes.between_eq] at same
  rwa [same g List.mem_cons_self] at passes

/-- A title stands between two characters. -/
def Bracketed (glyphs : Sheet) : Prop :=
  ∃ first middle last, glyphs = .char first :: (middle ++ [Glyph.char last])

theorem bracketed_titleBetween {first last : Char} (plainFirst : Unicode.isPrivate first = false)
    (plainLast : Unicode.isPrivate last = false) {spot later : Spot Seal Definition.Part}
    (member : later ∈ (Definition.titleBetween first last).spots Seal.lead spot) :
    Bracketed (spot.between later) := by
  obtain ⟨begun, opened, rest⟩ := List.mem_flatMap.1 member
  obtain ⟨ended, run, closed⟩ := List.mem_flatMap.1 rest
  obtain ⟨middle, passes⟩ := Pattern.exists_passes_of_mem_spots run
  have whole := ((spots_char plainFirst opened).trans passes).trans (spots_char plainLast closed)
  exact ⟨first, middle, last, by simpa using whole.between_eq⟩

theorem bracketed_title {spot later : Spot Seal Definition.Part}
    (member : later ∈ Definition.title.spots Seal.lead spot) : Bracketed (spot.between later) := by
  rcases List.mem_append.1 member with double | rest
  · exact bracketed_titleBetween (by decide) (by decide) double
  · rcases List.mem_append.1 rest with round | single
    · exact bracketed_titleBetween (by decide) (by decide) round
    · exact bracketed_titleBetween (by decide) (by decide) single

theorem captures_definitionLine :
    Definition.definitionLine.Captures Seal.lead fun name glyphs =>
      name = Definition.Part.title → Bracketed glyphs := by
  have titles : ∀ spot, ∀ later ∈ Definition.title.spots Seal.lead spot,
      Definition.Part.title = .title → Bracketed (spot.between later) :=
    fun _ _ member _ => bracketed_title member
  simpa [Pattern.Captures, Definition.definitionLine, Definition.definition, Pattern.sequence,
    Pattern.optional, Pattern.lineStart, Pattern.char, Pattern.upTo, Pattern.many1, Pattern.few1,
    Pattern.literal, Pattern.lineEnd, Definition.titleGap, Pattern.choice, Definition.title,
    Definition.titleBetween] using titles

theorem tail_dropLast_of_bracketed {glyphs : Sheet} (bracketed : Bracketed glyphs) :
    (spell r.face glyphs).tail.dropLast = spell r.face glyphs.tail.dropLast := by
  obtain ⟨first, middle, last, rfl⟩ := bracketed
  simp [Glyph.spell]

variable {f : Find Seal Definition.Part}

theorem Prints.target (prints : r.Prints known sheet text)
    (finds : Definition.definitionLine.Finds Seal.lead sheet f) :
    r.PrintsTarget known (Sheet.targetOf f) (Definition.reference (f.read r.face)) := by
  refine ⟨prints.get finds .url, ?_⟩
  rw [Sheet.targetOf, Definition.reference, Find.read_get?]
  cases here : f.get? .title with
  | none => exact .none
  | some title =>
    have bracketed := captures_definitionLine.get? finds here rfl
    have within : title.tail.dropLast ⊆ sheet := by
      refine List.Subset.trans ?_ (finds.get?_infix here).subset
      exact List.Subset.trans (List.dropLast_subset _) (List.tail_suffix _).subset
    have inner := prints.part within
    rw [← tail_dropLast_of_bracketed bracketed] at inner
    exact .some inner

theorem regular_definitionLine (r : Renaming) :
    Definition.definitionLine.Regular (.free Seal.lead) r.face :=
  Definition.regular_definitionLine r.quiet

theorem Prints.withoutDefinitions (prints : r.Prints known sheet text) :
    r.Prints known (Sheet.withoutDefinitions sheet)
      (Definition.definitionLine.replace (fun _ => []) text) :=
  prints.recast (regular_definitionLine r) rfl fun _ _ => .nil

theorem Prints.extractTable (apart : Fragments.Collisionless known)
    (prints : r.Prints known sheet text) :
    r.PrintsTable known (Sheet.extractTable sheet)
      (ReferenceTable.empty.extract text).table := by
  have all : ∀ f ∈ (Definition.definitionLine.pieces Seal.lead sheet).filterMap Piece.find?,
      Definition.definitionLine.Finds Seal.lead sheet f := fun f member =>
    Pattern.finds_of_mem_pieces (Piece.mem_filterMap_find?.1 member)
  have spelled := Pattern.matches?_spell (regular_definitionLine r) sheet
  rw [prints.spelled] at spelled
  rw [ReferenceTable.extract, Sheet.extractTable, spelled, Outline.free]
  generalize (Definition.definitionLine.pieces Seal.lead sheet).filterMap Piece.find? = finds at all
  have step : ∀ (table : Sheet.Table) (references : ReferenceTable) (duplicates : List Text),
      r.PrintsTable known table references →
      r.PrintsTable known
        (finds.foldl (fun table found => table.record (found.get .label) (Sheet.targetOf found))
          table)
        ((finds.map (Find.read r.face)).foldl (fun known found =>
          Extraction.record known.1 known.2 (found.get .label) (Definition.reference found))
          (references, duplicates)).1 := by
    induction finds with
    | nil => exact fun _ _ _ begun => begun
    | cons f rest ih =>
      intro table references duplicates begun
      have here := all f List.mem_cons_self
      exact ih (fun other member => all other (List.mem_cons_of_mem _ member)) _ _ _
        (begun.record apart (prints.get here .label) (prints.target here) duplicates)
  exact step _ _ _ .nil

end Renaming

end Markdown
