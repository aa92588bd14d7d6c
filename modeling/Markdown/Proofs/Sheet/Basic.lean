import Markdown.Proofs.Glyph.Blocks
import Markdown.Proofs.Glyph.Frames
import Markdown.Proofs.Sheet.Seal

set_option autoImplicit false

namespace Markdown

/-- A piece with other glyphs in the place of a match. -/
def Piece.recast {σ slot : Type} (drawn : Find σ slot → List (Glyph σ)) :
    Piece σ slot → List (Glyph σ)
  | .plain g => [g]
  | .found f => drawn f

/-- A sheet with other glyphs in the place of each match. -/
def Pattern.recast {slot : Type} [DecidableEq slot] (pattern : Pattern slot)
    (drawn : Find Seal slot → Sheet) (sheet : Sheet) : Sheet :=
  (pattern.pieces Seal.lead sheet).flatMap (Piece.recast drawn)

def Pattern.divide {slot : Type} [DecidableEq slot] (pattern : Pattern slot) (sheet : Sheet) :
    List Sheet :=
  (pattern.pieces Seal.lead sheet).foldr Piece.splitOff [[]]

/-- What fits a class that seals do not fit is a character of the class. -/
theorem exists_char_of_fits {accepts : Char → Bool} (hidden : accepts Escape.opening = false)
    {g : Glyph Seal} (fits : g.fits Seal.lead accepts = true) :
    ∃ c, g = .char c ∧ accepts c = true := by
  cases g with
  | char c => exact ⟨c, rfl, fits⟩
  | sealed s =>
    rw [show accepts Escape.opening = true from fits] at hidden
    cases hidden

/-- Without a match a sheet stays as it is. -/
theorem Pattern.recast_eq_self {slot : Type} [DecidableEq slot] {pattern : Pattern slot}
    {sheet : Sheet} (none : ∀ f, ¬ pattern.Finds Seal.lead sheet f)
    (drawn : Find Seal slot → Sheet) : pattern.recast drawn sheet = sheet := by
  have plain : ∀ piece ∈ pattern.pieces Seal.lead sheet, piece.recast drawn = piece.glyphs := by
    intro piece member
    cases piece with
    | plain g => rfl
    | found f => exact absurd (finds_of_mem_pieces member) (none f)
  rw [Pattern.recast, List.flatMap_congr plain, flatMap_glyphs_pieces]

/-- A public character is matched by itself only. -/
theorem Pattern.only_char {slot : Type} [DecidableEq slot] {c : Char}
    (plain : Unicode.isPrivate c = false) :
    (Pattern.char c : Pattern slot).Only Seal.lead fun g => g = .char c := by
  refine .one fun g fits => ?_
  have hidden : Escape.opening ≠ c := Unicode.ne_of_isPrivate (by decide) plain
  obtain ⟨d, rfl, same⟩ := exists_char_of_fits (by simpa using hidden) fits
  rw [show d = c by simpa using same]

theorem Pattern.takes_char {slot : Type} [DecidableEq slot] {c : Char}
    (plain : Unicode.isPrivate c = false) :
    (Pattern.char c : Pattern slot).Takes Seal.lead fun passed => passed = [.char c] := by
  intro spot later inside
  obtain ⟨passed, passes, g, rfl, fits⟩ := Takes.one spot later inside
  have hidden : Escape.opening ≠ c := Unicode.ne_of_isPrivate (by decide) plain
  obtain ⟨d, rfl, same⟩ := exists_char_of_fits (by simpa using hidden) fits
  exact ⟨_, passes, by rw [show d = c by simpa using same]⟩

theorem Pattern.takes_literal {slot : Type} [DecidableEq slot] {text : Text}
    (plain : ∀ c ∈ text, Unicode.isPrivate c = false) :
    (Pattern.literal text : Pattern slot).Takes Seal.lead fun passed => passed = Glyph.chars text := by
  induction text with
  | nil => exact fun spot later member => ⟨[], List.mem_singleton.1 member ▸ .nothing _, rfl⟩
  | cons c rest ih =>
    have here := @takes_char slot _ c (plain c List.mem_cons_self)
    have later := ih fun d member => plain d (List.mem_cons_of_mem _ member)
    cases rest with
    | nil => exact here
    | cons d rest => exact here.seq later fun passed more same others => by rw [same, others]; rfl

namespace Sheet

/-- A sheet with a sheet in the place of each character. -/
def onChars (drawn : Char → Sheet) (sheet : Sheet) : Sheet :=
  sheet.flatMap fun
    | .char c => drawn c
    | .sealed s => [.sealed s]

theorem onChars_char (drawn : Char → Sheet) (c : Char) : onChars drawn [.char c] = drawn c := by
  simp [onChars]

theorem onChars_append (drawn : Char → Sheet) (first second : Sheet) :
    onChars drawn (first ++ second) = onChars drawn first ++ onChars drawn second := by
  simp [onChars]

def trimStart (within : Char → Bool) (sheet : Sheet) : Sheet :=
  sheet.dropWhile fun g => g.fits Seal.lead within

def trimEnd (within : Char → Bool) (sheet : Sheet) : Sheet :=
  (sheet.reverse.dropWhile fun g => g.fits Seal.lead within).reverse

def trim (within : Char → Bool) (sheet : Sheet) : Sheet :=
  trimEnd within (trimStart within sheet)

def trimSpace (sheet : Sheet) : Sheet :=
  trim Unicode.isSpace sheet

/-- The sheet with the lead of each seal in the place of the seal. -/
def outline (sheet : Sheet) : Text :=
  spell (fun s => [Seal.lead s]) sheet

/-- The pieces of a sheet between the characters of a class, empty pieces among them. -/
def splitAt (separates : Char → Bool) : Sheet → List Sheet
  | [] => [[]]
  | g :: rest =>
    if g.fits Seal.lead separates then [] :: splitAt separates rest
    else match splitAt separates rest with
      | piece :: more => (g :: piece) :: more
      | [] => [[g]]

def words (sheet : Sheet) : List Sheet :=
  (splitAt Unicode.isSpace sheet).filter (! ·.isEmpty)

end Sheet

namespace Renaming.Prints

variable {r : Renaming} {known : List Text} {sheet : Sheet} {text : Text}

theorem flatMap {ι : Type} {items : List ι} {drawn : ι → Sheet} {written : ι → Text}
    (each : ∀ item ∈ items, r.Prints known (drawn item) (written item)) :
    r.Prints known (items.flatMap drawn) (items.flatMap written) := by
  induction items with
  | nil => exact .nil
  | cons item rest ih =>
    rw [List.flatMap_cons, List.flatMap_cons]
    exact (each item List.mem_cons_self).append
      (ih fun other member => each other (List.mem_cons_of_mem _ member))

section Searches

variable {slot : Type} [DecidableEq slot] {pattern : Pattern slot} {o : Outline Seal slot}
  {f : Find Seal slot}

theorem get? (prints : r.Prints known sheet text) (finds : pattern.Finds Seal.lead sheet f)
    (name : slot) :
    Option.Rel (r.Prints known) (f.get? name) ((f.read r.face).get? name) := by
  rw [Find.read_get?]
  cases here : f.get? name with
  | none => exact .none
  | some caught => exact .some (prints.part (finds.get?_infix here).subset)

theorem get (prints : r.Prints known sheet text) (finds : pattern.Finds Seal.lead sheet f)
    (name : slot) : r.Prints known (f.get name) ((f.read r.face).get name) := by
  rw [Find.read_get]
  exact prints.part (finds.get_infix name).subset

theorem found (prints : r.Prints known sheet text) (finds : pattern.Finds Seal.lead sheet f) :
    r.Prints known f.glyphs (f.read r.face).text := by
  rw [finds.text_read]
  exact prints.part fun g inside => finds.mem_glyphs inside

theorem recast (regular : pattern.Regular o r.face) (judged : o.lead = Seal.lead)
    {drawn : Find Seal slot → Sheet} {replacement : Match slot → Text}
    (prints : r.Prints known sheet text)
    (each : ∀ f, pattern.Finds Seal.lead sheet f →
      r.Prints known (drawn f) (replacement (f.read r.face))) :
    r.Prints known (pattern.recast drawn sheet) (pattern.replace replacement text) := by
  rw [← prints.spelled, Pattern.replace_spell regular, judged]
  refine .flatMap fun piece member => ?_
  cases piece with
  | plain g => exact .glyph (prints.valid g (Pattern.mem_of_plain_mem_pieces member))
  | found f => exact each f (Pattern.finds_of_mem_pieces member)

omit [DecidableEq slot] in
theorem plain_mem_of_mem_splitOff {pieces : List (Piece Seal slot)} {part : Sheet}
    (member : part ∈ pieces.foldr Piece.splitOff [[]]) {g : Glyph Seal} (inside : g ∈ part) :
    .plain g ∈ pieces := by
  induction pieces generalizing part with
  | nil =>
    obtain rfl := List.mem_singleton.1 member
    exact absurd inside List.not_mem_nil
  | cons piece rest ih =>
    rw [List.foldr_cons] at member
    generalize rest.foldr Piece.splitOff [[]] = parts at member ih
    cases piece with
    | found f =>
      rcases List.mem_cons.1 member with rfl | later
      · exact absurd inside List.not_mem_nil
      · exact List.mem_cons_of_mem _ (ih later inside)
    | plain h =>
      cases parts with
      | nil =>
        obtain rfl := List.mem_singleton.1 member
        obtain rfl := List.mem_singleton.1 inside
        exact List.mem_cons_self
      | cons first more =>
        rcases List.mem_cons.1 member with rfl | later
        · rcases List.mem_cons.1 inside with rfl | inside
          · exact List.mem_cons_self
          · exact List.mem_cons_of_mem _ (ih List.mem_cons_self inside)
        · exact List.mem_cons_of_mem _ (ih (List.mem_cons_of_mem _ later) inside)

theorem divide (regular : pattern.Regular o r.face) (judged : o.lead = Seal.lead)
    (prints : r.Prints known sheet text) :
    List.Forall₂ (r.Prints known) (pattern.divide sheet) (pattern.split text) := by
  rw [← prints.spelled, Pattern.split_spell regular, judged, Pattern.divide]
  have each : ∀ part ∈ (pattern.pieces Seal.lead sheet).foldr Piece.splitOff [[]],
      r.Prints known part (spell r.face part) := fun part member =>
    prints.part fun g inside =>
      Pattern.mem_of_plain_mem_pieces (plain_mem_of_mem_splitOff member inside)
  generalize (pattern.pieces Seal.lead sheet).foldr Piece.splitOff [[]] = parts at each
  induction parts with
  | nil => exact .nil
  | cons part rest ih =>
    exact .cons (each part List.mem_cons_self)
      (ih fun other member => each other (List.mem_cons_of_mem _ member))

end Searches

/-- Work on single characters that leaves alone what seals are written with. -/
theorem onChars {drawn : Char → Sheet} {written : Char → Text} (prints : r.Prints known sheet text)
    (hidden : ∀ c, Unicode.isPrivate c = true → written c = [c])
    (digits : ∀ c ∈ digestDigits, written c = [c])
    (each : ∀ c, r.Free c → r.Prints known (drawn c) (written c)) :
    r.Prints known (Sheet.onChars drawn sheet) (text.flatMap written) := by
  rw [← prints.spelled, spell, List.flatMap_assoc]
  refine .flatMap fun g member => ?_
  have valid := prints.valid g member
  cases g with
  | char c =>
    obtain ⟨free⟩ := valid
    simpa [Glyph.spell] using each c free
  | sealed s =>
    have still : ∀ u : Text, (∀ c ∈ u, Unicode.isPrivate c = true ∨ c ∈ digestDigits) →
        u.flatMap written = u := by
      intro u inside
      induction u with
      | nil => rfl
      | cons c rest ih =>
        rw [List.flatMap_cons, ih fun d member => inside d (List.mem_cons_of_mem _ member),
          (inside c List.mem_cons_self).elim (hidden c) (digits c)]
        rfl
    rw [Glyph.spell, still _ (r.quiet.all s)]
    exact .glyph valid

variable {within : Char → Bool}

theorem trimStart (hidden : ∀ c, Unicode.isPrivate c = true → within c = false)
    (prints : r.Prints known sheet text) :
    r.Prints known (Sheet.trimStart within sheet) (Text.trimStart within text) := by
  refine ⟨?_, fun g member => prints.valid g ((List.dropWhile_suffix _).subset member)⟩
  rw [← prints.spelled]
  clear prints
  induction sheet with
  | nil => rfl
  | cons g rest ih =>
    cases g with
    | char c =>
      by_cases inClass : within c = true
      · simpa [Sheet.trimStart, Text.trimStart, Glyph.spell, Glyph.fits, inClass] using ih
      · simp [Sheet.trimStart, Text.trimStart, Glyph.spell, Glyph.fits, inClass]
    | sealed s =>
      obtain ⟨c, more, written, here⟩ := r.quiet.first s
      simp [Sheet.trimStart, Text.trimStart, Glyph.spell, Glyph.fits, written, hidden c here,
        hidden _ (r.quiet.lead s)]

theorem trimEnd (hidden : ∀ c, Unicode.isPrivate c = true → within c = false)
    (prints : r.Prints known sheet text) :
    r.Prints known (Sheet.trimEnd within sheet) (Text.trimEnd within text) := by
  have back : ∀ behind : Sheet,
      (spellBack r.face behind).dropWhile within =
        spellBack r.face (behind.dropWhile fun g => g.fits Seal.lead within) := by
    intro behind
    induction behind with
    | nil => rfl
    | cons g rest ih =>
      cases g with
      | char c =>
        by_cases inClass : within c = true
        · simpa [Glyph.spell, Glyph.fits, inClass] using ih
        · simp [Glyph.spell, Glyph.fits, inClass]
      | sealed s =>
        obtain ⟨front, c, written, here⟩ := r.quiet.last s
        simp [Glyph.spell, Glyph.fits, written, hidden c here, hidden _ (r.quiet.lead s)]
  refine ⟨?_, fun g member => prints.valid g ?_⟩
  · rw [Sheet.trimEnd, Text.trimEnd, ← prints.spelled, ← spellBack_reverse, back,
      ← List.reverse_inj, ← spellBack_reverse]
    simp
  · rw [Sheet.trimEnd, List.mem_reverse] at member
    exact List.mem_reverse.1 ((List.dropWhile_suffix _).subset member)

theorem trim (hidden : ∀ c, Unicode.isPrivate c = true → within c = false)
    (prints : r.Prints known sheet text) :
    r.Prints known (Sheet.trim within sheet) (Text.trim within text) :=
  (prints.trimStart hidden).trimEnd hidden

theorem trimSpace (prints : r.Prints known sheet text) :
    r.Prints known (Sheet.trimSpace sheet) (Text.trimSpace text) :=
  prints.trim fun _ => Unicode.isSpace_of_isPrivate

theorem eq_nil_iff (prints : r.Prints known sheet text) : text = [] ↔ sheet = [] := by
  rw [← prints.spelled]
  exact r.quiet.filled.spell_eq_nil

theorem isEmpty_eq (prints : r.Prints known sheet text) : text.isEmpty = sheet.isEmpty := by
  rw [Bool.eq_iff_iff, List.isEmpty_iff, List.isEmpty_iff]
  exact prints.eq_nil_iff

theorem isPrefixOf_eq (prints : r.Prints known sheet text) (part : Text)
    (plain : ∀ c ∈ part, Unicode.isPrivate c = false) :
    part.isPrefixOf text = part.isPrefixOf (Sheet.outline sheet) := by
  rw [← prints.spelled]
  clear prints
  induction part generalizing sheet with
  | nil => simp [List.isPrefixOf]
  | cons c more ih =>
    have differs : ∀ d, Unicode.isPrivate d = true → (c == d) = false := fun d here =>
      beq_false_of_ne (Ne.symm (Unicode.ne_of_isPrivate here (plain c List.mem_cons_self)))
    cases sheet with
    | nil => rfl
    | cons g rest =>
      cases g with
      | char d =>
        have next := @ih rest fun e member => plain e (List.mem_cons_of_mem _ member)
        simpa [Sheet.outline, Glyph.spell, List.isPrefixOf] using congrArg (c == d && ·) next
      | sealed s =>
        obtain ⟨d, tail, written, here⟩ := r.quiet.first s
        simp [Sheet.outline, Glyph.spell, List.isPrefixOf, written, differs d here,
          differs _ (r.quiet.lead s)]

/-- Where a text without private characters and digits of digests occurs, no seal is touched. -/
theorem occursIn_eq (prints : r.Prints known sheet text) {c : Char} {more : Text}
    (plain : ∀ d ∈ c :: more, Unicode.isPrivate d = false) (odd : c ∉ digestDigits) :
    Text.occursIn (c :: more) text = Text.occursIn (c :: more) (Sheet.outline sheet) := by
  have first : ∀ d, (Unicode.isPrivate d = true ∨ d ∈ digestDigits) → (c == d) = false := by
    intro d manner
    refine beq_false_of_ne ?_
    rintro rfl
    rcases manner with here | digit
    · rw [plain c List.mem_cons_self] at here
      cases here
    · exact odd digit
  have skip : ∀ u rest : Text, (∀ d ∈ u, Unicode.isPrivate d = true ∨ d ∈ digestDigits) →
      Text.occursIn (c :: more) (u ++ rest) = Text.occursIn (c :: more) rest := by
    intro u rest inside
    induction u with
    | nil => rfl
    | cons d u ih =>
      rw [List.cons_append, Text.occursIn, List.isPrefixOf, first d (inside d List.mem_cons_self),
        Bool.false_and, Bool.false_or, ih fun e member => inside e (List.mem_cons_of_mem _ member)]
  obtain ⟨rfl, valid⟩ := prints
  induction sheet with
  | nil => rfl
  | cons g rest ih =>
    have later := ih fun h member => valid h (List.mem_cons_of_mem _ member)
    have here := isPrefixOf_eq (r := r) ⟨rfl, valid⟩ _ plain
    cases g with
    | char d =>
      simp only [Sheet.outline, spell_cons, Glyph.spell, List.singleton_append] at here later ⊢
      rw [Text.occursIn, Text.occursIn, here, later]
    | sealed s =>
      rw [spell_cons, Glyph.spell, skip _ _ (r.quiet.all s), later]
      exact (skip [Seal.lead s] _ fun d member => .inl (by
        rw [List.mem_singleton.1 member]
        exact r.quiet.lead s)).symm

end Renaming.Prints

end Markdown
