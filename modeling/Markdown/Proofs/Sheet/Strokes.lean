import Markdown.Proofs.Quoting.Marks

set_option autoImplicit false

namespace Markdown

open Pattern

namespace Sheet

/-- Marks and blanks, and at least so many marks. -/
structure Strokes (marks : Char → Bool) (count : Nat) (sheet : Sheet) : Prop where
  each : ∀ g ∈ sheet, g.Of fun c => Text.isBlank c || marks c
  enough : count ≤ sheet.countP fun g => g.fits Seal.lead marks

/-- The first line is made of marks and blanks, and of at least so many marks. -/
def Drawn (marks : Char → Bool) (count : Nat) (sheet : Sheet) : Prop :=
  ∃ line rest, sheet = line ++ rest ∧ Strokes marks count line ∧
    (rest = [] ∨ ∃ tail, rest = .char '\n' :: tail)

variable {marks : Char → Bool} {first second : Sheet} {early late : Nat}

theorem Strokes.append (here : Strokes marks early first) (there : Strokes marks late second) :
    Strokes marks (early + late) (first ++ second) where
  each := List.forall_mem_append.2 ⟨here.each, there.each⟩
  enough := by
    rw [List.countP_append]
    exact Nat.add_le_add here.enough there.enough

theorem strokes_of_blank (each : ∀ g ∈ first, g.Of Text.isBlank) : Strokes marks 0 first where
  each g member := by
    obtain ⟨c, rfl, blank⟩ := each g member
    exact ⟨c, rfl, by simp [blank]⟩
  enough := Nat.zero_le _

theorem strokes_of_mark {c : Char} (mark : marks c = true) : Strokes marks 1 [.char c] where
  each g member := by
    obtain rfl := List.mem_singleton.1 member
    exact ⟨c, rfl, by simp [mark]⟩
  enough := by simp [Glyph.fits, mark]

end Sheet

namespace Pattern

variable {slot : Type} [DecidableEq slot] {first second body : Pattern slot} {marks : Char → Bool}
  {early late : Nat}

theorem Takes.strokes (here : first.Takes Seal.lead (Sheet.Strokes marks early))
    (there : second.Takes Seal.lead (Sheet.Strokes marks late)) :
    (first.seq second).Takes Seal.lead (Sheet.Strokes marks (early + late)) :=
  here.seq there fun _ _ => Sheet.Strokes.append

theorem Only.strokes (blank : body.Only Seal.lead (Glyph.Of Text.isBlank)) :
    body.Takes Seal.lead (Sheet.Strokes marks 0) :=
  Takes.mono blank fun _ => Sheet.strokes_of_blank

theorem strokes_char {c : Char} (mark : marks c = true) (hidden : c ≠ Escape.opening) :
    (Pattern.char c : Pattern slot).Takes Seal.lead (Sheet.Strokes marks 1) := by
  refine Takes.one.mono ?_
  rintro _ ⟨g, rfl, fits⟩
  obtain ⟨d, rfl, same⟩ := exists_char_of_fits (by simpa using Ne.symm hidden) fits
  exact Sheet.strokes_of_mark (by rwa [show d = c by simpa using same])

theorem strokes_many {c : Char} (mark : marks c = true) (hidden : c ≠ Escape.opening) :
    (Pattern.many (· == c) : Pattern slot).Takes Seal.lead (Sheet.Strokes marks 0) :=
  Takes.mono (Only.many fun g fits => by
    obtain ⟨d, rfl, same⟩ := exists_char_of_fits (by simpa using Ne.symm hidden) fits
    exact ⟨d, rfl, by simp [show d = c by simpa using same, mark]⟩)
    fun _ each => ⟨each, Nat.zero_le _⟩

variable (marks) in
/-- The pattern has outcomes in front of lines of marks only. -/
def Draws (count : Nat) (pattern : Pattern slot) : Prop :=
  ∀ spot, ∀ later ∈ pattern.spots Seal.lead spot, Sheet.Drawn marks count spot.ahead

theorem draws_of_lineEnd (ends : ∀ spot, ∀ later ∈ first.spots Seal.lead spot,
    spot.ahead = [] ∨ ∃ tail, spot.ahead = .char '\n' :: tail) : first.Draws marks 0 :=
  fun spot later member =>
    ⟨[], spot.ahead, rfl, Sheet.strokes_of_blank (by simp), ends spot later member⟩

theorem Takes.draws (strokes : first.Takes Seal.lead (Sheet.Strokes marks early))
    (draws : second.Draws marks late) : (first.seq second).Draws marks (early + late) := by
  intro spot later member
  obtain ⟨middle, passed, onward⟩ := List.mem_flatMap.1 member
  obtain ⟨glyphs, passes, here⟩ := strokes spot middle passed
  obtain ⟨line, rest, same, there, ends⟩ := draws middle later onward
  exact ⟨glyphs ++ line, rest, by rw [passes.ahead, same, List.append_assoc], here.append there, ends⟩

end Pattern

namespace Heading

def isUnderline (c : Char) : Bool :=
  c == '=' || c == '-'

def isRule (c : Char) : Bool :=
  c == '*' || c == '-' || c == '_'

theorem isMark_of_isUnderline {c : Char} (mark : isUnderline c = true) : isMark c = true := by
  have either : c = '=' ∨ c = '-' := by simpa [isUnderline] using mark
  rcases either with rfl | rfl <;> decide

theorem isMark_of_isRule {c : Char} (mark : isRule c = true) : isMark c = true := by
  have either : c = '*' ∨ c = '-' ∨ c = '_' := by simpa [isRule, or_assoc] using mark
  rcases either with rfl | rfl | rfl <;> decide

theorem draws_ending {marks : Char → Bool} : ending.Draws marks 0 := by
  refine draws_of_lineEnd fun spot later member => ?_
  rcases List.mem_append.1 member with newlines | ended
  · obtain ⟨middle, first, _⟩ := List.mem_flatMap.1 newlines
    obtain ⟨_, passes, g, rfl, fits⟩ := Takes.one _ _ first
    obtain ⟨c, rfl, newline⟩ := exists_char_of_fits (by decide) fits
    rw [show c = '\n' by simpa [Text.isNewline] using newline] at passes
    exact .inr ⟨middle.ahead, passes.ahead⟩
  · exact .inl (ahead_eq_nil (holds_of_mem_place ended).2)

theorem strokes_blanks {slot : Type} [DecidableEq slot] {marks : Char → Bool} :
    (Pattern.many Text.isBlank : Pattern slot).Takes Seal.lead (Sheet.Strokes marks 0) :=
  (of_many (by decide) fun _ => id).strokes

/-- Under a heading stands a line of marks. -/
theorem drawn_underlined : underlined.LeadsLine (Sheet.Drawn isUnderline 1) := by
  have signs : ∀ c, isUnderline c = true → c ≠ Escape.opening →
      (Pattern.many1 (· == c) : Pattern Part).Takes Seal.lead (Sheet.Strokes isUnderline 1) :=
    fun c mark hidden => (strokes_char mark hidden).strokes (strokes_many mark hidden)
  have underline := (signs '=' rfl (by decide)).either (signs '-' rfl (by decide))
  exact .seq_right _ (.seq_right _ (.seq_right _ (endsLine_newline.seq_ahead
    ((underline.capture _).draws (strokes_blanks.draws draws_ending)))))

/-- A rule is a line of three marks or more. -/
theorem drawn_rule : rule.LeadsLine (Sheet.Drawn isRule 3) := by
  have ofMark : ∀ mark, isRule mark = true → mark ≠ Escape.opening →
      (ruleOf mark).Takes Seal.lead (Sheet.Strokes isRule 3) := by
    intro mark here hidden
    have round : (Pattern.seq (.char mark) (.many Text.isBlank) : Pattern Empty).Takes Seal.lead
        (Sheet.Strokes isRule 1) := (strokes_char here hidden).strokes strokes_blanks
    have more : (Pattern.rounds (.seq (.char mark) (.many Text.isBlank)) : Pattern Empty).Takes
        Seal.lead (Sheet.Strokes isRule 0) :=
      Takes.mono (Only.rounds (Takes.mono round fun _ strokes => strokes.each))
        fun _ each => ⟨each, Nat.zero_le _⟩
    exact (round.strokes (round.strokes (round.strokes Only.empty.strokes))).strokes more
  have marks := (ofMark '*' rfl (by decide)).either
    ((ofMark '-' rfl (by decide)).either (ofMark '_' rfl (by decide)))
  have blanks : (Pattern.upTo 3 (.char ' ') : Pattern Empty).Takes Seal.lead
      (Sheet.Strokes isRule 0) := (Only.upTo (of_char rfl rfl) 3).strokes
  exact endsLine_lineStart.seq_ahead (blanks.draws (marks.draws
    (draws_of_lineEnd fun _ _ => ahead_of_mem_lineEnd)))

end Heading

end Markdown
