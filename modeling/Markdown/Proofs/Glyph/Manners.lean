import Markdown.Proofs.Glyph.Search
import Markdown.Unicode.Private
import Markdown.Inline

set_option autoImplicit false

namespace Markdown

variable {σ slot : Type}

/-- The digits of digests. -/
def digestDigits : Text := "0123456789abcdef".toList

/-- The manner of tokens and keys: every seal begins and ends with a private character and has no
characters but such and digits of digests. -/
structure Quiet (lead : σ → Char) (face : σ → Text) : Prop where
  lead : ∀ s, Unicode.isPrivate (lead s) = true
  first : ∀ s, ∃ c rest, face s = c :: rest ∧ Unicode.isPrivate c = true
  last : ∀ s, ∃ front c, face s = front ++ [c] ∧ Unicode.isPrivate c = true
  all : ∀ s, ∀ c ∈ face s, Unicode.isPrivate c = true ∨ c ∈ digestDigits

namespace Quiet

variable {face : σ → Text}

theorem filled {lead : σ → Char} (quiet : Quiet lead face) : Filled face := by
  intro s blank
  obtain ⟨c, rest, written, _⟩ := quiet.first s
  rw [blank] at written
  cases written

variable {o : Outline σ slot} {accepts : Char → Bool}

theorem takes (quiet : Quiet o.lead face)
    (hidden : ∀ c, Unicode.isPrivate c = true → accepts c = true)
    (digits : ∀ c ∈ digestDigits, accepts c = true) : Markdown.Takes o face accepts where
  filled := quiet.filled
  lead s := hidden _ (quiet.lead s)
  all s c inside := (quiet.all s c inside).elim (hidden c) (digits c)

theorem shuns (quiet : Quiet o.lead face)
    (hidden : ∀ c, Unicode.isPrivate c = true → accepts c = false) : Shuns o face accepts where
  lead s := hidden _ (quiet.lead s)
  first s := by
    obtain ⟨c, rest, written, here⟩ := quiet.first s
    exact ⟨c, rest, written, hidden c here⟩
  last s := by
    obtain ⟨front, c, written, here⟩ := quiet.last s
    exact ⟨front, c, written, hidden c here⟩

theorem foreign {lead : σ → Char} (quiet : Quiet lead face)
    (hidden : ∀ c, Unicode.isPrivate c = true → accepts c = false)
    (digits : ∀ c ∈ digestDigits, accepts c = false) : Foreign face accepts :=
  fun s c inside => (quiet.all s c inside).elim (hidden c) (digits c)

end Quiet

/-- A class given by a few public characters has no private one. -/
theorem eq_false_of_isPrivate {c d : Char} (here : Unicode.isPrivate c = true)
    (plain : Unicode.isPrivate d = false) : (c == d) = false :=
  beq_false_of_ne (Unicode.ne_of_isPrivate here plain)

theorem isBlank_of_isPrivate {c : Char} (here : Unicode.isPrivate c = true) :
    Text.isBlank c = false := by
  simp [Text.isBlank, eq_false_of_isPrivate here (d := ' ') (by decide),
    eq_false_of_isPrivate here (d := '\t') (by decide)]

theorem isNewline_of_isPrivate {c : Char} (here : Unicode.isPrivate c = true) :
    Text.isNewline c = false :=
  eq_false_of_isPrivate here (by decide)

theorem inLine_of_isPrivate {c : Char} (here : Unicode.isPrivate c = true) :
    Pattern.inLine c = true := by
  simp [Pattern.inLine, Unicode.ne_of_isPrivate here (d := '\n') (by decide)]

theorem notSpace_of_isPrivate {c : Char} (here : Unicode.isPrivate c = true) :
    Pattern.notSpace c = true := by
  simp [Pattern.notSpace, Unicode.isSpace_of_isPrivate here]

theorem isTick_of_isPrivate {c : Char} (here : Unicode.isPrivate c = true) :
    CodeSpan.isTick c = false :=
  eq_false_of_isPrivate here (by decide)

theorem isMark_of_isPrivate {c : Char} (here : Unicode.isPrivate c = true) :
    Emphasis.isMark c = false := by
  simp [Emphasis.isMark, eq_false_of_isPrivate here (d := '*') (by decide),
    eq_false_of_isPrivate here (d := '_') (by decide)]

theorem notBracket_of_isPrivate {c : Char} (here : Unicode.isPrivate c = true) :
    Link.notBracket c = true := by
  simp [Link.notBracket, Unicode.ne_of_isPrivate here (d := '[') (by decide),
    Unicode.ne_of_isPrivate here (d := ']') (by decide)]

theorem isAddressChar_of_isPrivate {c : Char} (here : Unicode.isPrivate c = true) :
    Link.isAddressChar c = true := by
  simp [Link.isAddressChar, Unicode.isSpace_of_isPrivate here,
    Unicode.ne_of_isPrivate here (d := '\'') (by decide),
    Unicode.ne_of_isPrivate here (d := '"') (by decide),
    Unicode.ne_of_isPrivate here (d := '>') (by decide)]

theorem isHexDigit_of_isPrivate {c : Char} (here : Unicode.isPrivate c = true) :
    Html.isHexDigit c = false := by
  have bounds := Unicode.isPrivate_bounds here
  simp only [Html.isHexDigit, Char.isDigit, Bool.or_eq_false_iff, Bool.and_eq_false_iff,
    decide_eq_false_iff_not, Char.le_def, UInt32.le_iff_toNat_le, Char.toNat] at bounds ⊢
  refine ⟨⟨.inr ?_, .inr ?_⟩, .inr ?_⟩
  · exact fun low => absurd (Nat.le_trans bounds.1 low) (by decide)
  · exact fun low => absurd (Nat.le_trans bounds.1 low) (by decide)
  · exact fun low => absurd (Nat.le_trans bounds.1 low) (by decide)

namespace Pattern

variable [DecidableEq slot] {o : Outline σ slot} {face : σ → Text}

theorem Closed.char (quiet : Quiet o.lead face) (c : Char)
    (plain : Unicode.isPrivate c = false) : (Pattern.char c).Closed o face :=
  .one (quiet.shuns fun _ here => eq_false_of_isPrivate here plain)

theorem Blocked.char (quiet : Quiet o.lead face) (c : Char)
    (plain : Unicode.isPrivate c = false) : (Pattern.char c).Blocked o face :=
  .one (quiet.shuns fun _ here => eq_false_of_isPrivate here plain)

theorem Stuck.char (quiet : Quiet o.lead face) (c : Char)
    (plain : Unicode.isPrivate c = false)
    (apart : c ∉ digestDigits) : (Pattern.char c).Stuck o face :=
  .one (quiet.foreign (fun _ here => eq_false_of_isPrivate here plain)
    fun _ inside => beq_false_of_ne (ne_of_mem_of_not_mem inside apart))

theorem Closed.literal (quiet : Quiet o.lead face) (text : Text)
    (plain : ∀ c ∈ text, Unicode.isPrivate c = false) :
    (Pattern.literal text).Closed o face := by
  refine .sequence fun pattern member => ?_
  obtain ⟨c, inside, rfl⟩ := List.mem_map.1 member
  exact .char quiet c (plain c inside)

theorem Stuck.literal (quiet : Quiet o.lead face) (c : Char) (rest : Text)
    (plain : Unicode.isPrivate c = false)
    (apart : c ∉ digestDigits) : (Pattern.literal (c :: rest)).Stuck o face := by
  have first := Stuck.char (o := o) quiet c plain apart
  cases rest with
  | nil => exact first
  | cons d rest => exact first.seq _

theorem Stuck.many1 {accepts : Char → Bool} (foreign : Foreign face accepts) :
    (Pattern.many1 accepts : Pattern slot).Stuck o face :=
  (Stuck.one foreign).seq _

theorem Closed.many1 {accepts : Char → Bool} (shuns : Shuns o face accepts) :
    (Pattern.many1 accepts : Pattern slot).Closed o face :=
  (Closed.one shuns).seq (.many shuns)

theorem Closed.textEnd (filled : Filled face) :
    (Pattern.textEnd : Pattern slot).Closed o face :=
  .place (.atTextEnd filled)

theorem Stuck.textEnd : (Pattern.textEnd : Pattern slot).Stuck o face :=
  .place fun _ within => within.atTextEnd_eq_false

theorem Closed.textStart (filled : Filled face) :
    (Pattern.textStart : Pattern slot).Closed o face :=
  .place (.atTextStart filled)

theorem Stuck.textStart : (Pattern.textStart : Pattern slot).Stuck o face :=
  .place fun _ within => within.atTextStart_eq_false

theorem Closed.behind {accepts : Char → Bool}
    (uniform : Markdown.Takes o face accepts ∨ Shuns o face accepts) :
    (Pattern.behind accepts : Pattern slot).Closed o face :=
  .place (.follows uniform)

theorem Closed.notBehind {accepts : Char → Bool}
    (uniform : Markdown.Takes o face accepts ∨ Shuns o face accepts) :
    (Pattern.notBehind accepts : Pattern slot).Closed o face :=
  .place (Impartial.not (.follows uniform))

theorem Closed.before {accepts : Char → Bool}
    (uniform : Markdown.Takes o face accepts ∨ Shuns o face accepts) :
    (Pattern.before accepts : Pattern slot).Closed o face :=
  .place (.precedes uniform)

theorem Closed.notBefore {accepts : Char → Bool}
    (uniform : Markdown.Takes o face accepts ∨ Shuns o face accepts) :
    (Pattern.notBefore accepts : Pattern slot).Closed o face :=
  .place (Impartial.not (.precedes uniform))

end Pattern

namespace Quiet

variable {face : σ → Text} {o : Outline σ slot}

theorem shuns_blank (quiet : Quiet o.lead face) : Shuns o face Text.isBlank :=
  quiet.shuns fun _ => isBlank_of_isPrivate

theorem foreign_blank {lead : σ → Char} (quiet : Quiet lead face) : Foreign face Text.isBlank :=
  quiet.foreign (fun _ => isBlank_of_isPrivate) (by decide)

theorem shuns_newline (quiet : Quiet o.lead face) : Shuns o face Text.isNewline :=
  quiet.shuns fun _ => isNewline_of_isPrivate

theorem foreign_newline {lead : σ → Char} (quiet : Quiet lead face) :
    Foreign face Text.isNewline :=
  quiet.foreign (fun _ => isNewline_of_isPrivate) (by decide)

theorem takes_anything (quiet : Quiet o.lead face) : Markdown.Takes o face Pattern.anything :=
  quiet.takes (fun _ _ => rfl) (fun _ _ => rfl)

theorem takes_inLine (quiet : Quiet o.lead face) : Markdown.Takes o face Pattern.inLine :=
  quiet.takes (fun _ => inLine_of_isPrivate) (by decide)

theorem takes_notSpace (quiet : Quiet o.lead face) : Markdown.Takes o face Pattern.notSpace :=
  quiet.takes (fun _ => notSpace_of_isPrivate) (by decide)

theorem shuns_word (quiet : Quiet o.lead face) : Shuns o face Unicode.isWord :=
  quiet.shuns fun _ => Unicode.isWord_of_isPrivate

theorem closed_lineStart [DecidableEq slot] (quiet : Quiet o.lead face) :
    (Pattern.lineStart : Pattern slot).Closed o face :=
  .place (Impartial.or (.atTextStart quiet.filled) (.follows (.inr quiet.shuns_newline)))

theorem stuck_lineStart [DecidableEq slot] (quiet : Quiet o.lead face) :
    (Pattern.lineStart : Pattern slot).Stuck o face :=
  .place fun reading within => by
    rw [Cursor.atLineStart, within.atTextStart_eq_false,
      within.follows_eq_false quiet.foreign_newline]
    rfl

theorem closed_lineEnd [DecidableEq slot] (quiet : Quiet o.lead face) :
    (Pattern.lineEnd : Pattern slot).Closed o face :=
  .place (Impartial.or (.atTextEnd quiet.filled) (.precedes (.inr quiet.shuns_newline)))

theorem stuck_lineEnd [DecidableEq slot] (quiet : Quiet o.lead face) :
    (Pattern.lineEnd : Pattern slot).Stuck o face :=
  .place fun reading within => by
    rw [Cursor.atLineEnd, within.atTextEnd_eq_false,
      within.precedes_eq_false quiet.foreign_newline]
    rfl

end Quiet

end Markdown
