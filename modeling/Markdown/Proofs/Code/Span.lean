import Markdown.Proofs.Code.Verbatim
import Markdown.Proofs.Pattern.Goes

set_option autoImplicit false

namespace Markdown

open Pattern

namespace CodeSpan

def ticks (count : Nat) : Text :=
  List.replicate count '\x60'

theorem fits_isTick_of_ne {g : Glyph Seal} (other : g ≠ .char '\x60') :
    g.fits Seal.lead isTick = false := by
  refine Bool.eq_false_iff.2 fun fits => other ?_
  obtain ⟨c, rfl, here⟩ := exists_char_of_fits (by decide) fits
  exact congrArg Glyph.char (eq_of_beq here)

/-- What has to stand behind the code. -/
def ending : Pattern Part :=
  .sequence [.many Text.isBlank, .notBehind isTick, .same .ticks id, .notBefore isTick]

/-- In front of a glyph that is neither a blank nor a backtick no code ends. -/
theorem spots_ending_eq_nil {spot : Spot Seal Part} {more middle rest : Sheet} {g : Glyph Seal}
    (kept : spot.get? .ticks = some (.char '\x60' :: more))
    (ahead : spot.ahead = middle ++ g :: rest) (none : Glyph.char '\x60' ∉ middle) (solid : g ≠ .char '\x60')
    (inked : g.fits Seal.lead Text.isBlank = false) : ending.spots Seal.lead spot = [] := by
  refine List.eq_nil_iff_forall_not_mem.2 fun later member => ?_
  obtain ⟨second, blanks, afterSecond⟩ := List.mem_flatMap.1 member
  obtain ⟨third, atThird, afterThird⟩ := List.mem_flatMap.1 afterSecond
  obtain rfl := mem_spots_place atThird
  obtain ⟨fourth, closes, _⟩ := List.mem_flatMap.1 afterThird
  obtain ⟨passed, passes, blank, same⟩ := exists_passes_of_mem_stops (List.mem_reverse.1 blanks)
  have still : third.get? .ticks = some (.char '\x60' :: more) := by
    rw [← kept, Spot.get?, Spot.get?, same]
  have ticked := (passes_of_mem_same still closes).ahead
  have whole := passes.ahead
  rw [ahead, ticked] at whole
  rcases List.append_eq_append_iff.1 whole with ⟨part, rfl, cut⟩ | ⟨part, rfl, cut⟩
  · cases part with
    | nil => exact solid (List.cons.inj cut).1
    | cons h part =>
      obtain ⟨rfl, _⟩ := List.cons.inj cut
      rw [blank _ (by simp)] at inked
      cases inked
  · cases part with
    | nil => exact solid (List.cons.inj cut).1.symm
    | cons h part =>
      obtain ⟨rfl, _⟩ := List.cons.inj cut
      exact none (by simp)

section Match

variable {front back : Text} {inner behind : Sheet} {captures : List (Part × Sheet)} {count : Nat}
  (none : Glyph.char '\x60' ∉ inner) (trailing : ∀ c ∈ back, Text.isBlank c = true)

theorem fits_of_mem_chars {text : Text} {accepts : Char → Bool}
    (each : ∀ c ∈ text, accepts c = true) :
    ∀ g ∈ (Glyph.chars text : Sheet), g.fits Seal.lead accepts = true := by
  intro g member
  obtain ⟨c, inside, rfl⟩ := Glyph.mem_chars.1 member
  exact each c inside

include none trailing in
/-- Behind the code the blanks and the run of backticks are passed, up to the end. -/
theorem goes_ending (filled : inner ≠ [])
    (kept : Spot.get? (⟨inner.reverse ++ behind, [], captures⟩ : Spot Seal Part) .ticks =
      some (Glyph.chars (ticks (count + 1)))) :
    ending.Goes
      ⟨inner.reverse ++ behind, Glyph.chars back ++ Glyph.chars (ticks (count + 1)), captures⟩
      ⟨(Glyph.chars (ticks (count + 1))).reverse ++ ((Glyph.chars back).reverse ++
        (inner.reverse ++ behind)), [], captures⟩ := by
  have blanks := @goes_many Part _ (inner.reverse ++ behind) (Glyph.chars back)
    (Glyph.chars (ticks (count + 1))) captures Text.isBlank (fits_of_mem_chars trailing)
    (by simp [ticks, List.replicate_succ, Glyph.fits, Text.isBlank])
  have solid : ∀ g ∈ ((Glyph.chars back).reverse ++ (inner.reverse ++ behind)).head?,
      g.fits Seal.lead isTick = false := by
    intro g first
    rw [← List.append_assoc, List.head?_append_of_ne_nil _ (by simp [filled])] at first
    refine fits_isTick_of_ne ?_
    rintro rfl
    rcases List.mem_append.1 (List.mem_of_mem_head? first) with inBack | inCode
    · obtain ⟨c, inside, same⟩ := Glyph.mem_chars.1 (List.mem_reverse.1 inBack)
      obtain rfl := Glyph.char.inj same
      exact absurd (trailing _ inside) (by decide)
    · exact none (List.mem_reverse.1 inCode)
  have stands := @goes_same Part _ ((Glyph.chars back).reverse ++ (inner.reverse ++ behind)) []
    captures .ticks (ticks (count + 1)) _ id rfl kept
  have ends := @goes_notBefore Part _ ((Glyph.chars (ticks (count + 1))).reverse ++
    ((Glyph.chars back).reverse ++ (inner.reverse ++ behind))) [] captures isTick (by simp)
  rw [List.append_nil] at stands
  exact blanks.seq ((goes_notBehind solid).seq (stands.seq ends))

include none trailing in
/-- All that stands between the blanks is taken as code. -/
theorem goes_code (filled : inner ≠ [])
    (last : ∀ g ∈ inner.getLast?, g.fits Seal.lead Text.isBlank = false)
    (kept : Spot.get? (⟨behind, [], captures⟩ : Spot Seal Part) .ticks =
      some (Glyph.chars (ticks (count + 1)))) :
    (Pattern.seq (.capture .code (.few1 Pattern.anything)) ending).Goes
      ⟨behind, inner ++ (Glyph.chars back ++ Glyph.chars (ticks (count + 1))), captures⟩
      ⟨(Glyph.chars (ticks (count + 1))).reverse ++ ((Glyph.chars back).reverse ++
        (inner.reverse ++ behind)), [], (.code, inner) :: captures⟩ := by
  have ends := @goes_ending back inner behind ((.code, inner) :: captures) count none trailing
    filled (by simpa [Spot.get?] using kept)
  obtain ⟨g, rest, rfl⟩ := List.exists_cons_of_ne_nil filled
  generalize tail : Glyph.chars back ++ Glyph.chars (ticks (count + 1)) = behindCode at ends ⊢
  have begun : (Pattern.few1 Pattern.anything).spots Seal.lead
      (⟨behind, g :: rest ++ behindCode, captures⟩ : Spot Seal Part) =
      (Pattern.few Pattern.anything).spots Seal.lead
        ⟨g :: behind, rest ++ behindCode, captures⟩ := by
    change ((Pattern.one Pattern.anything).spots Seal.lead _).flatMap _ = _
    rw [List.cons_append, spots_one_of_fits (by cases g <;> rfl), List.flatMap_singleton]
  rw [Goes, spots, spots, begun, List.flatMap_map]
  refine head?_flatMap_few (fun g _ => ?_) (fun early h late whole => ?_) ?_
  · cases g <;> rfl
  · have started : g :: rest = (g :: early) ++ h :: late := by rw [whole, List.cons_append]
    obtain ⟨front, final, cut⟩ := (List.eq_nil_or_concat (h :: late)).resolve_left (by simp)
    rw [List.concat_eq_append] at cut
    have ink : final.fits Seal.lead Text.isBlank = false := last final (by
      rw [started, cut, ← List.append_assoc]
      exact List.getLast?_concat)
    rw [started, cut] at none
    refine @spots_ending_eq_nil _ (Glyph.chars (ticks count)) front behindCode final kept ?_
      (fun inside => none (by simp [inside])) (fun same => none (by simp [same])) ink
    rw [← List.cons_append, cut, List.append_assoc]
    rfl
  · have passes : Spot.Passes (⟨behind, g :: rest ++ behindCode, captures⟩ : Spot Seal Part)
        (g :: rest) ⟨rest.reverse ++ g :: behind, behindCode, captures⟩ := ⟨by simp, rfl⟩
    dsimp only
    rw [passes.between_eq]
    rw [List.reverse_cons, List.append_assoc] at ends ⊢
    exact ends

include none trailing in
/-- Between blanks and two runs of backticks of one length, all the rest is the code of one span. -/
theorem pieces_codeSpan (leading : ∀ c ∈ front, Text.isBlank c = true) (filled : inner ≠ [])
    (first : ∀ g ∈ inner.head?, g.fits Seal.lead Text.isBlank = false)
    (last : ∀ g ∈ inner.getLast?, g.fits Seal.lead Text.isBlank = false) :
    ∃ f, codeSpan.pieces Seal.lead (Glyph.chars (ticks (count + 1)) ++ (Glyph.chars front ++
        (inner ++ (Glyph.chars back ++ Glyph.chars (ticks (count + 1)))))) = [.found f] ∧
      f.get .code = inner := by
  generalize rest : inner ++ (Glyph.chars back ++ Glyph.chars (ticks (count + 1))) = onward
  have starts : ∀ g ∈ onward.head?, g ∈ inner.head? := by
    rw [← rest, List.head?_append_of_ne_nil _ filled]
    exact fun _ here => here
  have solid : ∀ g ∈ (Glyph.chars front ++ onward).head?, g.fits Seal.lead isTick = false := by
    intro g here
    refine fits_isTick_of_ne ?_
    rintro rfl
    cases front with
    | nil => exact none (List.mem_of_mem_head? (starts _ here))
    | cons c front =>
      obtain rfl := Glyph.char.inj (Option.some.inj here)
      exact absurd (leading _ List.mem_cons_self) (by decide)
  have opens : (Pattern.capture .ticks (.many1 isTick)).Goes
      ⟨[], Glyph.chars (ticks (count + 1)) ++ (Glyph.chars front ++ onward), []⟩
      ⟨(Glyph.chars (ticks count)).reverse ++ [Glyph.char '\x60'], Glyph.chars front ++ onward,
        [(Part.ticks, Glyph.chars (ticks (count + 1)))]⟩ := by
    have each : ∀ c ∈ ticks count, isTick c = true := fun c inside =>
      List.eq_of_mem_replicate inside ▸ rfl
    have reversed : (Glyph.chars (ticks (count + 1)) : Sheet).reverse =
        (Glyph.chars (ticks count)).reverse ++ [Glyph.char '\x60'] := List.reverse_cons
    refine (goes_many1 (by decide) (fits_of_mem_chars each) solid).capture _ ⟨?_, rfl⟩
    rw [reversed, List.append_nil]
  have blanks := @goes_many Part _ ((Glyph.chars (ticks count)).reverse ++ [Glyph.char '\x60'])
    (Glyph.chars front) onward [(Part.ticks, Glyph.chars (ticks (count + 1)))] Text.isBlank
    (fits_of_mem_chars leading) fun g here => first g (starts g here)
  have code := @goes_code back inner ((Glyph.chars front).reverse ++
    ((Glyph.chars (ticks count)).reverse ++ [Glyph.char '\x60']))
    [(Part.ticks, Glyph.chars (ticks (count + 1)))] count none trailing filled last rfl
  rw [rest] at code
  have goes := (@goes_notBehind Part _ [] (Glyph.chars (ticks (count + 1)) ++
    (Glyph.chars front ++ onward)) [] isTick (by simp)).seq
      (opens.seq ((goes_notBefore solid).seq (blanks.seq code)))
  exact ⟨_, pieces_of_ended (regular Renaming.same.quiet).advances goes rfl,
    by simp [Find.get, Find.get?, Spot.get?]⟩

end Match

end CodeSpan

namespace Sheet

theorem eq_nil_of_encodeEscapes {sheet : Sheet} (nothing : encodeEscapes sheet = []) :
    sheet = [] := by
  fun_cases encodeEscapes sheet with
  | case1 c rest escapable =>
    rw [encodeEscapes, if_pos escapable] at nothing
    cases nothing
  | case2 c rest refused =>
    rw [encodeEscapes, if_neg refused] at nothing
    cases nothing
  | case3 g rest other =>
    rw [encodeEscapes] at nothing
    · cases nothing
    · exact other
  | case4 => rfl

/-- The first glyph stays in front, unless it is the backslash of an escape. -/
theorem head?_encodeEscapes {sheet : Sheet} {g : Glyph Seal}
    (first : (encodeEscapes sheet).head? = some g) :
    sheet.head? = some g ∨ ∃ c, g = .sealed (.token c) := by
  fun_cases encodeEscapes sheet with
  | case1 c rest escapable =>
    rw [encodeEscapes, if_pos escapable] at first
    exact .inr ⟨c, (Option.some.inj first).symm⟩
  | case2 c rest refused =>
    rw [encodeEscapes, if_neg refused] at first
    exact .inl first
  | case3 h rest other =>
    rw [encodeEscapes] at first
    · exact .inl first
    · exact other
  | case4 => exact .inl first

/-- The last glyph stays the last, unless it is escaped. -/
theorem getLast?_encodeEscapes {sheet : Sheet} {g : Glyph Seal}
    (last : (encodeEscapes sheet).getLast? = some g) :
    sheet.getLast? = some g ∨ ∃ c, g = .sealed (.token c) := by
  have kept : ∀ {h : Glyph Seal} {rest : Sheet}, rest.getLast? = some g →
      (h :: rest).getLast? = some g := by
    intro h rest here
    rw [List.getLast?_cons, here]
    rfl
  have split : ∀ {h : Glyph Seal} {rest : Sheet}, (h :: rest).getLast? = some g →
      rest.getLast? = some g ∨ rest = [] ∧ h = g := by
    intro h rest here
    cases rest with
    | nil => exact .inr ⟨rfl, Option.some.inj here⟩
    | cons d rest => exact .inl here
  fun_induction encodeEscapes sheet with
  | case1 c rest escapable ih =>
    rcases split last with later | ⟨_, same⟩
    · exact (ih later).imp_left fun here => kept (kept here)
    · exact .inr ⟨c, same.symm⟩
  | case2 c rest refused ih =>
    rcases split last with later | ⟨ended, _⟩
    · exact (ih later).imp_left kept
    · cases eq_nil_of_encodeEscapes ended
  | case3 h rest other ih =>
    rcases split last with later | ⟨ended, rfl⟩
    · exact (ih later).imp_left kept
    · rw [eq_nil_of_encodeEscapes ended]
      exact .inl rfl
  | case4 => cases last

end Sheet

namespace CodeSpan

def enclosed (count : Nat) (code : Text) : Text :=
  ticks count ++ (code ++ ticks count)

theorem isPrivate_of_isBlank {c : Char} (blank : Text.isBlank c = true) :
    Unicode.isPrivate c = false := by
  rcases (show c = ' ' ∨ c = '\t' by simpa [Text.isBlank] using blank) with rfl | rfl <;> decide

theorem not_mem_ticks {c : Char} (other : c ≠ '\x60') (count : Nat) : c ∉ ticks count :=
  fun inside => other (List.eq_of_mem_replicate inside)

theorem encodeEscapes_enclosed {code front middle back : Text} (carriage : '\r' ∉ code)
    (closed : code.getLast? ≠ some '\\') (count : Nat) (whole : code = front ++ (middle ++ back))
    (leading : ∀ c ∈ front, Text.isBlank c = true) (trailing : ∀ c ∈ back, Text.isBlank c = true) :
    Sheet.encodeEscapes (Sheet.ofDocument (enclosed (count + 1) code)) =
      Glyph.chars (ticks (count + 1)) ++ (Glyph.chars front ++
        (Sheet.encodeEscapes (middle.map Sheet.glyphOf) ++
          (Glyph.chars back ++ Glyph.chars (ticks (count + 1))))) := by
  have plainTicks : ∀ c ∈ ticks (count + 1), Unicode.isPrivate c = false := fun c inside =>
    List.eq_of_mem_replicate inside ▸ by decide
  have blankless : ∀ blanks : Text, (∀ c ∈ blanks, Text.isBlank c = true) → '\\' ∉ blanks :=
    fun blanks each inside => absurd (each _ inside) (by decide)
  have tickless : '\\' ∉ ticks (count + 1) := not_mem_ticks (by decide) _
  have ends : Sheet.encodeEscapes (Glyph.chars back ++ Glyph.chars (ticks (count + 1))) =
      Glyph.chars back ++ Glyph.chars (ticks (count + 1)) := by
    have same := Sheet.encodeEscapes_chars tickless []
    rw [List.append_nil, Sheet.encodeEscapes, List.append_nil] at same
    rw [Sheet.encodeEscapes_chars (blankless back trailing), same]
  have cut : ∀ c more, (Glyph.chars back ++ Glyph.chars (ticks (count + 1)) : Sheet) =
      .char c :: more → (middle.map Sheet.glyphOf).getLast? = some (.char '\\') →
      Escape.alphabet.contains c = false := by
    intro c more same last
    cases back with
    | cons b back =>
      obtain rfl := Glyph.char.inj (List.cons.inj same).1
      have blank := trailing b List.mem_cons_self
      rcases (show b = ' ' ∨ b = '\t' by simpa [Text.isBlank] using blank) with rfl | rfl <;> decide
    | nil =>
      rw [List.getLast?_map, Option.map_eq_some_iff] at last
      obtain ⟨d, stops, backslash⟩ := last
      obtain rfl := Quoting.glyphOf_eq_char backslash
      rw [whole, List.append_nil, List.getLast?_append, stops] at closed
      exact absurd rfl closed
  rw [Sheet.ofDocument_eq_map, enclosed, whole]
  · simp only [List.map_append, Sheet.map_glyphOf_eq_chars plainTicks,
      Sheet.map_glyphOf_eq_chars fun c inside => isPrivate_of_isBlank (leading c inside),
      Sheet.map_glyphOf_eq_chars fun c inside => isPrivate_of_isBlank (trailing c inside),
      List.append_assoc]
    rw [Sheet.encodeEscapes_chars tickless, Sheet.encodeEscapes_chars (blankless front leading),
      Sheet.encodeEscapes_append cut, ends]
  · simp only [enclosed, List.mem_append, not_or]
    exact ⟨not_mem_ticks (by decide) _, carriage, not_mem_ticks (by decide) _⟩

section Enclosed

variable {code : Text} (tickless : '\x60' ∉ code) (carriage : '\r' ∉ code)
  (inked : ∃ c ∈ code, Text.isBlank c = false) (closed : code.getLast? ≠ some '\\') (count : Nat)
include tickless carriage inked closed

/-- The whole text is one span, and blanks are taken from the two ends of its content. -/
theorem codeSpans_enclosed : ∃ inner,
    Sheet.codeSpans (Sheet.encodeEscapes (Sheet.ofDocument (enclosed (count + 1) code))) =
      Sheet.codeElement inner ∧
    Sheet.restore inner = (code.trim Text.isBlank).map Sheet.glyphOf := by
  obtain ⟨front, middle, back, whole, trimmed, leading, trailing, first, last⟩ :=
    Text.exists_eq_trimmed Text.isBlank code
  have within : middle = code.trim Text.isBlank := trimmed
  have filled : middle ≠ [] := by
    rintro rfl
    obtain ⟨c, inside, ink⟩ := inked
    rw [whole] at inside
    rcases List.mem_append.1 inside with early | late
    · rw [leading c early] at ink
      cases ink
    · rw [trailing c late] at ink
      cases ink
  have inner : Sheet.encodeEscapes (middle.map Sheet.glyphOf) ≠ [] := fun nothing =>
    filled (List.map_eq_nil_iff.1 (Sheet.eq_nil_of_encodeEscapes nothing))
  have none : Glyph.char '\x60' ∉ Sheet.encodeEscapes (middle.map Sheet.glyphOf) := by
    intro inside
    rcases Sheet.mem_of_mem_encodeEscapes inside with here | ⟨_, impossible⟩
    · obtain ⟨c, member, same⟩ := List.mem_map.1 here
      obtain rfl := Quoting.glyphOf_eq_char same
      exact tickless (by simp [whole, member])
    · cases impossible
  have ink : ∀ {c : Char}, Text.isBlank c = false →
      (Sheet.glyphOf c).fits Seal.lead Text.isBlank = false := fun {c} here =>
    (Sheet.glyphOf_fits (fun _ => isBlank_of_isPrivate) c).trans here
  have encoded := encodeEscapes_enclosed carriage closed count whole leading trailing
  obtain ⟨f, found, captured⟩ := @pieces_codeSpan front back
    (Sheet.encodeEscapes (middle.map Sheet.glyphOf)) count none trailing leading inner
    (fun g here => by
      rcases Sheet.head?_encodeEscapes here with same | ⟨_, rfl⟩
      · rw [List.head?_map, Option.map_eq_some_iff] at same
        obtain ⟨c, start, rfl⟩ := same
        exact ink (first c start)
      · rfl)
    (fun g here => by
      rcases Sheet.getLast?_encodeEscapes here with same | ⟨_, rfl⟩
      · rw [List.getLast?_map, Option.map_eq_some_iff] at same
        obtain ⟨c, stop, rfl⟩ := same
        exact ink (last c stop)
      · rfl)
  refine ⟨_, ?_, Sheet.restore_encodeEscapes (Sheet.token_not_mem_map_glyphOf _)⟩
  rw [encoded, ← within, Sheet.codeSpans, Pattern.recast, found]
  simp only [List.flatMap_singleton, Piece.recast, captured]

end Enclosed

end CodeSpan

namespace Sheet

theorem sealsOf_map_glyphOf (kept : Sheet → Prop) (text : Text) :
    Structure.SealsOf kept (text.map glyphOf) := by
  intro s member
  obtain ⟨c, _, same⟩ := List.mem_map.1 member
  rw [glyphOf] at same
  split at same
  · cases same
    exact .marker _
  · split at same
    · cases same
      exact .marker _
    · cases same

/-- How the seals of code come out: as characters that no hard break is made of. -/
def released : Seal → Text
  | .token c => if c = ' ' ∨ c = '\n' then [Escape.opening] else [c]
  | .marker side => [Renaming.same.char side]
  | .key _ => [Escape.opening]

theorem released_eq (s : Seal) : ∃ c, released s = [c] ∧ c ≠ ' ' ∧ c ≠ '\n' := by
  cases s with
  | token c =>
    by_cases gap : c = ' ' ∨ c = '\n'
    · exact ⟨_, if_pos gap, by decide, by decide⟩
    · exact ⟨c, if_neg gap, not_or.1 gap⟩
  | marker side => exact ⟨_, rfl, by cases side <;> decide, by cases side <;> decide⟩
  | key fragment => exact ⟨_, rfl, by decide, by decide⟩

/-- Hard breaks are found in the output where they are found on the sheet. -/
theorem regular_hardBreak_released :
    Inline.hardBreak.Regular (.free Seal.lead) released := by
  have shuns : ∀ d, d = ' ' ∨ d = '\n' →
      Shuns (Outline.free Seal.lead : Outline Seal Empty) released (· == d) := by
    intro d gap
    have each : ∀ s, ∃ c, released s = [c] ∧ (c == d) = false := by
      intro s
      obtain ⟨c, written, space, newline⟩ := released_eq s
      refine ⟨c, written, beq_false_of_ne ?_⟩
      rcases gap with rfl | rfl
      · exact space
      · exact newline
    refine ⟨fun s => ?_, fun s => ?_, fun s => ?_⟩
    · rcases gap with rfl | rfl <;> rfl
    · obtain ⟨c, written, other⟩ := each s
      exact ⟨c, [], written, other⟩
    · obtain ⟨c, written, other⟩ := each s
      exact ⟨[], c, written, other⟩
  have foreign : Foreign released (· == ' ') := by
    intro s c inside
    obtain ⟨d, written, space, _⟩ := released_eq s
    rw [written, List.mem_singleton] at inside
    exact beq_false_of_ne (inside ▸ space)
  refine ⟨fun s nothing => ?_, ?_, ?_, (Advances.one _).seq_left _⟩
  · obtain ⟨c, written, _⟩ := released_eq s
    rw [written] at nothing
    cases nothing
  · exact .seq (.one (shuns ' ' (.inl rfl))) (.seq (.many1 (shuns ' ' (.inl rfl)))
      (.one (shuns '\n' (.inr rfl))))
  · exact (Stuck.one foreign).seq _

theorem released_of_mem_codeElement {inner : Sheet} {text : Text}
    (restored : restore inner = text.map glyphOf) {s : Seal}
    (inside : Glyph.sealed s ∈ codeElement inner) : released s = Renaming.same.shown s := by
  have apart : ∀ c ∈ guarded, ¬ (c = ' ' ∨ c = '\n') := by decide
  have plain : ∀ tag : Text, Glyph.sealed s ∉ (Glyph.chars tag : Sheet) := by
    intro tag member
    obtain ⟨c, _, impossible⟩ := Glyph.mem_chars.1 member
    cases impossible
  rw [codeElement, restored, protect_eq] at inside
  rcases List.mem_append.1 inside with begun | last
  · rcases List.mem_append.1 begun with first | here
    · exact absurd first (plain _)
    · obtain ⟨g, member, drawn⟩ := List.mem_flatMap.1 here
      cases g with
      | sealed t =>
        obtain rfl := Glyph.sealed.inj (List.mem_singleton.1 drawn)
        cases sealsOf_map_glyphOf Structure.Keyless text _ member with
        | token => exact absurd member (token_not_mem_map_glyphOf text _)
        | marker => rfl
        | key kept => exact kept.elim
      | char c =>
        change Glyph.sealed s ∈ protect [.char c] at drawn
        rcases protect_char c with same | ⟨known, same | ⟨name, same⟩⟩ <;> rw [same] at drawn
        · cases List.mem_singleton.1 drawn
        · obtain rfl := Glyph.sealed.inj (List.mem_singleton.1 drawn)
          exact if_neg (apart c known)
        · simp [Glyph.mem_chars] at drawn
  · exact absurd last (plain _)

end Sheet

namespace CodeSpan

variable {code : Text} (tickless : '\x60' ∉ code) (carriage : '\r' ∉ code)
  (inked : ∃ c ∈ code, Text.isBlank c = false) (closed : code.getLast? ≠ some '\\') (count : Nat)
include tickless carriage inked closed

/-- Of all passes only that for hard line breaks has anything to do with the content of a code
span. -/
theorem convert_enclosed (references : ReferenceTable) :
    Inline.convert references (enclosed (count + 1) code) =
      Inline.renderBreaks ("<code>".toList ++ Html.escape (code.trim Text.isBlank) ++
        "</code>".toList) := by
  obtain ⟨inner, spans, restored⟩ := codeSpans_enclosed tickless carriage inked closed count
  have prints := (Renaming.prints_normalize (enclosed (count + 1) code)).encodeEscapes.codeSpans
  rw [spans] at prints
  have made : Structure.Made Structure.Keyless (Sheet.codeElement inner) :=
    Structure.made_codeElement (restored ▸ Sheet.sealsOf_map_glyphOf _ _)
  have linkless := Sheet.linkless (Sheet.not_mem_codeElement (by decide) inner)
    (Structure.not_finds_autolink made)
  have markless := Sheet.markless (Sheet.not_mem_codeElement (by decide) inner)
    (Sheet.not_mem_codeElement (by decide) inner)
  have broken := prints.breaks.unescape
  have finished := Sheet.finished_finish (Sheet.unescape (Sheet.breaks (Sheet.codeElement inner)))
  rw [broken.finish_eq] at finished
  have agree : ∀ g ∈ Sheet.codeElement inner,
      g.spell Sheet.released = g.spell Renaming.same.shown := by
    intro g member
    cases g with
    | char c => rfl
    | sealed s => exact Sheet.released_of_mem_codeElement restored member
  have element : spell Sheet.released (Sheet.codeElement inner) =
      "<code>".toList ++ Html.escape (code.trim Text.isBlank) ++ "</code>".toList := by
    rw [spell, List.flatMap_congr agree, ← spell, ← Renaming.spell_finish, Sheet.codeElement,
      restored, Sheet.finish_append, Sheet.finish_append, Sheet.finish_chars, Sheet.finish_chars,
      spell_append, spell_append, spell_chars, spell_chars, Sheet.spell_finish_protect]
  rw [Inline.convert, Inline.render, prints.links_of_linkless linkless,
    prints.emphasis_of_markless markless, broken.unescape.decodeMarkers finished,
    ← broken.finish_eq, Renaming.spell_finish_unescape, ← element, Inline.renderBreaks,
    replace_spell Sheet.regular_hardBreak_released, Sheet.breaks, Pattern.recast, spell,
    List.flatMap_assoc]
  refine List.flatMap_congr fun piece member => ?_
  cases piece with
  | plain g =>
    exact (List.flatMap_singleton ..).trans (agree g (mem_of_plain_mem_pieces member)).symm
  | found f => rfl

/-- A line that ends in two spaces is broken inside of code as well. -/
example : Inline.renderBreaks "<code>a  \nb</code>".toList = "<code>a<br>\nb</code>".toList := by
  decide

end CodeSpan

section Infix

variable {part front back text : Text}

theorem infix_of_append_left (filled : part ≠ []) (apart : ∀ c ∈ part, c ∉ front)
    (inside : part <:+: front ++ text) : part <:+: text := by
  rcases List.infix_append_iff.1 inside with within | within | ⟨first, second, rfl, ends, starts⟩
  · obtain ⟨c, rest, rfl⟩ := List.exists_cons_of_ne_nil filled
    exact absurd (within.subset List.mem_cons_self) (apart c List.mem_cons_self)
  · exact within
  · cases first with
    | nil => exact starts.isInfix
    | cons c first => exact absurd (ends.subset List.mem_cons_self) (apart c (by simp))

theorem infix_of_append_right (filled : part ≠ []) (apart : ∀ c ∈ part, c ∉ back)
    (inside : part <:+: text ++ back) : part <:+: text := by
  rw [← List.reverse_infix, List.reverse_append] at inside
  refine List.reverse_infix.1
    (infix_of_append_left (by simpa using filled) (fun c member => ?_) inside)
  simpa using apart c (List.mem_reverse.1 member)

end Infix

/-- Characters that belong to a hard line break. -/
def Breaking (part : Text) : Prop :=
  ∀ c ∈ part, c = ' ' ∨ c = '\n'

namespace Html

/-- Escaping changes a character into others than spaces and newlines, or not at all. -/
theorem escapeChar_cases {part : Text} (breaking : Breaking part) (c : Char) :
    escapeChar c = [c] ∨ escapeChar c ≠ [] ∧ ∀ d ∈ part, d ∉ escapeChar c := by
  have apart : ∀ written : Text, ' ' ∉ written → '\n' ∉ written → ∀ d ∈ part, d ∉ written := by
    intro written space newline d member inside
    rcases breaking d member with rfl | rfl
    · exact space inside
    · exact newline inside
  unfold escapeChar
  split
  · exact .inr ⟨by decide, apart _ (by decide) (by decide)⟩
  · exact .inr ⟨by decide, apart _ (by decide) (by decide)⟩
  · exact .inr ⟨by decide, apart _ (by decide) (by decide)⟩
  · exact .inl rfl

theorem prefix_of_escape {part text : Text} (breaking : Breaking part)
    (front : part <+: escape text) : part <+: text := by
  induction part generalizing text with
  | nil => exact List.nil_prefix
  | cons c more ih =>
    cases text with
    | nil => exact absurd front (by simp [escape])
    | cons d rest =>
      rw [escape, List.flatMap_cons, ← escape] at front
      rcases escapeChar_cases breaking d with same | ⟨filled, apart⟩
      · rw [same] at front
        obtain ⟨rfl, later⟩ := List.cons_prefix_cons.1 front
        have within := ih (fun e member => breaking e (List.mem_cons_of_mem _ member)) later
        exact List.cons_prefix_cons.2 ⟨rfl, within⟩
      · obtain ⟨e, written, drawn⟩ := List.exists_cons_of_ne_nil filled
        rw [drawn] at front apart
        obtain ⟨rfl, _⟩ := List.cons_prefix_cons.1 front
        exact absurd List.mem_cons_self (apart c List.mem_cons_self)

theorem infix_of_escape {part text : Text} (filled : part ≠ []) (breaking : Breaking part)
    (inside : part <:+: escape text) : part <:+: text := by
  induction text with
  | nil => exact inside
  | cons c rest ih =>
    have whole : escape (c :: rest) = escapeChar c ++ escape rest := List.flatMap_cons
    rcases escapeChar_cases breaking c with same | ⟨_, apart⟩
    · rw [whole, same, List.singleton_append, List.infix_cons_iff, ← List.singleton_append, ← same,
        ← whole] at inside
      exact List.infix_cons_iff.2 (inside.imp (prefix_of_escape breaking) ih)
    · rw [whole] at inside
      exact List.infix_cons_iff.2 (.inr (ih (infix_of_append_left filled apart inside)))

end Html

/-- Without two spaces in front of a newline there is nothing to break. -/
theorem Inline.renderBreaks_eq_self {text : Text} (unbroken : ¬ "  \n".toList <:+: text) :
    renderBreaks text = text := by
  have absent := @Sheet.absent_hardBreak (Glyph.chars text) fun inside => by
    obtain ⟨part, within, same⟩ := List.infix_map_iff.1 inside
    rw [Glyph.chars, List.map_inj_right fun _ _ => Glyph.char.inj] at same
    exact unbroken (same ▸ within)
  have regular := Inline.regular_hardBreak (Renaming.same.quiet)
  rw [renderBreaks, ← spell_chars Renaming.same.face text, replace_spell regular]
  change (Inline.hardBreak.pieces Seal.lead (Glyph.chars text)).flatMap _ = _
  rw [absent.pieces_eq, List.flatMap_map]
  rfl

namespace CodeSpan

/-- Where no hard line break is made, the content of a code span is inert. -/
theorem convert_enclosed_of_unbroken {code : Text} (tickless : '\x60' ∉ code)
    (carriage : '\r' ∉ code) (inked : ∃ c ∈ code, Text.isBlank c = false)
    (closed : code.getLast? ≠ some '\\') (unbroken : ¬ "  \n".toList <:+: code) (count : Nat)
    (references : ReferenceTable) :
    Inline.convert references (enclosed (count + 1) code) =
      "<code>".toList ++ Html.escape (code.trim Text.isBlank) ++ "</code>".toList := by
  rw [convert_enclosed tickless carriage inked closed]
  refine Inline.renderBreaks_eq_self fun inside => unbroken ?_
  have between := infix_of_append_left (by decide) (by decide)
    (infix_of_append_right (by decide) (by decide) inside)
  have breaking : Breaking "  \n".toList := by simp [Breaking]
  obtain ⟨front, _, back, whole, rfl, _⟩ := Text.exists_eq_trimmed Text.isBlank code
  refine (Html.infix_of_escape (by decide) breaking between).trans ⟨front, back, ?_⟩
  rw [List.append_assoc]
  exact whole.symm

/-- Spaces that no newline follows are kept, and so are stars. -/
theorem convert_enclosed_emphasis :
    Inline.convert .empty (enclosed 1 "*a*  b".toList) = "<code>*a*  b</code>".toList :=
  convert_enclosed_of_unbroken (by decide) (by decide) ⟨'a', by decide, by decide⟩ (by decide)
    (by decide) 0 .empty

end CodeSpan

end Markdown
