import Markdown.Proofs.Pattern.Goes

set_option autoImplicit false

namespace Markdown.Listing

open Pattern

/-- A bullet, or a number with a full stop. -/
inductive IsMarker : Text → Prop
  | bullet {c : Char} (mark : c = '*' ∨ c = '+' ∨ c = '-') : IsMarker [c]
  | number {digits : Text} (some : digits ≠ [])
    (each : ∀ c ∈ digits, Unicode.isDigit c = true) : IsMarker (digits ++ ['.'])

variable {m : Text} {behind rest : Sheet} {captures : List (Part × Sheet)}

theorem IsMarker.exists_head (isMarker : IsMarker m) :
    ∃ c more, m = c :: more ∧ isHead c = true := by
  cases isMarker with
  | bullet mark => exact ⟨_, [], rfl, by rcases mark with rfl | rfl | rfl <;> rfl⟩
  | number some each =>
    obtain ⟨c, digits, rfl⟩ := List.exists_cons_of_ne_nil some
    exact ⟨c, digits ++ ['.'], rfl, by simp [isHead, each c List.mem_cons_self]⟩

/-- A character that no marker begins with. -/
theorem ne_of_isHead {c : Char} (head : isHead c = true) (d : Char) (other : isHead d = false) :
    c ≠ d := by
  rintro rfl
  rw [head] at other
  cases other

theorem isBlank_of_isHead {c : Char} (head : isHead c = true) : Text.isBlank c = false := by
  have space := ne_of_isHead head ' ' (by decide)
  have tab := ne_of_isHead head '\t' (by decide)
  simp [Text.isBlank, space, tab]

theorem isPrivate_of_isHead {c : Char} (head : isHead c = true) : Unicode.isPrivate c = false := by
  refine Bool.eq_false_iff.2 fun here => ?_
  have plain := fun d => @Unicode.ne_of_isPrivate c d here
  simp [isHead, Unicode.isDigit_of_isPrivate here, plain '*' (by decide), plain '+' (by decide),
    plain '-' (by decide)] at head

theorem ne_of_isDigit {c d : Char} (digit : Unicode.isDigit c = true)
    (other : Unicode.isDigit d = false) : c ≠ d := by
  rintro rfl
  rw [digit] at other
  cases other

theorem IsMarker.kinds (isMarker : IsMarker m) : ∀ c ∈ m, isHead c = true ∨ c = '.' := by
  cases isMarker with
  | bullet mark =>
    rintro c member
    obtain rfl := List.mem_singleton.1 member
    rcases mark with rfl | rfl | rfl <;> exact .inl rfl
  | number some each =>
    intro c member
    rcases List.mem_append.1 member with digit | stop
    · exact .inl (by simp [isHead, each c digit])
    · exact .inr (List.mem_singleton.1 stop)

/-- A character that is in no marker. -/
theorem IsMarker.not_mem (isMarker : IsMarker m) {c : Char} (other : isHead c = false)
    (stop : c ≠ '.') : c ∉ m := fun member =>
  (isMarker.kinds c member).elim (fun head => ne_of_isHead head c other rfl) stop

theorem spots_marker (isMarker : IsMarker m) :
    marker.spots Seal.lead ⟨behind, Glyph.chars m ++ rest, captures⟩ =
      [⟨(Glyph.chars m).reverse ++ behind, rest, captures⟩] := by
  have either : marker = .either (.one fun c => c == '*' || c == '+' || c == '-')
      (.seq (.many1 Unicode.isDigit) (.char '.')) := rfl
  rw [either, spots]
  cases isMarker with
  | @bullet c mark =>
    have digit : Unicode.isDigit c = false := by rcases mark with rfl | rfl | rfl <;> decide
    have bullet : (Glyph.char c : Glyph Seal).fits Seal.lead
        (fun c => c == '*' || c == '+' || c == '-') = true := by
      rcases mark with rfl | rfl | rfl <;> rfl
    have number : (Pattern.many1 Unicode.isDigit : Pattern Part).spots Seal.lead
        ⟨behind, .char c :: rest, captures⟩ = [] :=
      spots_seq_eq_nil _ (spots_one_of_not digit)
    rw [Glyph.chars_cons, Glyph.chars_nil, List.singleton_append, spots_seq_eq_nil _ number,
      spots_one_of_fits bullet]
    rfl
  | @number digits some each =>
    obtain ⟨c, digits, rfl⟩ := List.exists_cons_of_ne_nil some
    obtain ⟨first, others⟩ := List.forall_mem_cons.1 each
    have bullet : (Glyph.char c : Glyph Seal).fits Seal.lead
        (fun c => c == '*' || c == '+' || c == '-') = false := by
      have ne := fun d other => @ne_of_isDigit c d first other
      simp [Glyph.fits, ne '*' (by decide), ne '+' (by decide), ne '-' (by decide)]
    -- The stop stands behind the last digit and nowhere before it.
    have run : ((Pattern.many Unicode.isDigit : Pattern Part).spots Seal.lead
        ⟨.char c :: behind, Glyph.chars digits ++ Glyph.char '.' :: rest, captures⟩).flatMap
          ((Pattern.char '.').spots Seal.lead) =
        (Pattern.char '.').spots Seal.lead
          ⟨(Glyph.chars digits).reverse ++ Glyph.char c :: behind, .char '.' :: rest, captures⟩ := by
      refine flatMap_spots_many (fun g member => ?_) (by simp [Glyph.fits]; decide)
        fun early g late whole => ?_
      · obtain ⟨d, inside, rfl⟩ := Glyph.mem_chars.1 member
        exact others d inside
      · obtain ⟨d, inside, rfl⟩ := Glyph.mem_chars.1 (whole ▸ List.mem_append_right _ List.mem_cons_self)
        exact spots_one_of_not (beq_false_of_ne (ne_of_isDigit (others d inside) (by decide)))
    have whole : Glyph.chars (c :: digits ++ ['.']) ++ rest =
        .char c :: (Glyph.chars digits ++ Glyph.char '.' :: rest) := by simp
    have begun : (Glyph.char c : Glyph Seal).fits Seal.lead Unicode.isDigit = true := first
    have stop : (Glyph.char '.' : Glyph Seal).fits Seal.lead (· == '.') = true := rfl
    rw [whole, spots_one_of_not bullet, List.nil_append, spots, Pattern.many1, spots,
      spots_one_of_fits begun, List.flatMap_singleton, run, Pattern.char, spots_one_of_fits stop]
    simp

theorem goes_marker (isMarker : IsMarker m) :
    marker.Goes ⟨behind, Glyph.chars m ++ rest, captures⟩
      ⟨(Glyph.chars m).reverse ++ behind, rest, captures⟩ := by
  rw [Goes, spots_marker isMarker]
  rfl

/-- Behind a marker all blanks are taken. -/
theorem goes_markerGap (isMarker : IsMarker m) {b : Glyph Seal} {blanks : Sheet}
    (first : b.fits Seal.lead Text.isBlank = true)
    (each : ∀ g ∈ blanks, g.fits Seal.lead Text.isBlank = true)
    (outside : ∀ g ∈ rest.head?, g.fits Seal.lead Text.isBlank = false) :
    markerGap.Goes ⟨behind, Glyph.chars m ++ b :: (blanks ++ rest), captures⟩
      ⟨blanks.reverse ++ b :: ((Glyph.chars m).reverse ++ behind), rest, captures⟩ :=
  (goes_marker isMarker).seq (goes_many1 first each outside)

theorem spots_markerGap_ne_nil (isMarker : IsMarker m) {b : Glyph Seal}
    (blank : b.fits Seal.lead Text.isBlank = true) :
    markerGap.spots Seal.lead ⟨behind, Glyph.chars m ++ b :: rest, captures⟩ ≠ [] := by
  rw [markerGap, spots, spots_marker isMarker, List.flatMap_singleton, Pattern.many1, spots,
    spots_one_of_fits blank, List.flatMap_singleton]
  exact List.ne_nil_of_mem (self_mem_many _ _)

end Markdown.Listing
