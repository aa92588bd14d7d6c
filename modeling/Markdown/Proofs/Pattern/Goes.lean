import Markdown.Proofs.Quoting.Marks

set_option autoImplicit false

namespace Markdown.Pattern

variable {slot : Type} [DecidableEq slot]

/-- The first outcome at a spot is the later one. -/
def Goes (pattern : Pattern slot) (spot later : Spot Seal slot) : Prop :=
  (pattern.spots Seal.lead spot).head? = some later

variable {pattern first second body : Pattern slot} {spot middle later : Spot Seal slot}
  {behind passed rest : Sheet} {captures : List (slot × Sheet)} {accepts : Char → Bool}

theorem Goes.mem (goes : pattern.Goes spot later) : later ∈ pattern.spots Seal.lead spot :=
  List.mem_of_mem_head? goes

theorem exists_goes (some : pattern.spots Seal.lead spot ≠ []) : ∃ later, pattern.Goes spot later :=
  ⟨_, List.head?_eq_some_head some⟩

omit [DecidableEq slot] in
theorem head?_flatMap_of_head? {α β : Type} {items : List α} {f : α → List β} {item : α}
    {result : β}
    (first : items.head? = some item) (next : (f item).head? = some result) :
    (items.flatMap f).head? = some result := by
  obtain ⟨others, tried⟩ := List.head?_eq_some_iff.1 first
  obtain ⟨more, reached⟩ := List.head?_eq_some_iff.1 next
  rw [tried, List.flatMap_cons, reached]
  rfl

theorem Goes.seq (early : first.Goes spot middle) (late : second.Goes middle later) :
    (first.seq second).Goes spot later :=
  head?_flatMap_of_head? early late

/-- A way that is not tried first is taken where all the others come to nothing. -/
theorem Goes.seq_of_sole (way : middle ∈ first.spots Seal.lead spot)
    (late : second.Goes middle later)
    (others : ∀ other ∈ first.spots Seal.lead spot, other ≠ middle →
      second.spots Seal.lead other = []) : (first.seq second).Goes spot later := by
  rw [Goes, spots]
  generalize first.spots Seal.lead spot = ways at way others
  induction ways with
  | nil => cases way
  | cons other ways ih =>
    obtain ⟨here, rest⟩ := List.forall_mem_cons.1 others
    rw [List.flatMap_cons]
    by_cases same : other = middle
    · obtain ⟨more, reached⟩ := List.head?_eq_some_iff.1 late
      rw [same, reached]
      rfl
    · rw [here same]
      exact ih ((List.mem_cons.1 way).resolve_left (Ne.symm same)) rest

/-- What has been passed is kept. -/
theorem Goes.capture (name : slot) (goes : body.Goes spot later) (passes : spot.Passes passed later) :
    (Pattern.capture name body).Goes spot
      ⟨later.behind, later.ahead, (name, passed) :: later.captures⟩ := by
  rw [Goes, spots, List.head?_map, goes, Option.map_some, passes.between_eq]

theorem Goes.left (goes : first.Goes spot later) (second : Pattern slot) :
    (first.either second).Goes spot later := by
  rw [Goes, spots, List.head?_append, goes]
  rfl

theorem Goes.right (none : first.spots Seal.lead spot = []) (goes : second.Goes spot later) :
    (first.either second).Goes spot later := by
  rw [Goes, spots, none]
  exact goes

theorem goes_optional (none : body.spots Seal.lead spot = []) :
    (Pattern.optional body).Goes spot spot :=
  .right none rfl

theorem goes_one {g : Glyph Seal} (fits : g.fits Seal.lead accepts = true) :
    (Pattern.one accepts : Pattern slot).Goes ⟨behind, g :: rest, captures⟩
      ⟨g :: behind, rest, captures⟩ := by
  simp [Goes, spots, fits, Spot.past]

theorem goes_char (c : Char) :
    (Pattern.char c : Pattern slot).Goes ⟨behind, .char c :: rest, captures⟩
      ⟨.char c :: behind, rest, captures⟩ :=
  goes_one (by simp [Glyph.fits])

theorem goes_lineStart (starts : Sheet.StartsLine behind) :
    (Pattern.lineStart : Pattern slot).Goes ⟨behind, rest, captures⟩ ⟨behind, rest, captures⟩ := by
  rw [Goes, spots_lineStart starts]
  rfl

theorem goes_ahead (some : body.spots Seal.lead spot ≠ []) :
    (Pattern.ahead true body).Goes spot spot := by
  rw [Goes, spots, List.head?_eq_some_head some]
  rfl

theorem of_mem_ahead (member : later ∈ (Pattern.ahead true body).spots Seal.lead spot) :
    later = spot ∧ body.spots Seal.lead spot ≠ [] := by
  rw [spots] at member
  split at member
  · next some => exact ⟨List.mem_singleton.1 member, fun none => by rw [none] at some; cases some⟩
  · cases member

theorem goes_notBehind (other : ∀ g ∈ behind.head?, g.fits Seal.lead accepts = false) :
    (Pattern.notBehind accepts : Pattern slot).Goes ⟨behind, rest, captures⟩
      ⟨behind, rest, captures⟩ := by
  have holds : (Cursor.follows accepts
      ((⟨behind, rest, captures⟩ : Spot Seal slot).cursor fun s => [Seal.lead s])) = false := by
    cases behind with
    | nil => rfl
    | cons g behind => cases g <;> exact other _ rfl
  rw [Goes, notBehind, spots, holds]
  rfl

theorem goes_notBefore (other : ∀ g ∈ rest.head?, g.fits Seal.lead accepts = false) :
    (Pattern.notBefore accepts : Pattern slot).Goes ⟨behind, rest, captures⟩
      ⟨behind, rest, captures⟩ := by
  have holds : (Cursor.precedes accepts
      ((⟨behind, rest, captures⟩ : Spot Seal slot).cursor fun s => [Seal.lead s])) = false := by
    cases rest with
    | nil => rfl
    | cons g rest => cases g <;> exact other _ rfl
  rw [Goes, notBefore, spots, holds]
  rfl

/-- A captured text is passed once more where it stands again. -/
theorem goes_same {name : slot} {text written : Text} (fold : Char → Char)
    (alike : written.map fold = text.map fold)
    (kept : Spot.get? (⟨behind, Glyph.chars written ++ rest, captures⟩ : Spot Seal slot) name =
      some (Glyph.chars text)) :
    (Pattern.same name fold).Goes ⟨behind, Glyph.chars written ++ rest, captures⟩
      ⟨(Glyph.chars written).reverse ++ behind, rest, captures⟩ := by
  have past : Spot.past? fold (Glyph.chars text) ⟨behind, Glyph.chars written ++ rest, captures⟩ =
      some ⟨(Glyph.chars written).reverse ++ behind, rest, captures⟩ := by
    clear kept
    induction text generalizing behind written with
    | nil =>
      obtain rfl := List.map_eq_nil_iff.1 alike
      rfl
    | cons c text ih =>
      obtain ⟨d, written, rfl, first, later⟩ := List.map_eq_cons_iff.1 alike
      rw [Glyph.chars_cons, Glyph.chars_cons, List.cons_append, Spot.past?, if_pos first, ih later]
      simp
  rw [Goes, spots, kept]
  exact congrArg (List.head? ∘ Option.toList) past

theorem goes_literal (text : Text) :
    (Pattern.literal text : Pattern slot).Goes ⟨behind, Glyph.chars text ++ rest, captures⟩
      ⟨(Glyph.chars text).reverse ++ behind, rest, captures⟩ := by
  rw [literal]
  induction text generalizing behind with
  | nil => rfl
  | cons c text ih =>
    cases text with
    | nil => exact goes_char c
    | cons d text =>
      have later := @ih (.char c :: behind)
      rw [Glyph.chars_cons, List.reverse_cons, List.append_assoc]
      exact (goes_char c).seq later

theorem spots_one_of_fits {g : Glyph Seal} (fits : g.fits Seal.lead accepts = true) :
    (Pattern.one accepts : Pattern slot).spots Seal.lead ⟨behind, g :: rest, captures⟩ =
      [⟨g :: behind, rest, captures⟩] := by
  simp [spots, fits, Spot.past]

theorem spots_one_of_not {g : Glyph Seal} (refused : g.fits Seal.lead accepts = false) :
    (Pattern.one accepts : Pattern slot).spots Seal.lead ⟨behind, g :: rest, captures⟩ = [] := by
  simp [spots, refused]

theorem spots_notBefore_of_fits {g : Glyph Seal} (fits : g.fits Seal.lead accepts = true) :
    (Pattern.notBefore accepts : Pattern slot).spots Seal.lead ⟨behind, g :: rest, captures⟩ = [] := by
  have holds : (Cursor.precedes accepts
      ((⟨behind, g :: rest, captures⟩ : Spot Seal slot).cursor fun s => [Seal.lead s])) = true := by
    cases g <;> exact fits
  rw [notBefore, spots, holds]
  rfl

theorem spots_newline_of_ne {g : Glyph Seal} (other : g ≠ .char '\n') :
    (Pattern.char '\n' : Pattern slot).spots Seal.lead ⟨behind, g :: rest, captures⟩ = [] := by
  refine spots_one_of_not (Bool.eq_false_iff.2 fun fits => ?_)
  obtain ⟨c, rfl, here⟩ := exists_char_of_fits (by decide) fits
  exact other (congrArg Glyph.char (eq_of_beq here))

theorem spots_textEnd_of_cons {g : Glyph Seal} :
    (Pattern.textEnd : Pattern slot).spots Seal.lead ⟨behind, g :: rest, captures⟩ = [] := by
  refine List.eq_nil_iff_forall_not_mem.2 fun later member => ?_
  obtain ⟨_, here⟩ := holds_of_mem_place member
  cases ahead_eq_nil here

theorem spots_seq_eq_nil (second : Pattern slot) (none : first.spots Seal.lead spot = []) :
    (first.seq second).spots Seal.lead spot = [] := by
  rw [spots, none, List.flatMap_nil]

/-- Where no blank stands no spaces are taken. -/
theorem goes_spaces (outside : ∀ g ∈ rest.head?, g.fits Seal.lead Text.isBlank = false) :
    (Pattern.upTo 3 (.char ' ') : Pattern slot).Goes ⟨behind, rest, captures⟩
      ⟨behind, rest, captures⟩ := by
  refine goes_optional (spots_seq_eq_nil _ ?_)
  cases rest with
  | nil => rfl
  | cons g rest =>
    refine spots_one_of_not (Bool.eq_false_iff.2 fun space => ?_)
    obtain ⟨c, rfl, here⟩ := exists_char_of_fits (by decide) space
    obtain rfl : c = ' ' := by simpa using here
    exact absurd (outside _ rfl) (by decide)

/-- Where the work behind an eager run comes to nothing at the places on its way, only the end of the
run is left. -/
theorem flatMap_spots_many {β : Type} {next : Spot Seal slot → List β}
    (each : ∀ g ∈ passed, g.fits Seal.lead accepts = true)
    (outside : ∀ g ∈ rest.head?, g.fits Seal.lead accepts = false)
    (none : ∀ early g late, passed = early ++ g :: late →
      next ⟨early.reverse ++ behind, g :: (late ++ rest), captures⟩ = []) :
    ((Pattern.many accepts).spots Seal.lead ⟨behind, passed ++ rest, captures⟩).flatMap next =
      next ⟨passed.reverse ++ behind, rest, captures⟩ := by
  rw [spots, Spot.stops]
  induction passed generalizing behind with
  | nil =>
    cases rest with
    | nil => simp [Spot.nearStops]
    | cons g rest => simp [Spot.nearStops, outside g rfl]
  | cons g passed ih =>
    obtain ⟨here, later⟩ := List.forall_mem_cons.1 each
    have onward := @ih (g :: behind) later fun early h late whole => by
      have none := none (g :: early) h late (by rw [whole, List.cons_append])
      simpa using none
    have start := none [] g passed rfl
    rw [List.reverse_nil, List.nil_append] at start
    rw [List.cons_append, Spot.nearStops, if_pos here, List.reverse_cons, List.flatMap_append,
      onward, List.flatMap_cons, List.flatMap_nil, start]
    simp

/-- An eager run takes all it can. -/
theorem goes_many (each : ∀ g ∈ passed, g.fits Seal.lead accepts = true)
    (outside : ∀ g ∈ rest.head?, g.fits Seal.lead accepts = false) :
    (Pattern.many accepts : Pattern slot).Goes ⟨behind, passed ++ rest, captures⟩
      ⟨passed.reverse ++ behind, rest, captures⟩ := by
  rw [Goes, spots, Spot.stops]
  induction passed generalizing behind with
  | nil =>
    cases rest with
    | nil => simp [Spot.nearStops]
    | cons g rest => simp [Spot.nearStops, outside g rfl]
  | cons g passed ih =>
    obtain ⟨here, later⟩ := List.forall_mem_cons.1 each
    have onward := @ih (g :: behind) later
    rw [List.cons_append, Spot.nearStops, if_pos here, List.reverse_cons, List.head?_append, onward]
    simp

theorem goes_many1 {g : Glyph Seal} (first : g.fits Seal.lead accepts = true)
    (each : ∀ g ∈ passed, g.fits Seal.lead accepts = true)
    (outside : ∀ g ∈ rest.head?, g.fits Seal.lead accepts = false) :
    (Pattern.many1 accepts : Pattern slot).Goes ⟨behind, g :: (passed ++ rest), captures⟩
      ⟨passed.reverse ++ g :: behind, rest, captures⟩ :=
  (goes_one first).seq (goes_many each outside)

/-- A run of nothing. -/
theorem goes_many_nothing (outside : ∀ g ∈ rest.head?, g.fits Seal.lead accepts = false) :
    (Pattern.many accepts : Pattern slot).Goes ⟨behind, rest, captures⟩
      ⟨behind, rest, captures⟩ :=
  @goes_many slot _ behind [] rest captures accepts (by simp) outside

/-- A lazy run goes on past the places at which the work behind it comes to nothing. -/
theorem head?_flatMap_few {β : Type} {next : Spot Seal slot → List β} {result : β}
    (each : ∀ g ∈ passed, g.fits Seal.lead accepts = true)
    (none : ∀ early g late, passed = early ++ g :: late →
      next ⟨early.reverse ++ behind, g :: (late ++ rest), captures⟩ = [])
    (here : (next ⟨passed.reverse ++ behind, rest, captures⟩).head? = some result) :
    (((Pattern.few accepts).spots Seal.lead ⟨behind, passed ++ rest, captures⟩).flatMap
      next).head? = some result := by
  rw [spots, Spot.stops]
  induction passed generalizing behind with
  | nil => cases rest <;> simp_all [Spot.nearStops]
  | cons g passed ih =>
    obtain ⟨fits, later⟩ := List.forall_mem_cons.1 each
    have onward := @ih (g :: behind) later (fun early h late whole => by
      have none := none (g :: early) h late (by rw [whole, List.cons_append])
      simpa using none) (by simpa using here)
    have start := none [] g passed rfl
    rw [List.reverse_nil, List.nil_append] at start
    rw [List.cons_append, Spot.nearStops, if_pos fits, List.flatMap_cons, start]
    exact onward

omit [DecidableEq slot] in
theorem mem_nearStops (each : ∀ g ∈ passed, g.fits Seal.lead accepts = true) :
    (⟨passed.reverse ++ behind, rest, captures⟩ : Spot Seal slot) ∈
      Spot.nearStops Seal.lead accepts behind (passed ++ rest) captures := by
  induction passed generalizing behind with
  | nil => cases rest <;> exact List.mem_cons_self
  | cons g passed ih =>
    obtain ⟨here, later⟩ := List.forall_mem_cons.1 each
    have onward := @ih (g :: behind) later
    rw [List.cons_append, Spot.nearStops, if_pos here]
    exact List.mem_cons_of_mem _ (by simpa using onward)

theorem mem_many (each : ∀ g ∈ passed, g.fits Seal.lead accepts = true) :
    ⟨passed.reverse ++ behind, rest, captures⟩ ∈
      (Pattern.many accepts : Pattern slot).spots Seal.lead ⟨behind, passed ++ rest, captures⟩ :=
  List.mem_reverse.2 (mem_nearStops each)

theorem mem_few (each : ∀ g ∈ passed, g.fits Seal.lead accepts = true) :
    ⟨passed.reverse ++ behind, rest, captures⟩ ∈
      (Pattern.few accepts : Pattern slot).spots Seal.lead ⟨behind, passed ++ rest, captures⟩ :=
  mem_nearStops each

theorem mem_capture (name : slot) (member : later ∈ body.spots Seal.lead spot)
    (passes : spot.Passes passed later) :
    ⟨later.behind, later.ahead, (name, passed) :: later.captures⟩ ∈
      (Pattern.capture name body).spots Seal.lead spot :=
  List.mem_map.2 ⟨later, member, by rw [passes.between_eq]⟩

theorem mem_upTo_char (c : Char) {count most : Nat} (few : count ≤ most) :
    ⟨(Glyph.chars (List.replicate count c)).reverse ++ behind, rest, captures⟩ ∈
      (Pattern.upTo most (.char c) : Pattern slot).spots Seal.lead
        ⟨behind, Glyph.chars (List.replicate count c) ++ rest, captures⟩ := by
  induction count generalizing behind most with
  | zero =>
    cases most with
    | zero => exact List.mem_singleton_self _
    | succ most => exact List.mem_append_right _ (List.mem_singleton_self _)
  | succ count ih =>
    obtain ⟨most, rfl⟩ := Nat.exists_eq_add_of_le' (Nat.lt_of_lt_of_le (Nat.succ_pos count) few)
    have onward := @ih (.char c :: behind) most (by omega)
    rw [List.replicate_succ, Glyph.chars_cons, List.reverse_cons, List.append_assoc]
    exact List.mem_append_left _ (List.mem_flatMap.2 ⟨_, (goes_char c).mem, onward⟩)

end Markdown.Pattern
