import Mathlib.Data.List.Basic
import Markdown.Proofs.Glyph.Basic

set_option autoImplicit false

namespace Markdown

namespace Cursor

/-- The places that a run of the class reaches, the nearest first. -/
def nearStops (accepts : Char → Bool) : Nat → Text → Text → List Cursor
  | offset, before, [] => [⟨offset, before, []⟩]
  | offset, before, c :: rest =>
    ⟨offset, before, c :: rest⟩ ::
      if accepts c then nearStops accepts (offset + 1) (c :: before) rest else []

theorem reverse_reached (accepts : Char → Bool) (offset : Nat) (before text : Text) :
    (reached accepts [] offset before text).reverse = nearStops accepts offset before text := by
  induction text generalizing offset before with
  | nil => rfl
  | cons c rest ih =>
    simp only [reached, nearStops]
    split
    · rw [reached_eq_append, List.reverse_append, ih]
      rfl
    · rfl

end Cursor

variable {σ slot : Type}

/-- What is fixed about seals and captures, whatever the face. -/
structure Outline (σ slot : Type) where
  /-- The character by which a seal is judged. -/
  lead : σ → Char
  /-- What the texts captured under a slot are like, if they have to be texts without seals. -/
  pure? : slot → Option (Text → Prop)

/-- The captures that have to be texts without seals are such texts. -/
def Outline.Sound (o : Outline σ slot) (spot : Spot σ slot) : Prop :=
  ∀ capture ∈ spot.captures, ∀ p, o.pure? capture.1 = some p →
    ∃ text, capture.2 = Glyph.chars text ∧ p text

/-- The class has every character of every seal. -/
structure Takes (o : Outline σ slot) (face : σ → Text) (accepts : Char → Bool) : Prop where
  filled : Filled face
  lead : ∀ s, accepts (o.lead s) = true
  all : ∀ s, ∀ c ∈ face s, accepts c = true

/-- The class has neither the first nor the last character of any seal. -/
structure Shuns (o : Outline σ slot) (face : σ → Text) (accepts : Char → Bool) : Prop where
  lead : ∀ s, accepts (o.lead s) = false
  first : ∀ s, ∃ c rest, face s = c :: rest ∧ accepts c = false
  last : ∀ s, ∃ front c, face s = front ++ [c] ∧ accepts c = false

/-- A reading that has come to a place within a seal. -/
structure Inside (o : Outline σ slot) (face : σ → Text) (reading : Reading slot) : Prop where
  cut : ∃ behind s ahead u v, face s = u ++ v ∧ u ≠ [] ∧ v ≠ [] ∧
    reading.cursor.before = u.reverse ++ spellBack face behind ∧
    reading.cursor.after = v ++ spell face ahead
  tidy : ∀ capture ∈ reading.captures, ∀ p, o.pure? capture.1 = some p → p capture.2.get

theorem Outline.Sound.past {o : Outline σ slot} {spot : Spot σ slot} (sound : o.Sound spot)
    (g : Glyph σ) (rest : List (Glyph σ)) : o.Sound (spot.past g rest) :=
  sound

theorem Outline.Sound.fresh (o : Outline σ slot) (spot : Spot σ slot) : o.Sound spot.fresh :=
  fun _ inside => absurd inside List.not_mem_nil

/-- The captures of a sound spot are tidy on every face. -/
theorem Outline.Sound.tidy {o : Outline σ slot} {spot : Spot σ slot} (sound : o.Sound spot)
    (face : σ → Text) :
    ∀ capture ∈ (spot.reading face).captures, ∀ p, o.pure? capture.1 = some p →
      p capture.2.get := by
  intro capture member p pure
  obtain ⟨kept, inside, rfl⟩ := List.mem_map.1 member
  obtain ⟨text, same, holds⟩ := sound kept inside p pure
  change p (spell face kept.2)
  rw [same, spell_chars]
  exact holds

section Places

variable {o : Outline σ slot} {face : σ → Text}

/-- Between glyphs the property does not depend on how seals are written. -/
def Impartial (o : Outline σ slot) (face : σ → Text) (holds : Cursor → Bool) : Prop :=
  ∀ spot : Spot σ slot, holds (spot.cursor face) = holds (spot.cursor fun s => [o.lead s])

theorem Impartial.follows {accepts : Char → Bool}
    (uniform : Takes o face accepts ∨ Shuns o face accepts) :
    Impartial o face (Cursor.follows accepts) := by
  intro spot
  obtain ⟨behind, ahead, captures⟩ := spot
  cases behind with
  | nil => rfl
  | cons g rest =>
    cases g with
    | char c => rfl
    | sealed s =>
      rcases uniform with takes | shuns
      · obtain ⟨front, c, written⟩ := List.eq_nil_or_concat (face s) |>.resolve_left (takes.filled s)
        have taken := takes.all s c (by simp [written])
        simp [Cursor.follows, Glyph.spell, written, taken, takes.lead s]
      · obtain ⟨front, c, written, refused⟩ := shuns.last s
        simp [Cursor.follows, Glyph.spell, written, refused, shuns.lead s]

theorem Impartial.precedes {accepts : Char → Bool}
    (uniform : Takes o face accepts ∨ Shuns o face accepts) :
    Impartial o face (Cursor.precedes accepts) := by
  intro spot
  obtain ⟨behind, ahead, captures⟩ := spot
  cases ahead with
  | nil => rfl
  | cons g rest =>
    cases g with
    | char c => rfl
    | sealed s =>
      rcases uniform with takes | shuns
      · obtain ⟨c, more, written⟩ := List.exists_cons_of_ne_nil (takes.filled s)
        have taken := takes.all s c (by simp [written])
        simp [Cursor.precedes, Glyph.spell, written, taken, takes.lead s]
      · obtain ⟨c, more, written, refused⟩ := shuns.first s
        simp [Cursor.precedes, Glyph.spell, written, refused, shuns.lead s]

theorem Impartial.not {holds : Cursor → Bool} (impartial : Impartial o face holds) :
    Impartial o face fun cursor => !holds cursor :=
  fun spot => congrArg (!·) (impartial spot)

theorem Impartial.or {first second : Cursor → Bool} (left : Impartial o face first)
    (right : Impartial o face second) : Impartial o face fun cursor => first cursor || second cursor :=
  fun spot => congrArg₂ (· || ·) (left spot) (right spot)

theorem Impartial.atTextStart (filled : Filled face) : Impartial o face Cursor.atTextStart := by
  intro spot
  obtain ⟨behind, ahead, captures⟩ := spot
  cases behind with
  | nil => rfl
  | cons g rest => cases g <;> simp [Cursor.atTextStart, Glyph.spell, filled _]

theorem Impartial.atTextEnd (filled : Filled face) : Impartial o face Cursor.atTextEnd := by
  intro spot
  obtain ⟨behind, ahead, captures⟩ := spot
  cases ahead with
  | nil => rfl
  | cons g rest => cases g <;> simp [Cursor.atTextEnd, Glyph.spell, filled _]

/-- No seal has a character of the class. -/
def Foreign (face : σ → Text) (accepts : Char → Bool) : Prop :=
  ∀ s, ∀ c ∈ face s, accepts c = false

/-- Within a seal the next character is not its last if the class shuns seals and has it. -/
theorem Inside.past {accepts : Char → Bool} (shuns : Shuns o face accepts)
    {reading : Reading slot} (within : Inside o face reading) {c : Char} {rest : Text}
    (next : reading.cursor.after = c :: rest) (accepted : accepts c = true) :
    Inside o face ⟨reading.cursor.past c rest, reading.captures⟩ := by
  obtain ⟨behind, s, ahead, u, v, written, begun, here, before, after⟩ := within.cut
  obtain ⟨d, more, rfl⟩ := List.exists_cons_of_ne_nil here
  rw [next] at after
  obtain ⟨rfl, rfl⟩ := List.cons.inj after
  refine ⟨⟨behind, s, ahead, u ++ [c], more, by simp [written], by simp, ?_, ?_, rfl⟩, within.tidy⟩
  · rintro rfl
    obtain ⟨front, last, ending, refused⟩ := shuns.last s
    rw [written] at ending
    obtain rfl : c = last := by simpa using (List.append_inj' ending rfl).2
    rw [accepted] at refused
    cases refused
  · simp [Cursor.past, before]

theorem inside_of_mem_nearStops {accepts : Char → Bool} (shuns : Shuns o face accepts)
    {captures : List (slot × Thunk Text)} (offset : Nat) (before text : Text)
    (within : Inside o face ⟨⟨offset, before, text⟩, captures⟩) {stop : Cursor}
    (member : stop ∈ Cursor.nearStops accepts offset before text) :
    Inside o face ⟨stop, captures⟩ := by
  induction text generalizing offset before with
  | nil => exact List.mem_singleton.1 member ▸ within
  | cons c rest ih =>
    rcases List.mem_cons.1 member with rfl | further
    · exact within
    · split at further
      · next accepted => exact ih _ _ (Inside.past shuns within rfl accepted) further
      · simp at further

/-- Within a seal a character of the seal has just been passed. -/
theorem Inside.follows_eq_false {accepts : Char → Bool} (foreign : Foreign face accepts)
    {reading : Reading slot} (within : Inside o face reading) :
    reading.cursor.follows accepts = false := by
  obtain ⟨behind, s, ahead, u, v, written, begun, _, before, _⟩ := within.cut
  obtain ⟨front, c, rfl⟩ := List.eq_nil_or_concat u |>.resolve_left begun
  have refused := foreign s c (by simp [written])
  simp [Cursor.follows, before, refused]

theorem Inside.precedes_eq_false {accepts : Char → Bool} (foreign : Foreign face accepts)
    {reading : Reading slot} (within : Inside o face reading) :
    reading.cursor.precedes accepts = false := by
  obtain ⟨behind, s, ahead, u, v, written, _, here, _, after⟩ := within.cut
  obtain ⟨c, rest, rfl⟩ := List.exists_cons_of_ne_nil here
  have refused := foreign s c (by simp [written])
  simp [Cursor.precedes, after, refused]

theorem Inside.atTextStart_eq_false {reading : Reading slot} (within : Inside o face reading) :
    reading.cursor.atTextStart = false := by
  obtain ⟨behind, s, ahead, u, v, _, begun, _, before, _⟩ := within.cut
  simp [Cursor.atTextStart, before, begun]

theorem Inside.atTextEnd_eq_false {reading : Reading slot} (within : Inside o face reading) :
    reading.cursor.atTextEnd = false := by
  obtain ⟨behind, s, ahead, u, v, _, _, here, _, after⟩ := within.cut
  simp [Cursor.atTextEnd, after, here]

/-- Runs of a class that no seal lets in go from glyph to glyph. -/
theorem map_nearStops {accepts : Char → Bool} (shuns : Shuns o face accepts)
    (behind ahead : List (Glyph σ)) (captures : List (slot × List (Glyph σ))) :
    (Cursor.nearStops accepts (spellBack face behind).length (spellBack face behind)
        (spell face ahead)).map
        (fun cursor => (⟨cursor, captures.map fun capture =>
          (capture.1, Thunk.mk fun _ => spell face capture.2)⟩ : Reading slot)) =
      (Spot.nearStops o.lead accepts behind ahead captures).map (Spot.reading face) := by
  induction ahead generalizing behind with
  | nil => rfl
  | cons g rest ih =>
    cases g with
    | char c =>
      have next := ih (.char c :: behind)
      by_cases accepted : accepts c
      · simpa [Cursor.nearStops, Spot.nearStops, Spot.reading, Spot.cursor, Glyph.spell,
          Glyph.fits, accepted] using next
      · simp [Cursor.nearStops, Spot.nearStops, Spot.reading, Spot.cursor, Glyph.spell,
          Glyph.fits, accepted]
    | sealed s =>
      obtain ⟨c, more, written, refused⟩ := shuns.first s
      simp [Cursor.nearStops, Spot.nearStops, Spot.reading, Spot.cursor, Glyph.spell,
        Glyph.fits, written, refused, shuns.lead s]

/-- No seal begins with a character that folds as one of the text. -/
def Apart (face : σ → Text) (fold : Char → Char) (text : Text) : Prop :=
  ∀ s c rest, face s = c :: rest → ∀ expected ∈ text, fold c ≠ fold expected

theorem past?_reading {fold : Char → Char} (filled : Filled face) (text : Text)
    (apart : Apart face fold text) (behind ahead : List (Glyph σ))
    (captures : List (slot × List (Glyph σ))) :
    Cursor.past? fold text ((⟨behind, ahead, captures⟩ : Spot σ slot).cursor face) =
      (Spot.past? fold (Glyph.chars text) ⟨behind, ahead, captures⟩).map (Spot.cursor face) := by
  induction text generalizing behind ahead with
  | nil => rfl
  | cons expected more ih =>
    have later : Apart face fold more :=
      fun s c rest written other member =>
        apart s c rest written other (List.mem_cons_of_mem _ member)
    cases ahead with
    | nil => rfl
    | cons g rest =>
      cases g with
      | char c =>
        have next := ih later (.char c :: behind) rest
        by_cases same : fold c = fold expected
        · simpa [Spot.cursor, Glyph.spell, Cursor.past?, Spot.past?, same] using next
        · simp [Spot.cursor, Glyph.spell, Cursor.past?, Spot.past?, same]
      | sealed s =>
        obtain ⟨c, more, written⟩ := List.exists_cons_of_ne_nil (filled s)
        have differs := apart s c more written expected List.mem_cons_self
        simp [Spot.cursor, Glyph.spell, Cursor.past?, Spot.past?, written, differs]

end Places

/-- The readings are those of the spots, in this order, but for readings within seals. -/
inductive Sift (o : Outline σ slot) (face : σ → Text) :
    List (Reading slot) → List (Spot σ slot) → Prop where
  | nil : Sift o face [] []
  | keep {readings : List (Reading slot)} {spots : List (Spot σ slot)} (spot : Spot σ slot) :
    Sift o face readings spots → Sift o face (spot.reading face :: readings) (spot :: spots)
  | drop {readings : List (Reading slot)} {spots : List (Spot σ slot)} {reading : Reading slot} :
    Inside o face reading → Sift o face readings spots → Sift o face (reading :: readings) spots

namespace Sift

variable {o : Outline σ slot} {face : σ → Text}

theorem append {early late : List (Reading slot)} {near far : List (Spot σ slot)}
    (first : Sift o face early near) (second : Sift o face late far) :
    Sift o face (early ++ late) (near ++ far) := by
  induction first with
  | nil => exact second
  | keep spot _ ih => exact .keep spot ih
  | drop within _ ih => exact .drop within ih

theorem reverse {readings : List (Reading slot)} {spots : List (Spot σ slot)}
    (sift : Sift o face readings spots) : Sift o face readings.reverse spots.reverse := by
  induction sift with
  | nil => exact .nil
  | keep spot _ ih =>
    rw [List.reverse_cons, List.reverse_cons]
    exact ih.append (.keep spot .nil)
  | @drop readings spots reading within _ ih =>
    rw [List.reverse_cons, ← List.append_nil spots.reverse]
    exact ih.append (.drop within .nil)

theorem map (face : σ → Text) (spots : List (Spot σ slot)) :
    Sift o face (spots.map (Spot.reading face)) spots := by
  induction spots with
  | nil => exact .nil
  | cons spot rest ih => exact .keep spot ih

theorem inside {readings : List (Reading slot)}
    (within : ∀ reading ∈ readings, Inside o face reading) : Sift o face readings [] := by
  induction readings with
  | nil => exact .nil
  | cons reading rest ih =>
    exact .drop (within reading List.mem_cons_self)
      (ih fun later member => within later (List.mem_cons_of_mem _ member))

theorem flatMap {readings : List (Reading slot)} {spots : List (Spot σ slot)}
    {next : Reading slot → List (Reading slot)} {onward : Spot σ slot → List (Spot σ slot)}
    (sift : Sift o face readings spots)
    (between : ∀ spot ∈ spots, Sift o face (next (spot.reading face)) (onward spot))
    (within : ∀ reading, Inside o face reading → ∀ later ∈ next reading, Inside o face later) :
    Sift o face (readings.flatMap next) (spots.flatMap onward) := by
  induction sift with
  | nil => exact .nil
  | keep spot _ ih =>
    rw [List.flatMap_cons, List.flatMap_cons]
    exact (between spot List.mem_cons_self).append
      (ih fun later member => between later (List.mem_cons_of_mem _ member))
  | drop here _ ih =>
    rw [List.flatMap_cons, ← List.nil_append (List.flatMap onward _)]
    exact (Sift.inside (within _ here)).append (ih between)

end Sift

namespace Pattern

/-- A later spot lies ahead. -/
theorem exists_passes_of_mem_spotRepetitions {step : Spot σ slot → List (Spot σ slot)}
    (ahead : ∀ spot, ∀ later ∈ step spot, ∃ passed, spot.Passes passed later)
    (budget : Nat) {spot later : Spot σ slot} (member : later ∈ spotRepetitions step budget spot) :
    ∃ passed, spot.Passes passed later := by
  induction budget generalizing spot with
  | zero =>
    obtain rfl := List.mem_singleton.1 member
    exact ⟨[], .nothing _⟩
  | succ budget ih =>
    rcases List.mem_append.1 member with more | here
    · obtain ⟨middle, round, rest⟩ := List.mem_flatMap.1 more
      obtain ⟨early, earlier⟩ := ahead spot middle round
      obtain ⟨late, onward⟩ := ih rest
      exact ⟨early ++ late, earlier.trans onward⟩
    · obtain rfl := List.mem_singleton.1 here
      exact ⟨[], .nothing _⟩

/-- Each stop of a run is reached by passing glyphs of the class, and captures nothing. -/
theorem exists_passes_of_mem_stops {lead : σ → Char} {accepts : Char → Bool}
    {spot later : Spot σ slot} (member : later ∈ spot.stops lead accepts) :
    ∃ passed, spot.Passes passed later ∧ (∀ g ∈ passed, g.fits lead accepts = true) ∧
      later.captures = spot.captures := by
  obtain ⟨behind, ahead, captures⟩ := spot
  simp only [Spot.stops] at member
  induction ahead generalizing behind with
  | nil =>
    obtain rfl := List.mem_singleton.1 member
    exact ⟨[], .nothing _, by simp, rfl⟩
  | cons g rest ih =>
    rcases List.mem_cons.1 member with rfl | further
    · exact ⟨[], .nothing _, by simp, rfl⟩
    · split at further
      · next fits =>
        obtain ⟨passed, passes, inClass, same⟩ := ih (g :: behind) further
        refine ⟨g :: passed, (Spot.Passes.past (by rfl)).trans passes, ?_, same⟩
        intro other inside
        rcases List.mem_cons.1 inside with rfl | inside
        · exact fits
        · exact inClass other inside
      · simp at further

theorem exists_passes_of_past? {fold : Char → Char} {expected : List (Glyph σ)}
    {start stop : Spot σ slot} (found : Spot.past? fold expected start = some stop) :
    ∃ text, start.Passes (Glyph.chars text) stop ∧ stop.captures = start.captures ∧
      ∃ name, expected = Glyph.chars name ∧ text.map fold = name.map fold := by
  induction expected generalizing start with
  | nil =>
    obtain rfl := Option.some.inj found
    exact ⟨[], .nothing _, rfl, [], rfl, rfl⟩
  | cons e more ih =>
    obtain ⟨behind, ahead, captures⟩ := start
    cases e with
    | sealed s => simp [Spot.past?] at found
    | char e =>
      cases ahead with
      | nil => simp [Spot.past?] at found
      | cons g rest =>
        cases g with
        | sealed s => simp [Spot.past?] at found
        | char c =>
          simp only [Spot.past?] at found
          split at found
          · next here =>
            obtain ⟨text, passes, same, name, rfl, alike⟩ := ih found
            refine ⟨c :: text, (Spot.Passes.past (by rfl)).trans passes, same, e :: name, rfl, ?_⟩
            rw [List.map_cons, List.map_cons, here, alike]
          · simp at found

variable [DecidableEq slot]

/-- Every outcome on glyphs lies ahead. -/
theorem exists_passes_of_mem_spots {lead : σ → Char} {pattern : Pattern slot}
    {spot later : Spot σ slot} (member : later ∈ pattern.spots lead spot) :
    ∃ passed, spot.Passes passed later := by
  induction pattern generalizing spot later with
  | empty =>
    obtain rfl := List.mem_singleton.1 member
    exact ⟨[], .nothing _⟩
  | one accepts =>
    simp only [spots] at member
    split at member
    · simp at member
    · next g rest next =>
      split at member
      · obtain rfl := List.mem_singleton.1 member
        exact ⟨[g], .past next⟩
      · simp at member
  | many accepts =>
    obtain ⟨passed, passes, _⟩ := exists_passes_of_mem_stops (List.mem_reverse.1 member)
    exact ⟨passed, passes⟩
  | few accepts =>
    obtain ⟨passed, passes, _⟩ := exists_passes_of_mem_stops member
    exact ⟨passed, passes⟩
  | seq first second first_ih second_ih =>
    obtain ⟨middle, early, late⟩ := List.mem_flatMap.1 member
    obtain ⟨passed, earlier⟩ := first_ih early
    obtain ⟨more, onward⟩ := second_ih late
    exact ⟨passed ++ more, earlier.trans onward⟩
  | either first second first_ih second_ih =>
    rcases List.mem_append.1 member with inFirst | inSecond
    · exact first_ih inFirst
    · exact second_ih inSecond
  | rounds body ih =>
    exact exists_passes_of_mem_spotRepetitions (fun _ _ round => ih round) _ member
  | capture name body ih =>
    obtain ⟨inner, inside, rfl⟩ := List.mem_map.1 member
    obtain ⟨passed, passes⟩ := ih inside
    exact ⟨passed, passes.behind, passes.ahead⟩
  | same name fold =>
    simp only [spots] at member
    split at member
    · simp at member
    · obtain ⟨text, passes, _⟩ := exists_passes_of_past? (Option.mem_toList.1 member)
      exact ⟨Glyph.chars text, passes⟩
  | ahead wanted body ih =>
    simp only [spots] at member
    split at member
    · obtain rfl := List.mem_singleton.1 member
      exact ⟨[], .nothing _⟩
    · simp at member
  | place holds =>
    simp only [spots] at member
    split at member
    · obtain rfl := List.mem_singleton.1 member
      exact ⟨[], .nothing _⟩
    · simp at member

/-- What an outcome has captured stands ahead of its start. -/
def Catches (lead : σ → Char) (pattern : Pattern slot) : Prop :=
  ∀ spot, ∀ later ∈ pattern.spots lead spot, ∀ capture ∈ later.captures,
    capture ∈ spot.captures ∨ capture.2 <:+: spot.ahead

namespace Catches

variable {lead : σ → Char}

theorem of_captures {pattern : Pattern slot}
    (same : ∀ spot, ∀ later ∈ pattern.spots lead spot, later.captures = spot.captures) :
    pattern.Catches lead :=
  fun spot later member _ inside => .inl (same spot later member ▸ inside)

theorem seq {first second : Pattern slot} (early : first.Catches lead)
    (late : second.Catches lead) : (first.seq second).Catches lead := by
  intro spot later member capture inside
  obtain ⟨middle, inFirst, inSecond⟩ := List.mem_flatMap.1 member
  rcases late middle later inSecond capture inside with kept | within
  · exact early spot middle inFirst capture kept
  · obtain ⟨passed, passes⟩ := exists_passes_of_mem_spots inFirst
    rw [passes.ahead]
    exact .inr (within.trans (List.suffix_append passed _).isInfix)

theorem either {first second : Pattern slot} (left : first.Catches lead)
    (right : second.Catches lead) : (first.either second).Catches lead := by
  intro spot later member
  rcases List.mem_append.1 member with inFirst | inSecond
  · exact left spot later inFirst
  · exact right spot later inSecond

theorem rounds {body : Pattern slot} (catches : body.Catches lead) :
    (Pattern.rounds body).Catches lead := by
  have repeated : ∀ budget (spot later : Spot σ slot),
      later ∈ spotRepetitions (body.spots lead) budget spot → ∀ capture ∈ later.captures,
        capture ∈ spot.captures ∨ capture.2 <:+: spot.ahead := by
    intro budget
    induction budget with
    | zero =>
      intro spot later member capture inside
      obtain rfl := List.mem_singleton.1 member
      exact .inl inside
    | succ budget ih =>
      intro spot later member capture inside
      rcases List.mem_append.1 member with more | here
      · obtain ⟨middle, round, rest⟩ := List.mem_flatMap.1 more
        rcases ih middle later rest capture inside with kept | within
        · exact catches spot middle round capture kept
        · obtain ⟨passed, passes⟩ := exists_passes_of_mem_spots round
          rw [passes.ahead]
          exact .inr (within.trans (List.suffix_append passed _).isInfix)
      · obtain rfl := List.mem_singleton.1 here
        exact .inl inside
  exact fun spot later member => repeated _ spot later member

theorem capture (name : slot) {body : Pattern slot} (catches : body.Catches lead) :
    (Pattern.capture name body).Catches lead := by
  intro spot later member capture inside
  obtain ⟨inner, found, rfl⟩ := List.mem_map.1 member
  rcases List.mem_cons.1 inside with rfl | earlier
  · obtain ⟨passed, passes⟩ := exists_passes_of_mem_spots found
    rw [passes.between_eq, passes.ahead]
    exact .inr (List.prefix_append passed _).isInfix
  · exact catches spot inner found capture earlier

end Catches

/-- Every pattern captures only what stands ahead. -/
theorem catches (lead : σ → Char) (pattern : Pattern slot) : pattern.Catches lead := by
  induction pattern with
  | empty => exact .of_captures fun spot later member => by rw [List.mem_singleton.1 member]
  | one accepts =>
    refine .of_captures fun spot later member => ?_
    simp only [spots] at member
    split at member
    · simp at member
    · split at member
      · rw [List.mem_singleton.1 member]
        rfl
      · simp at member
  | many accepts =>
    refine .of_captures fun spot later member => ?_
    obtain ⟨_, _, _, same⟩ := exists_passes_of_mem_stops (List.mem_reverse.1 member)
    exact same
  | few accepts =>
    refine .of_captures fun spot later member => ?_
    obtain ⟨_, _, _, same⟩ := exists_passes_of_mem_stops member
    exact same
  | seq first second early late => exact early.seq late
  | either first second left right => exact left.either right
  | rounds body ih => exact ih.rounds
  | capture name body ih => exact ih.capture name
  | same name fold =>
    refine .of_captures fun spot later member => ?_
    simp only [spots] at member
    split at member
    · simp at member
    · obtain ⟨_, _, same, _⟩ := exists_passes_of_past? (Option.mem_toList.1 member)
      exact same
  | ahead wanted body ih =>
    refine .of_captures fun spot later member => ?_
    simp only [spots] at member
    split at member
    · rw [List.mem_singleton.1 member]
    · simp at member
  | place holds =>
    refine .of_captures fun spot later member => ?_
    simp only [spots] at member
    split at member
    · rw [List.mem_singleton.1 member]
    · simp at member

/-- Every outcome on glyphs takes at least one glyph. -/
def Advances (lead : σ → Char) (pattern : Pattern slot) : Prop :=
  ∀ spot, ∀ later ∈ pattern.spots lead spot, later.ahead.length < spot.ahead.length

namespace Advances

variable {lead : σ → Char}

theorem one (accepts : Char → Bool) : (Pattern.one accepts : Pattern slot).Advances lead := by
  intro spot later member
  simp only [spots] at member
  split at member
  · simp at member
  · next g rest next =>
    split at member
    · obtain rfl := List.mem_singleton.1 member
      simp [Spot.past, next]
    · simp at member

theorem seq_left {first : Pattern slot} (advances : first.Advances lead) (second : Pattern slot) :
    (first.seq second).Advances lead := by
  intro spot later member
  obtain ⟨middle, early, late⟩ := List.mem_flatMap.1 member
  have shorter := advances spot middle early
  obtain ⟨passed, passes⟩ := exists_passes_of_mem_spots late
  rw [passes.ahead, List.length_append] at shorter
  omega

theorem seq_right {second : Pattern slot} (first : Pattern slot) (advances : second.Advances lead) :
    (first.seq second).Advances lead := by
  intro spot later member
  obtain ⟨middle, early, late⟩ := List.mem_flatMap.1 member
  have shorter := advances middle later late
  obtain ⟨passed, passes⟩ := exists_passes_of_mem_spots early
  rw [passes.ahead, List.length_append]
  omega

theorem either {first second : Pattern slot} (left : first.Advances lead)
    (right : second.Advances lead) : (first.either second).Advances lead := by
  intro spot later member
  rcases List.mem_append.1 member with inFirst | inSecond
  · exact left spot later inFirst
  · exact right spot later inSecond

theorem capture (name : slot) {body : Pattern slot} (advances : body.Advances lead) :
    (Pattern.capture name body).Advances lead := by
  intro spot later member
  obtain ⟨inner, inside, rfl⟩ := List.mem_map.1 member
  exact advances spot inner inside

end Advances

end Pattern

end Markdown
