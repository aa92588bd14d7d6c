import Markdown.Proofs.Glyph.Sift

set_option autoImplicit false

namespace Markdown.Pattern

variable {σ slot : Type} [DecidableEq slot]

/-- On the face, the outcomes between glyphs are the outcomes on glyphs. -/
structure Steady (o : Outline σ slot) (face : σ → Text) (pattern : Pattern slot) : Prop where
  sift : ∀ spot, o.Sound spot →
    Sift o face (pattern.outcomes (spot.reading face)) (pattern.spots o.lead spot)
  sound : ∀ spot, o.Sound spot → ∀ later ∈ pattern.spots o.lead spot, o.Sound later

/-- On the face, the outcomes are exactly the outcomes on glyphs. -/
structure Closed (o : Outline σ slot) (face : σ → Text) (pattern : Pattern slot) : Prop where
  same : ∀ spot, o.Sound spot →
    pattern.outcomes (spot.reading face) = (pattern.spots o.lead spot).map (Spot.reading face)
  sound : ∀ spot, o.Sound spot → ∀ later ∈ pattern.spots o.lead spot, o.Sound later

/-- From within a seal there is no way out. -/
def Blocked (o : Outline σ slot) (face : σ → Text) (pattern : Pattern slot) : Prop :=
  ∀ reading, Inside o face reading → ∀ later ∈ pattern.outcomes reading, Inside o face later

/-- From within a seal there is no way at all. -/
def Stuck (o : Outline σ slot) (face : σ → Text) (pattern : Pattern slot) : Prop :=
  ∀ reading, Inside o face reading → pattern.outcomes reading = []

variable {o : Outline σ slot} {face : σ → Text}

theorem Closed.steady {pattern : Pattern slot} (closed : pattern.Closed o face) :
    pattern.Steady o face where
  sift spot sound := by
    rw [closed.same spot sound]
    exact Sift.map face _
  sound := closed.sound

theorem Stuck.blocked {pattern : Pattern slot} (stuck : pattern.Stuck o face) :
    pattern.Blocked o face := by
  intro reading within later member
  rw [stuck reading within] at member
  exact absurd member List.not_mem_nil

theorem outcomes_few (accepts : Char → Bool) (reading : Reading slot) :
    (Pattern.few accepts).outcomes reading =
      (Cursor.nearStops accepts reading.cursor.offset reading.cursor.before
        reading.cursor.after).map fun cursor => ⟨cursor, reading.captures⟩ := by
  rw [outcomes, Cursor.stops, Cursor.reverse_reached]

theorem outcomes_many (accepts : Char → Bool) (reading : Reading slot) :
    (Pattern.many accepts).outcomes reading = ((Pattern.few accepts).outcomes reading).reverse := by
  simp only [outcomes, List.map_reverse, List.reverse_reverse]

theorem spots_many (lead : σ → Char) (accepts : Char → Bool) (spot : Spot σ slot) :
    (Pattern.many accepts).spots lead spot =
      ((Pattern.few accepts).spots lead spot).reverse := rfl

omit [DecidableEq slot] in
theorem sound_of_mem_stops {accepts : Char → Bool} {spot later : Spot σ slot}
    (sound : o.Sound spot) (member : later ∈ spot.stops o.lead accepts) : o.Sound later := by
  obtain ⟨passed, _, _, kept⟩ := exists_passes_of_mem_stops member
  intro capture inside
  exact sound capture (kept ▸ inside)

theorem Closed.empty : (Pattern.empty : Pattern slot).Closed o face where
  same _ _ := rfl
  sound spot sound later member := by
    obtain rfl := List.mem_singleton.1 member
    exact sound

theorem Closed.one {accepts : Char → Bool} (shuns : Shuns o face accepts) :
    (Pattern.one accepts).Closed o face where
  same spot _ := by
    obtain ⟨behind, ahead, captures⟩ := spot
    cases ahead with
    | nil => rfl
    | cons g rest =>
      cases g with
      | char c =>
        by_cases accepted : accepts c
        · simp [outcomes, spots, Spot.reading, Spot.cursor, Glyph.spell, Glyph.fits, accepted,
            Cursor.past, Spot.past]
        · simp [outcomes, spots, Spot.reading, Spot.cursor, Glyph.spell, Glyph.fits, accepted]
      | sealed s =>
        obtain ⟨c, more, written, refused⟩ := shuns.first s
        simp [outcomes, spots, Spot.reading, Spot.cursor, Glyph.spell, Glyph.fits, written,
          refused, shuns.lead s]
  sound spot sound later member := by
    simp only [spots] at member
    split at member
    · simp at member
    · split at member
      · obtain rfl := List.mem_singleton.1 member
        exact sound
      · simp at member

theorem Closed.few {accepts : Char → Bool} (shuns : Shuns o face accepts) :
    (Pattern.few accepts).Closed o face where
  same spot _ := by
    rw [outcomes_few]
    exact map_nearStops shuns spot.behind spot.ahead spot.captures
  sound _ sound _ member := sound_of_mem_stops sound member

theorem Closed.many {accepts : Char → Bool} (shuns : Shuns o face accepts) :
    (Pattern.many accepts).Closed o face where
  same spot sound := by
    rw [outcomes_many, (Closed.few shuns).same spot sound, spots_many, List.map_reverse]
  sound _ sound _ member := sound_of_mem_stops sound (List.mem_reverse.1 member)

/-- A run of a class that has whole seals, begun behind the part `u` of a seal: it comes to the end
of the seal and goes on from there. -/
theorem sift_nearStops_cut {accepts : Char → Bool} (takes : Takes o face accepts)
    {behind ahead : List (Glyph σ)} {captures : List (slot × List (Glyph σ))} {s : σ}
    (sound : o.Sound ⟨.sealed s :: behind, ahead, captures⟩) {u v : Text} (written : face s = u ++ v)
    (begun : u ≠ [])
    (onward : Sift o face
      ((Pattern.few accepts).outcomes
        ((⟨.sealed s :: behind, ahead, captures⟩ : Spot σ slot).reading face))
      (Spot.nearStops o.lead accepts (.sealed s :: behind) ahead captures)) :
    Sift o face
      ((Cursor.nearStops accepts (u.length + (spellBack face behind).length)
          (u.reverse ++ spellBack face behind) (v ++ spell face ahead)).map
        fun cursor => (⟨cursor, captures.map fun capture =>
          (capture.1, Thunk.mk fun _ => spell face capture.2)⟩ : Reading slot))
      (Spot.nearStops o.lead accepts (.sealed s :: behind) ahead captures) := by
  induction v generalizing u with
  | nil =>
    rw [List.append_nil] at written
    rw [outcomes_few] at onward
    simpa [Spot.reading, Spot.cursor, Glyph.spell, written] using onward
  | cons c rest ih =>
    have accepted : accepts c = true :=
      takes.all s c (written ▸ List.mem_append_right u List.mem_cons_self)
    have further := ih (u := u ++ [c]) (by simp [written]) (by simp)
    simp only [List.length_append, List.length_cons, List.length_nil, List.reverse_append,
      List.reverse_cons, List.reverse_nil, List.nil_append, List.cons_append, Nat.zero_add, Nat.add_right_comm _ 1] at further
    simp only [List.cons_append, Cursor.nearStops, accepted, if_true, List.map_cons]
    refine .drop ⟨⟨behind, s, ahead, u, c :: rest, written, begun, by simp, rfl, rfl⟩, ?_⟩ further
    exact sound.tidy face

theorem Steady.few {accepts : Char → Bool} (takes : Takes o face accepts) :
    (Pattern.few accepts).Steady o face where
  sift spot sound := by
    obtain ⟨behind, ahead, captures⟩ := spot
    change Sift o face _ (Spot.nearStops o.lead accepts behind ahead captures)
    induction ahead generalizing behind with
    | nil => exact .keep _ .nil
    | cons g rest ih =>
      cases g with
      | char c =>
        have next := ih (.char c :: behind) sound
        rw [outcomes_few] at next ⊢
        by_cases accepted : accepts c
        · simp only [Spot.reading, Spot.cursor, spell_cons, Glyph.spell, List.cons_append,
            List.nil_append, Cursor.nearStops, Spot.nearStops, Glyph.fits, accepted, if_true,
            List.map_cons] at next ⊢
          exact .keep ⟨behind, .char c :: rest, captures⟩ (by simpa [Glyph.spell] using next)
        · simp only [Spot.reading, Spot.cursor, spell_cons, Glyph.spell, List.cons_append,
            List.nil_append, Cursor.nearStops, Spot.nearStops, Glyph.fits, accepted,
            Bool.false_eq_true, if_false, List.map_cons, List.map_nil]
          exact .keep ⟨behind, .char c :: rest, captures⟩ .nil
      | sealed s =>
        have next := ih (.sealed s :: behind) sound
        obtain ⟨c, more, written⟩ := List.exists_cons_of_ne_nil (takes.filled s)
        have accepted : accepts c = true := takes.all s c (written ▸ List.mem_cons_self)
        have further := sift_nearStops_cut takes (u := [c]) (v := more)
          (sound.past (.sealed s) rest) written (by simp) next
        have kept := Sift.keep (⟨behind, .sealed s :: rest, captures⟩ : Spot σ slot) further
        rw [outcomes_few]
        simpa [Spot.reading, Spot.cursor, Glyph.spell, written, Cursor.nearStops, Spot.nearStops,
          Glyph.fits, takes.lead s, accepted, Nat.add_comm] using kept
  sound _ sound _ member := sound_of_mem_stops sound member

theorem Steady.many {accepts : Char → Bool} (takes : Takes o face accepts) :
    (Pattern.many accepts).Steady o face where
  sift spot sound := by
    rw [outcomes_many, spots_many]
    exact ((Steady.few takes).sift spot sound).reverse
  sound _ sound _ member := sound_of_mem_stops sound (List.mem_reverse.1 member)

theorem Steady.few1 {accepts : Char → Bool} (takes : Takes o face accepts) :
    (Pattern.few1 accepts).Steady o face where
  sift spot sound := by
    obtain ⟨behind, ahead, captures⟩ := spot
    cases ahead with
    | nil => exact .nil
    | cons g rest =>
      have next := (Steady.few takes).sift ⟨g :: behind, rest, captures⟩ sound
      cases g with
      | char c =>
        by_cases accepted : accepts c
        · simpa [Pattern.few1, outcomes, spots, Glyph.fits, Glyph.spell, accepted, Spot.reading,
            Spot.cursor, Cursor.past, Spot.past] using next
        · simpa [Pattern.few1, outcomes, spots, Glyph.fits, Glyph.spell, accepted, Spot.reading,
            Spot.cursor] using Sift.nil
      | sealed s =>
        obtain ⟨c, more, written⟩ := List.exists_cons_of_ne_nil (takes.filled s)
        have accepted : accepts c = true := takes.all s c (written ▸ List.mem_cons_self)
        have further := sift_nearStops_cut takes (u := [c]) (v := more)
          (sound.past (.sealed s) rest) written (by simp) next
        have begun : (Pattern.few1 accepts).outcomes
            ((⟨behind, .sealed s :: rest, captures⟩ : Spot σ slot).reading face) =
            (Pattern.few accepts).outcomes
              ⟨⟨1 + (spellBack face behind).length, c :: spellBack face behind,
                more ++ spell face rest⟩, captures.map fun capture =>
                (capture.1, Thunk.mk fun _ => spell face capture.2)⟩ := by
          simp [Pattern.few1, outcomes, Glyph.spell, written, accepted, Spot.reading,
            Spot.cursor, Cursor.past, Nat.add_comm]
        rw [begun, outcomes_few]
        simpa [Pattern.few1, spots, Glyph.fits, takes.lead s, Spot.past, Spot.stops] using further
  sound spot sound later member := by
    obtain ⟨middle, early, late⟩ := List.mem_flatMap.1 member
    simp only [spots] at early
    split at early
    · simp at early
    · split at early
      · obtain rfl := List.mem_singleton.1 early
        exact sound_of_mem_stops (sound.past _ _) late
      · simp at early

theorem outcomes_many1 (accepts : Char → Bool) (reading : Reading slot) :
    (Pattern.many1 accepts).outcomes reading =
      ((Pattern.few1 accepts).outcomes reading).reverse := by
  simp only [Pattern.many1, Pattern.few1, outcomes]
  split
  · rfl
  · split <;> simp

theorem spots_many1 (lead : σ → Char) (accepts : Char → Bool) (spot : Spot σ slot) :
    (Pattern.many1 accepts).spots lead spot =
      ((Pattern.few1 accepts).spots lead spot).reverse := by
  simp only [Pattern.many1, Pattern.few1, spots]
  split
  · rfl
  · split <;> simp

theorem Steady.many1 {accepts : Char → Bool} (takes : Takes o face accepts) :
    (Pattern.many1 accepts).Steady o face where
  sift spot sound := by
    rw [outcomes_many1, spots_many1]
    exact ((Steady.few1 takes).sift spot sound).reverse
  sound spot sound later member := by
    rw [spots_many1] at member
    exact (Steady.few1 takes).sound spot sound later (List.mem_reverse.1 member)

theorem Closed.seq {first second : Pattern slot} (early : first.Closed o face)
    (late : second.Closed o face) : (first.seq second).Closed o face where
  same spot sound := by
    simp only [outcomes, spots]
    rw [early.same spot sound, List.flatMap_map, List.map_flatMap]
    exact List.flatMap_congr fun middle member =>
      late.same middle (early.sound spot sound middle member)
  sound spot sound later member := by
    obtain ⟨middle, inFirst, inSecond⟩ := List.mem_flatMap.1 member
    exact late.sound middle (early.sound spot sound middle inFirst) later inSecond

theorem Steady.seq {first second : Pattern slot} (early : first.Steady o face)
    (late : second.Steady o face) (blocked : second.Blocked o face) :
    (first.seq second).Steady o face where
  sift spot sound :=
    (early.sift spot sound).flatMap
      (fun middle member => late.sift middle (early.sound spot sound middle member)) blocked
  sound spot sound later member := by
    obtain ⟨middle, inFirst, inSecond⟩ := List.mem_flatMap.1 member
    exact late.sound middle (early.sound spot sound middle inFirst) later inSecond

theorem Closed.seq_steady {first second : Pattern slot} (early : first.Closed o face)
    (late : second.Steady o face) : (first.seq second).Steady o face where
  sift spot sound := by
    simp only [outcomes, spots]
    rw [early.same spot sound]
    have reached := early.sound spot sound
    revert reached
    induction first.spots o.lead spot with
    | nil => exact fun _ => .nil
    | cons middle rest ih =>
      intro reached
      rw [List.map_cons, List.flatMap_cons, List.flatMap_cons]
      exact (late.sift middle (reached middle List.mem_cons_self)).append
        (ih fun later member => reached later (List.mem_cons_of_mem _ member))
  sound spot sound later member := by
    obtain ⟨middle, inFirst, inSecond⟩ := List.mem_flatMap.1 member
    exact late.sound middle (early.sound spot sound middle inFirst) later inSecond

/-- What is stuck within seals sorts out the outcomes within seals of what comes first. -/
theorem Closed.cut {first second : Pattern slot} (early : first.Steady o face)
    (late : second.Closed o face) (stuck : second.Stuck o face) :
    (first.seq second).Closed o face where
  same spot sound := by
    have reached := early.sound spot sound
    have sift := early.sift spot sound
    simp only [outcomes, spots]
    generalize first.outcomes (spot.reading face) = readings at sift ⊢
    generalize first.spots o.lead spot = middles at sift reached ⊢
    revert reached
    induction sift with
    | nil => exact fun _ => rfl
    | keep middle _ ih =>
      intro reached
      rw [List.flatMap_cons, List.flatMap_cons, List.map_append,
        late.same middle (reached middle List.mem_cons_self),
        ih fun later member => reached later (List.mem_cons_of_mem _ member)]
    | drop within _ ih =>
      intro reached
      rw [List.flatMap_cons, stuck _ within, List.nil_append, ih reached]
  sound spot sound later member := by
    obtain ⟨middle, inFirst, inSecond⟩ := List.mem_flatMap.1 member
    exact late.sound middle (early.sound spot sound middle inFirst) later inSecond

theorem Closed.either {first second : Pattern slot} (left : first.Closed o face)
    (right : second.Closed o face) : (first.either second).Closed o face where
  same spot sound := by
    simp only [outcomes, spots, left.same spot sound, right.same spot sound, List.map_append]
  sound spot sound later member := by
    rcases List.mem_append.1 member with inFirst | inSecond
    · exact left.sound spot sound later inFirst
    · exact right.sound spot sound later inSecond

theorem Closed.optional {body : Pattern slot} (closed : body.Closed o face) :
    (Pattern.optional body).Closed o face :=
  closed.either .empty

theorem Closed.upTo {body : Pattern slot} (closed : body.Closed o face) (count : Nat) :
    (Pattern.upTo count body).Closed o face := by
  induction count with
  | zero => exact .empty
  | succ count ih => exact (closed.seq ih).optional

theorem Closed.exactly {body : Pattern slot} (closed : body.Closed o face) (count : Nat) :
    (Pattern.exactly count body).Closed o face := by
  induction count with
  | zero => exact .empty
  | succ count ih => exact closed.seq ih

theorem Closed.sequence {patterns : List (Pattern slot)}
    (closed : ∀ pattern ∈ patterns, pattern.Closed o face) :
    (Pattern.sequence patterns).Closed o face := by
  induction patterns with
  | nil => exact .empty
  | cons first rest ih =>
    have here := closed first List.mem_cons_self
    have later := ih fun pattern member => closed pattern (List.mem_cons_of_mem _ member)
    cases rest with
    | nil => exact here
    | cons second rest => exact here.seq later

theorem Closed.choice {patterns : List (Pattern slot)}
    (closed : ∀ pattern ∈ patterns, pattern.Closed o face) :
    (Pattern.choice patterns).Closed o face := by
  induction patterns with
  | nil =>
    refine ⟨fun spot _ => ?_, fun spot _ later member => ?_⟩
    · simp only [Pattern.choice, outcomes, spots]
      cases spot.ahead with
      | nil => cases (spot.reading face).cursor.after <;> simp
      | cons g rest =>
        cases (spot.reading face).cursor.after <;> cases g <;> simp [Glyph.fits]
    · simp only [Pattern.choice, spots] at member
      cases ahead : spot.ahead with
      | nil => simp [ahead] at member
      | cons g rest => cases g <;> simp [ahead, Glyph.fits] at member
  | cons first rest ih =>
    have here := closed first List.mem_cons_self
    have later := ih fun pattern member => closed pattern (List.mem_cons_of_mem _ member)
    cases rest with
    | nil => exact here
    | cons second rest => exact here.either later

/-- A capture of a slot is as the slot wants it: what the pattern passes is the captured text. -/
def Keeps (o : Outline σ slot) (name : slot) (body : Pattern slot) : Prop :=
  ∀ p, o.pure? name = some p → ∀ spot, o.Sound spot → ∀ later ∈ body.spots o.lead spot,
    ∃ text, spot.between later = Glyph.chars text ∧ p text

theorem Keeps.of_none {name : slot} (free : o.pure? name = none) (body : Pattern slot) :
    body.Keeps o name := by
  intro p pure
  rw [free] at pure
  cases pure

theorem sound_capture {name : slot} {body : Pattern slot}
    (sound : ∀ spot, o.Sound spot → ∀ later ∈ body.spots o.lead spot, o.Sound later)
    (keeps : body.Keeps o name) :
    ∀ spot, o.Sound spot → ∀ later ∈ (Pattern.capture name body).spots o.lead spot,
      o.Sound later := by
  intro spot begun later member
  obtain ⟨inner, inside, rfl⟩ := List.mem_map.1 member
  intro capture held p pure
  rcases List.mem_cons.1 held with rfl | held
  · exact keeps p pure spot begun inner inside
  · exact sound spot begun inner inside capture held p pure

omit [DecidableEq slot] in
/-- A captured reading of a spot is the reading of the spot with the capture. -/
theorem reading_capture (name : slot) {spot later : Spot σ slot} {passed : List (Glyph σ)}
    (passes : spot.Passes passed later) (face : σ → Text) :
    (⟨(later.reading face).cursor, (name, Thunk.mk fun _ =>
        (spot.cursor face).upTo (later.reading face).cursor) :: (later.reading face).captures⟩ :
      Reading slot) =
      Spot.reading face ⟨later.behind, later.ahead, (name, spot.between later) ::
        later.captures⟩ := by
  rw [Spot.reading_cursor, Spot.upTo_eq passes]
  rfl

theorem Closed.capture {name : slot} {body : Pattern slot} (closed : body.Closed o face)
    (keeps : body.Keeps o name) : (Pattern.capture name body).Closed o face where
  same spot sound := by
    simp only [outcomes, spots]
    rw [closed.same spot sound, List.map_map, List.map_map]
    refine List.map_congr_left fun later member => ?_
    obtain ⟨passed, passes⟩ := exists_passes_of_mem_spots member
    exact reading_capture name passes face
  sound := sound_capture closed.sound keeps

theorem Steady.capture {name : slot} {body : Pattern slot} (steady : body.Steady o face)
    (free : o.pure? name = none) : (Pattern.capture name body).Steady o face where
  sift spot sound := by
    have ahead : ∀ later ∈ body.spots o.lead spot, ∃ passed, spot.Passes passed later :=
      fun later member => exists_passes_of_mem_spots member
    have sift := steady.sift spot sound
    simp only [outcomes, spots]
    generalize body.outcomes (spot.reading face) = readings at sift ⊢
    generalize body.spots o.lead spot = laters at sift ahead ⊢
    revert ahead
    induction sift with
    | nil => exact fun _ => .nil
    | keep later _ ih =>
      intro ahead
      obtain ⟨passed, passes⟩ := ahead later List.mem_cons_self
      have kept := Sift.keep (⟨later.behind, later.ahead, (name, spot.between later) ::
        later.captures⟩ : Spot σ slot)
        (ih fun other member => ahead other (List.mem_cons_of_mem _ member))
      rw [← reading_capture name passes face] at kept
      exact kept
    | drop within _ ih =>
      intro ahead
      refine .drop ⟨within.cut, fun capture held p pure => ?_⟩ (ih ahead)
      rcases List.mem_cons.1 held with rfl | held
      · rw [free] at pure
        cases pure
      · exact within.tidy capture held p pure
  sound := sound_capture steady.sound (.of_none free body)

omit [DecidableEq slot] in
theorem inside_of_mem_repetitions {ends : Reading slot → List (Reading slot)}
    (blocked : ∀ reading, Inside o face reading → ∀ later ∈ ends reading, Inside o face later)
    (budget : Nat) {reading later : Reading slot} (within : Inside o face reading)
    (member : later ∈ repetitions ends budget reading) : Inside o face later := by
  induction budget generalizing reading with
  | zero => exact List.mem_singleton.1 member ▸ within
  | succ budget ih =>
    rcases List.mem_append.1 member with more | here
    · obtain ⟨middle, round, rest⟩ := List.mem_flatMap.1 more
      exact ih (blocked reading within middle round) rest
    · exact List.mem_singleton.1 here ▸ within

theorem Blocked.rounds {body : Pattern slot} (blocked : body.Blocked o face) :
    (Pattern.rounds body).Blocked o face :=
  fun _ within _ member => inside_of_mem_repetitions blocked _ within member

/-- A pattern that takes a glyph has no outcome where there is none. -/
theorem Advances.spots_eq_nil {lead : σ → Char} {body : Pattern slot}
    (advances : body.Advances lead) {spot : Spot σ slot} (ended : spot.ahead = []) :
    body.spots lead spot = [] := by
  refine List.eq_nil_iff_forall_not_mem.2 fun later member => ?_
  have shorter := advances spot later member
  rw [ended, List.length_nil] at shorter
  omega

/-- The budgets do not matter as long as they have room for all that is ahead: the budget on the
face counts characters, the other one glyphs. -/
theorem sift_repetitions {body : Pattern slot} (filled : Filled face) (steady : body.Steady o face)
    (blocked : body.Blocked o face) (advances : body.Advances o.lead) (budget : Nat) :
    ∀ (count : Nat) (spot : Spot σ slot), o.Sound spot →
      (spell face spot.ahead).length ≤ budget → spot.ahead.length ≤ count →
      Sift o face (repetitions body.outcomes budget (spot.reading face))
        (spotRepetitions (body.spots o.lead) count spot) := by
  induction budget with
  | zero =>
    intro count spot sound room enough
    have ended : spot.ahead = [] :=
      filled.spell_eq_nil.1 (List.length_eq_zero_iff.1 (Nat.le_zero.1 room))
    cases count with
    | zero => exact .keep spot .nil
    | succ count =>
      rw [spotRepetitions, advances.spots_eq_nil ended]
      exact .keep spot .nil
  | succ budget ih =>
    intro count spot sound room enough
    have further : ∀ more, spot.ahead.length ≤ more + 1 →
        ∀ later ∈ body.spots o.lead spot,
          Sift o face (repetitions body.outcomes budget (later.reading face))
            (spotRepetitions (body.spots o.lead) more later) := by
      intro more bound later member
      obtain ⟨passed, passes⟩ := exists_passes_of_mem_spots member
      have shorter := advances spot later member
      have taken : passed ≠ [] := by
        rintro rfl
        rw [passes.ahead, List.nil_append] at shorter
        omega
      have written := List.length_pos_iff.2 (mt filled.spell_eq_nil.1 taken)
      rw [passes.ahead, spell_append, List.length_append] at room
      exact ih more later (steady.sound spot sound later member) (by omega) (by omega)
    have within : ∀ reading, Inside o face reading →
        ∀ later ∈ repetitions body.outcomes budget reading, Inside o face later :=
      fun _ here _ member => inside_of_mem_repetitions blocked budget here member
    cases count with
    | zero =>
      have ended : spot.ahead = [] := List.length_eq_zero_iff.1 (Nat.le_zero.1 enough)
      have none := steady.sift spot sound
      rw [advances.spots_eq_nil ended] at none
      have nowhere : Sift o face _ (List.flatMap (fun spot => [spot]) []) := none.flatMap
        (fun _ member => absurd member List.not_mem_nil) within
      exact nowhere.append (.keep spot .nil)
    | succ count =>
      exact ((steady.sift spot sound).flatMap (further count enough) within).append
        (.keep spot .nil)

omit [DecidableEq slot] in
theorem sound_of_mem_spotRepetitions {step : Spot σ slot → List (Spot σ slot)}
    (sound : ∀ spot, o.Sound spot → ∀ later ∈ step spot, o.Sound later) (budget : Nat)
    {spot later : Spot σ slot} (begun : o.Sound spot)
    (member : later ∈ spotRepetitions step budget spot) : o.Sound later := by
  induction budget generalizing spot with
  | zero => exact List.mem_singleton.1 member ▸ begun
  | succ budget ih =>
    rcases List.mem_append.1 member with more | here
    · obtain ⟨middle, round, rest⟩ := List.mem_flatMap.1 more
      exact ih (sound spot begun middle round) rest
    · exact List.mem_singleton.1 here ▸ begun

theorem Steady.rounds {body : Pattern slot} (filled : Filled face) (steady : body.Steady o face)
    (blocked : body.Blocked o face) (advances : body.Advances o.lead) :
    (Pattern.rounds body).Steady o face where
  sift spot sound :=
    sift_repetitions filled steady blocked advances _ _ spot sound (Nat.le_refl _) (Nat.le_refl _)
  sound _ begun _ member := sound_of_mem_spotRepetitions steady.sound _ begun member

theorem repetitions_eq_map {body : Pattern slot} (filled : Filled face)
    (closed : body.Closed o face) (advances : body.Advances o.lead) (budget : Nat) :
    ∀ (count : Nat) (spot : Spot σ slot), o.Sound spot →
      (spell face spot.ahead).length ≤ budget → spot.ahead.length ≤ count →
      repetitions body.outcomes budget (spot.reading face) =
        (spotRepetitions (body.spots o.lead) count spot).map (Spot.reading face) := by
  induction budget with
  | zero =>
    intro count spot sound room enough
    have ended : spot.ahead = [] :=
      filled.spell_eq_nil.1 (List.length_eq_zero_iff.1 (Nat.le_zero.1 room))
    cases count with
    | zero => rfl
    | succ count =>
      rw [spotRepetitions, advances.spots_eq_nil ended]
      rfl
  | succ budget ih =>
    intro count spot sound room enough
    cases count with
    | zero =>
      have ended : spot.ahead = [] := List.length_eq_zero_iff.1 (Nat.le_zero.1 enough)
      rw [repetitions, closed.same spot sound, advances.spots_eq_nil ended]
      rfl
    | succ count =>
      rw [repetitions, spotRepetitions, closed.same spot sound, List.flatMap_map, List.map_append,
        List.map_flatMap]
      refine congrArg (· ++ _) (List.flatMap_congr fun later member => ?_)
      obtain ⟨passed, passes⟩ := exists_passes_of_mem_spots member
      have shorter := advances spot later member
      have taken : passed ≠ [] := by
        rintro rfl
        rw [passes.ahead, List.nil_append] at shorter
        omega
      have written := List.length_pos_iff.2 (mt filled.spell_eq_nil.1 taken)
      rw [passes.ahead, spell_append, List.length_append] at room
      exact ih count later (closed.sound spot sound later member) (by omega) (by omega)

theorem Closed.rounds {body : Pattern slot} (filled : Filled face) (closed : body.Closed o face)
    (advances : body.Advances o.lead) : (Pattern.rounds body).Closed o face where
  same spot sound :=
    repetitions_eq_map filled closed advances _ _ spot sound (Nat.le_refl _) (Nat.le_refl _)
  sound _ begun _ member := sound_of_mem_spotRepetitions closed.sound _ begun member

theorem Closed.rounds1 {body : Pattern slot} (filled : Filled face) (closed : body.Closed o face)
    (advances : body.Advances o.lead) : (Pattern.rounds1 body).Closed o face :=
  closed.seq (closed.rounds filled advances)

/-- A captured text that no seal can repeat is looked for among the glyphs. -/
theorem Closed.same_again {name : slot} {fold : Char → Char} {p : Text → Prop}
    (filled : Filled face) (pure : o.pure? name = some p)
    (apart : ∀ text, p text → Apart face fold text) :
    (Pattern.same name fold).Closed o face where
  same spot sound := by
    simp only [outcomes, spots, Spot.reading_get?]
    cases found : spot.get? name with
    | none => rfl
    | some glyphs =>
      obtain ⟨text, rfl, holds⟩ := sound _ (Spot.mem_captures_of_get? found) p pure
      have agree := past?_reading filled text (apart text holds) spot.behind spot.ahead
        spot.captures
      simp only [Option.map_some, spell_chars, Spot.reading_cursor]
      rw [agree]
      cases passed : Spot.past? fold (Glyph.chars text)
          (⟨spot.behind, spot.ahead, spot.captures⟩ : Spot σ slot) with
      | none => simp
      | some later =>
        obtain ⟨_, _, kept, _⟩ := exists_passes_of_past? passed
        simp only [Option.map_some, Option.toList_some, List.map_cons, List.map_nil]
        rw [Spot.reading, Spot.reading, kept]
  sound spot sound later member := by
    simp only [spots] at member
    split at member
    · simp at member
    · obtain ⟨_, _, kept, _⟩ := exists_passes_of_past? (Option.mem_toList.1 member)
      intro capture inside
      exact sound capture (kept ▸ inside)

theorem Stuck.same_again {name : slot} {fold : Char → Char} {p : Text → Prop}
    (pure : o.pure? name = some p)
    (apart : ∀ text, p text → text ≠ [] ∧
      ∀ s, ∀ c ∈ face s, ∀ expected ∈ text, fold c ≠ fold expected) :
    (Pattern.same name fold).Stuck o face := by
  intro reading within
  simp only [outcomes]
  cases found : reading.get? name with
  | none => rfl
  | some text =>
    have holds : p text := by
      obtain ⟨capture, kept, rfl⟩ := Option.map_eq_some_iff.1 found
      have named := List.find?_some kept
      simp only [decide_eq_true_eq] at named
      exact within.tidy capture (List.mem_of_find?_eq_some kept) p (named ▸ pure)
    obtain ⟨filled, differs⟩ := apart text holds
    obtain ⟨expected, more, rfl⟩ := List.exists_cons_of_ne_nil filled
    obtain ⟨behind, s, ahead, u, v, written, _, here, _, after⟩ := within.cut
    obtain ⟨c, rest, rfl⟩ := List.exists_cons_of_ne_nil here
    have unlike := differs s c (by simp [written]) expected List.mem_cons_self
    obtain ⟨⟨offset, before, text⟩, captures⟩ := reading
    obtain rfl : text = c :: (rest ++ spell face ahead) := after
    simp [Cursor.past?, unlike]

theorem Closed.ahead {body : Pattern slot} (closed : body.Closed o face) (wanted : Bool) :
    (Pattern.ahead wanted body).Closed o face where
  same spot sound := by
    simp only [outcomes, spots, closed.same spot sound, List.head?_map, Option.isSome_map]
    split <;> simp
  sound spot sound later member := by
    simp only [spots] at member
    split at member
    · exact List.mem_singleton.1 member ▸ sound
    · simp at member

theorem Closed.place {holds : Cursor → Bool} (impartial : Impartial o face holds) :
    (Pattern.place holds : Pattern slot).Closed o face where
  same spot _ := by
    simp only [outcomes, spots, Spot.reading_cursor, impartial spot]
    split <;> simp
  sound spot sound later member := by
    simp only [spots] at member
    split at member
    · exact List.mem_singleton.1 member ▸ sound
    · simp at member

theorem Blocked.place (holds : Cursor → Bool) :
    (Pattern.place holds : Pattern slot).Blocked o face := by
  intro reading within later member
  simp only [outcomes] at member
  split at member
  · exact List.mem_singleton.1 member ▸ within
  · simp at member

theorem Stuck.place {holds : Cursor → Bool}
    (never : ∀ reading : Reading slot, Inside o face reading → holds reading.cursor = false) :
    (Pattern.place holds : Pattern slot).Stuck o face := by
  intro reading within
  simp [outcomes, never reading within]

theorem Blocked.empty : (Pattern.empty : Pattern slot).Blocked o face :=
  fun _ within _ member => List.mem_singleton.1 member ▸ within

theorem Blocked.one {accepts : Char → Bool} (shuns : Shuns o face accepts) :
    (Pattern.one accepts : Pattern slot).Blocked o face := by
  intro reading within later member
  simp only [outcomes] at member
  split at member
  · simp at member
  · next c rest next =>
    split at member
    · next accepted => exact List.mem_singleton.1 member ▸ Inside.past shuns within next accepted
    · simp at member

theorem Blocked.few {accepts : Char → Bool} (shuns : Shuns o face accepts) :
    (Pattern.few accepts : Pattern slot).Blocked o face := by
  intro reading within later member
  rw [outcomes_few] at member
  obtain ⟨stop, reached, rfl⟩ := List.mem_map.1 member
  exact inside_of_mem_nearStops shuns _ _ _ within reached

theorem Blocked.many {accepts : Char → Bool} (shuns : Shuns o face accepts) :
    (Pattern.many accepts : Pattern slot).Blocked o face := by
  intro reading within later member
  rw [outcomes_many] at member
  exact Blocked.few shuns reading within later (List.mem_reverse.1 member)

theorem Blocked.either {first second : Pattern slot} (left : first.Blocked o face)
    (right : second.Blocked o face) : (first.either second).Blocked o face := by
  intro reading within later member
  rcases List.mem_append.1 member with inFirst | inSecond
  · exact left reading within later inFirst
  · exact right reading within later inSecond

theorem Blocked.optional {body : Pattern slot} (blocked : body.Blocked o face) :
    (Pattern.optional body).Blocked o face :=
  blocked.either .empty

theorem Stuck.after {first second : Pattern slot} (early : first.Blocked o face)
    (late : second.Stuck o face) : (first.seq second).Stuck o face := by
  intro reading within
  refine List.eq_nil_iff_forall_not_mem.2 fun later member => ?_
  obtain ⟨middle, inFirst, inSecond⟩ := List.mem_flatMap.1 member
  rw [late middle (early reading within middle inFirst)] at inSecond
  exact List.not_mem_nil inSecond

theorem Stuck.seq {first : Pattern slot} (stuck : first.Stuck o face) (second : Pattern slot) :
    (first.seq second).Stuck o face := by
  intro reading within
  rw [outcomes, stuck reading within, List.flatMap_nil]

theorem Stuck.either {first second : Pattern slot} (left : first.Stuck o face)
    (right : second.Stuck o face) : (first.either second).Stuck o face := by
  intro reading within
  rw [outcomes, left reading within, right reading within, List.append_nil]

theorem Stuck.capture (name : slot) {body : Pattern slot} (stuck : body.Stuck o face) :
    (Pattern.capture name body).Stuck o face := by
  intro reading within
  rw [outcomes, stuck reading within, List.map_nil]

theorem Stuck.one {accepts : Char → Bool} (foreign : Foreign face accepts) :
    (Pattern.one accepts : Pattern slot).Stuck o face := by
  intro reading within
  obtain ⟨behind, s, ahead, u, v, written, _, here, _, after⟩ := within.cut
  obtain ⟨c, rest, rfl⟩ := List.exists_cons_of_ne_nil here
  have refused := foreign s c (by simp [written])
  simp [outcomes, after, refused]

end Markdown.Pattern
