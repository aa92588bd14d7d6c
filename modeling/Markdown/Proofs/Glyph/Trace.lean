import Markdown.Proofs.Glyph.Frames

set_option autoImplicit false

namespace Markdown

variable {σ slot : Type} [DecidableEq slot]

namespace Pattern

variable {lead : σ → Char} {pattern : Pattern slot}

/-- The pieces of all the glyphs ahead of a spot. -/
def piecesAhead (lead : σ → Char) (pattern : Pattern slot) (spot : Spot σ slot) :
    List (Piece σ slot) :=
  pattern.piecesFrom lead spot.ahead.length spot

theorem pieces_eq_piecesAhead (lead : σ → Char) (pattern : Pattern slot)
    (glyphs : List (Glyph σ)) :
    pattern.pieces lead glyphs = pattern.piecesAhead lead (.first glyphs) := rfl

/-- A budget with room for all that is ahead is as good as any other. -/
theorem piecesFrom_eq (advances : pattern.Advances lead) {count : Nat} {spot : Spot σ slot}
    (room : spot.ahead.length ≤ count) :
    pattern.piecesFrom lead count spot = pattern.piecesAhead lead spot := by
  rw [piecesAhead]
  generalize least : spot.ahead.length = other
  have enough : spot.ahead.length ≤ other := Nat.le_of_eq least
  clear least
  induction count generalizing other spot with
  | zero =>
    have ended : spot.ahead = [] := List.length_eq_zero_iff.1 (Nat.le_zero.1 room)
    cases other <;> simp [piecesFrom, ended]
  | succ count ih =>
    cases other with
    | zero =>
      have ended : spot.ahead = [] := List.length_eq_zero_iff.1 (Nat.le_zero.1 enough)
      simp [piecesFrom, ended]
    | succ other =>
      simp only [piecesFrom]
      cases ahead : spot.ahead with
      | nil => rfl
      | cons g rest =>
        rw [ahead, List.length_cons] at room enough
        cases first : (pattern.spots lead spot.fresh).head? with
        | none =>
          exact congrArg _ (@ih (spot.past g rest) (Nat.le_of_succ_le_succ room) other
            (Nat.le_of_succ_le_succ enough))
        | some stop =>
          have shorter := advances _ _ (List.mem_of_mem_head? first)
          have fewer : stop.ahead.length < rest.length + 1 := by
            simpa [Spot.fresh, ahead] using shorter
          exact congrArg _ (@ih stop (by omega) other (by omega))

theorem piecesAhead_nil (behind : List (Glyph σ)) (captures : List (slot × List (Glyph σ))) :
    pattern.piecesAhead lead ⟨behind, [], captures⟩ = [] := rfl

theorem piecesAhead_plain {behind rest : List (Glyph σ)} {g : Glyph σ}
    {captures : List (slot × List (Glyph σ))}
    (none : pattern.spots lead ⟨behind, g :: rest, []⟩ = []) :
    pattern.piecesAhead lead ⟨behind, g :: rest, captures⟩ =
      .plain g :: pattern.piecesAhead lead ⟨g :: behind, rest, captures⟩ := by
  simp [piecesAhead, piecesFrom, Spot.fresh, none, Spot.past]

theorem piecesAhead_found (advances : pattern.Advances lead) {behind ahead : List (Glyph σ)}
    {captures : List (slot × List (Glyph σ))} {stop : Spot σ slot}
    (first : (pattern.spots lead ⟨behind, ahead, []⟩).head? = some stop) :
    pattern.piecesAhead lead ⟨behind, ahead, captures⟩ =
      .found ⟨⟨behind, ahead, []⟩, stop⟩ :: pattern.piecesAhead lead stop := by
  have shorter := advances _ _ (List.mem_of_mem_head? first)
  cases ahead with
  | nil => simp at shorter
  | cons g rest =>
    have room : stop.ahead.length ≤ rest.length := Nat.le_of_lt_succ shorter
    simp [piecesAhead, piecesFrom, Spot.fresh, first, piecesFrom_eq advances room]

/-- Glyphs at none of which the pattern has an outcome stay as they are. -/
theorem piecesAhead_append {behind passed rest : List (Glyph σ)}
    {captures : List (slot × List (Glyph σ))}
    (none : ∀ early g late, passed = early ++ g :: late →
      pattern.spots lead ⟨early.reverse ++ behind, g :: (late ++ rest), []⟩ = []) :
    pattern.piecesAhead lead ⟨behind, passed ++ rest, captures⟩ =
      passed.map .plain ++
        pattern.piecesAhead lead ⟨passed.reverse ++ behind, rest, captures⟩ := by
  induction passed generalizing behind with
  | nil => rfl
  | cons g passed ih =>
    have here : pattern.spots lead ⟨behind, g :: (passed ++ rest), []⟩ = [] :=
      none [] g passed rfl
    rw [List.cons_append, piecesAhead_plain here, ih]
    · simp
    · intro early h late whole
      have later := none (g :: early) h late (by rw [whole, List.cons_append])
      simpa using later

/-- A glyph stays as it is only where the pattern has no outcome. -/
theorem piecesAhead_eq_plain {spot : Spot σ slot} {g : Glyph σ} {later : List (Piece σ slot)}
    (whole : pattern.piecesAhead lead spot = .plain g :: later) :
    ∃ rest, spot.ahead = g :: rest ∧ pattern.spots lead spot.fresh = [] ∧
      pattern.piecesAhead lead (spot.past g rest) = later := by
  obtain ⟨behind, ahead, captures⟩ := spot
  cases ahead with
  | nil => cases whole
  | cons h rest =>
    rw [piecesAhead, List.length_cons, piecesFrom] at whole
    split at whole
    · cases whole
    · next h' rest' same =>
      obtain ⟨rfl, rfl⟩ := List.cons.inj same
      split at whole
      · cases (List.cons.inj whole).1
      · next nowhere =>
        obtain ⟨same, more⟩ := List.cons.inj whole
        obtain rfl := Piece.plain.inj same
        exact ⟨rest, rfl, List.head?_eq_none_iff.1 nowhere, more⟩

/-- A match is the first outcome where it begins, and the search goes on behind it. -/
theorem piecesAhead_eq_found (advances : pattern.Advances lead) {spot : Spot σ slot}
    {f : Find σ slot} {later : List (Piece σ slot)}
    (whole : pattern.piecesAhead lead spot = .found f :: later) :
    f.start = spot.fresh ∧ (pattern.spots lead spot.fresh).head? = some f.stop ∧
      pattern.piecesAhead lead f.stop = later := by
  obtain ⟨behind, ahead, captures⟩ := spot
  cases first : (pattern.spots lead ⟨behind, ahead, []⟩).head? with
  | some stop =>
    rw [piecesAhead_found advances first] at whole
    obtain ⟨same, more⟩ := List.cons.inj whole
    obtain rfl := Piece.found.inj same
    exact ⟨rfl, first, more⟩
  | none =>
    cases ahead with
    | nil => cases whole
    | cons g rest =>
      rw [piecesAhead_plain (List.head?_eq_none_iff.1 first)] at whole
      cases (List.cons.inj whole).1

/-- Where in a search a piece begins. -/
theorem piecesAhead_eq_append (advances : pattern.Advances lead) {spot : Spot σ slot}
    {early late : List (Piece σ slot)} (whole : pattern.piecesAhead lead spot = early ++ late) :
    ∃ here : Spot σ slot, here.behind = (early.flatMap Piece.glyphs).reverse ++ spot.behind ∧
      pattern.piecesAhead lead here = late := by
  induction early generalizing spot with
  | nil => exact ⟨spot, rfl, whole⟩
  | cons piece early ih =>
    cases piece with
    | plain g =>
      obtain ⟨rest, _, _, more⟩ := piecesAhead_eq_plain whole
      obtain ⟨here, behind, same⟩ := ih more
      exact ⟨here, by simp [behind, Spot.past, Piece.glyphs], same⟩
    | found f =>
      obtain ⟨start, first, more⟩ := piecesAhead_eq_found advances whole
      obtain ⟨here, behind, same⟩ := ih more
      obtain ⟨passed, passes⟩ := exists_passes_of_mem_spots (List.mem_of_mem_head? first)
      have glyphs : f.glyphs = passed := by rw [Find.glyphs, start, passes.between_eq]
      refine ⟨here, ?_, same⟩
      rw [behind, passes.behind, List.flatMap_cons, Piece.glyphs, glyphs]
      simp [Spot.fresh]

/-- The pattern is found nowhere. -/
def Absent (lead : σ → Char) (pattern : Pattern slot) (glyphs : List (Glyph σ)) : Prop :=
  ∀ f, ¬ pattern.Finds lead glyphs f

theorem Absent.pieces_eq {glyphs : List (Glyph σ)} (absent : pattern.Absent lead glyphs) :
    pattern.pieces lead glyphs = glyphs.map .plain := by
  have plain : ∀ piece ∈ pattern.pieces lead glyphs, ∃ g, piece = .plain g := by
    intro piece member
    cases piece with
    | plain g => exact ⟨g, rfl⟩
    | found f => exact absurd (finds_of_mem_pieces member) (absent f)
  have whole := pattern.flatMap_glyphs_pieces lead glyphs
  generalize pattern.pieces lead glyphs = pieces at plain whole
  clear absent
  subst whole
  induction pieces with
  | nil => rfl
  | cons piece rest ih =>
    obtain ⟨g, rfl⟩ := plain piece List.mem_cons_self
    rw [List.flatMap_cons, List.map_append,
      ← ih fun other member => plain other (List.mem_cons_of_mem _ member)]
    rfl

omit [DecidableEq slot] in
theorem sequence_cons_cons (first second : Pattern slot) (rest : List (Pattern slot)) :
    sequence (first :: second :: rest) = .seq first (sequence (second :: rest)) := rfl

theorem head?_spots_seq (lead : σ → Char) (first second : Pattern slot) (spot : Spot σ slot) :
    ((first.seq second).spots lead spot).head? =
      (first.spots lead spot).findSome? fun middle => (second.spots lead middle).head? := by
  rw [spots, List.head?_flatMap]

omit [DecidableEq slot] in
theorem spotRepetitions_ne_nil (step : Spot σ slot → List (Spot σ slot)) (budget : Nat)
    (spot : Spot σ slot) : spotRepetitions step budget spot ≠ [] := by
  cases budget <;> simp [spotRepetitions]

theorem spots_eq_nil_of_head?_spotRepetitions {body : Pattern slot} (advances : body.Advances lead)
    (budget : Nat) {spot later : Spot σ slot} (room : spot.ahead.length ≤ budget)
    (first : (spotRepetitions (body.spots lead) budget spot).head? = some later) :
    body.spots lead later = [] := by
  induction budget generalizing spot with
  | zero =>
    obtain rfl : spot = later := by simpa [spotRepetitions] using first
    exact advances.spots_eq_nil (List.length_eq_zero_iff.1 (Nat.le_zero.1 room))
  | succ budget ih =>
    rw [spotRepetitions] at first
    cases rounds : body.spots lead spot with
    | nil =>
      rw [rounds] at first
      obtain rfl : spot = later := by simpa using first
      exact rounds
    | cons middle others =>
      have shorter := advances spot middle (rounds ▸ List.mem_cons_self)
      rw [rounds, List.flatMap_cons, List.append_assoc,
        List.head?_append_of_ne_nil _ (spotRepetitions_ne_nil _ _ _)] at first
      exact ih (by omega) first

/-- An eager repetition goes on as long as another round is possible. -/
theorem spots_eq_nil_of_head?_rounds {body : Pattern slot} (advances : body.Advances lead)
    {spot later : Spot σ slot} (first : ((Pattern.rounds body).spots lead spot).head? = some later) :
    body.spots lead later = [] :=
  spots_eq_nil_of_head?_spotRepetitions advances _ (Nat.le_refl _) first

end Pattern

end Markdown
