import Markdown.Pattern.Outcomes

set_option autoImplicit false

namespace Markdown

/-- A character, or a piece of text that counts as a whole. -/
inductive Glyph (σ : Type) where
  | char (c : Char)
  | sealed (s : σ)

variable {σ slot : Type}

namespace Glyph

def spell (face : σ → Text) : Glyph σ → Text
  | .char c => [c]
  | .sealed s => face s

/-- The class takes the glyph; a seal is judged by its lead. -/
def fits (lead : σ → Char) (accepts : Char → Bool) : Glyph σ → Bool
  | .char c => accepts c
  | .sealed s => accepts (lead s)

def chars (text : Text) : List (Glyph σ) :=
  text.map .char

@[simp] theorem chars_nil : (chars [] : List (Glyph σ)) = [] := rfl

@[simp] theorem chars_cons (c : Char) (text : Text) :
    (chars (c :: text) : List (Glyph σ)) = .char c :: chars text := rfl

@[simp] theorem chars_append (first second : Text) :
    (chars (first ++ second) : List (Glyph σ)) = chars first ++ chars second :=
  List.map_append

theorem mem_chars {g : Glyph σ} {text : Text} : g ∈ chars text ↔ ∃ c ∈ text, g = .char c := by
  simp only [chars, List.mem_map, eq_comm]

end Glyph

def spell (face : σ → Text) (glyphs : List (Glyph σ)) : Text :=
  glyphs.flatMap (Glyph.spell face)

/-- Glyphs in characters where both run backwards, the nearest first. -/
def spellBack (face : σ → Text) (behind : List (Glyph σ)) : Text :=
  behind.flatMap fun g => (g.spell face).reverse

section Spelling

variable (face : σ → Text)

@[simp] theorem spell_nil : spell face [] = [] := rfl

@[simp] theorem spell_cons (g : Glyph σ) (rest : List (Glyph σ)) :
    spell face (g :: rest) = g.spell face ++ spell face rest := rfl

@[simp] theorem spell_append (first second : List (Glyph σ)) :
    spell face (first ++ second) = spell face first ++ spell face second :=
  List.flatMap_append

@[simp] theorem spell_chars (text : Text) : spell face (Glyph.chars text) = text := by
  induction text with
  | nil => rfl
  | cons c rest ih => simp [Glyph.spell, ih]

@[simp] theorem spellBack_nil : spellBack face [] = [] := rfl

@[simp] theorem spellBack_cons (g : Glyph σ) (rest : List (Glyph σ)) :
    spellBack face (g :: rest) = (g.spell face).reverse ++ spellBack face rest := rfl

@[simp] theorem spellBack_append (first second : List (Glyph σ)) :
    spellBack face (first ++ second) = spellBack face first ++ spellBack face second :=
  List.flatMap_append

theorem spellBack_reverse (glyphs : List (Glyph σ)) :
    spellBack face glyphs.reverse = (spell face glyphs).reverse := by
  induction glyphs with
  | nil => rfl
  | cons g rest ih => simp [ih]

/-- No seal is written as nothing. -/
def Filled (face : σ → Text) : Prop :=
  ∀ s, face s ≠ []

variable {face}

theorem Filled.glyph_ne_nil (filled : Filled face) (g : Glyph σ) : g.spell face ≠ [] := by
  cases g with
  | char c => exact List.cons_ne_nil c []
  | sealed s => exact filled s

theorem Filled.length_le (filled : Filled face) (glyphs : List (Glyph σ)) :
    glyphs.length ≤ (spell face glyphs).length := by
  induction glyphs with
  | nil => exact Nat.le_refl 0
  | cons g rest ih =>
    have here := List.length_pos_iff.2 (filled.glyph_ne_nil g)
    rw [spell_cons, List.length_append, List.length_cons]
    omega

theorem Filled.spell_eq_nil (filled : Filled face) {glyphs : List (Glyph σ)} :
    spell face glyphs = [] ↔ glyphs = [] := by
  constructor
  · intro blank
    have bound := filled.length_le glyphs
    rw [blank, List.length_nil] at bound
    exact List.length_eq_zero_iff.1 (by omega)
  · rintro rfl
    rfl

end Spelling

/-- A place among glyphs, with the glyphs captured so far, the latest first. -/
structure Spot (σ slot : Type) where
  /-- The glyphs before the place, the nearest first. -/
  behind : List (Glyph σ)
  ahead : List (Glyph σ)
  captures : List (slot × List (Glyph σ))

namespace Spot

/-- The place at the start of glyphs. -/
def first (glyphs : List (Glyph σ)) : Spot σ slot :=
  ⟨[], glyphs, []⟩

/-- The place behind the next glyph, which is given together with what follows it. -/
def past (spot : Spot σ slot) (g : Glyph σ) (rest : List (Glyph σ)) : Spot σ slot :=
  ⟨g :: spot.behind, rest, spot.captures⟩

def fresh (spot : Spot σ slot) : Spot σ slot :=
  ⟨spot.behind, spot.ahead, []⟩

def between (start stop : Spot σ slot) : List (Glyph σ) :=
  start.ahead.take (start.ahead.length - stop.ahead.length)

def cursor (face : σ → Text) (spot : Spot σ slot) : Cursor :=
  ⟨(spellBack face spot.behind).length, spellBack face spot.behind, spell face spot.ahead⟩

def reading (face : σ → Text) (spot : Spot σ slot) : Reading slot :=
  ⟨spot.cursor face,
    spot.captures.map fun capture => (capture.1, Thunk.mk fun _ => spell face capture.2)⟩

@[simp] theorem reading_cursor (face : σ → Text) (spot : Spot σ slot) :
    (spot.reading face).cursor = spot.cursor face := rfl

@[simp] theorem cursor_before (face : σ → Text) (spot : Spot σ slot) :
    (spot.cursor face).before = spellBack face spot.behind := rfl

@[simp] theorem cursor_after (face : σ → Text) (spot : Spot σ slot) :
    (spot.cursor face).after = spell face spot.ahead := rfl

/-- The glyphs captured last under a slot. -/
def get? [DecidableEq slot] (spot : Spot σ slot) (wanted : slot) : Option (List (Glyph σ)) :=
  (spot.captures.find? fun capture => capture.1 = wanted).map (·.2)

theorem reading_get? [DecidableEq slot] (face : σ → Text) (spot : Spot σ slot) (wanted : slot) :
    (spot.reading face).get? wanted = (spot.get? wanted).map (spell face) := by
  obtain ⟨behind, ahead, captures⟩ := spot
  simp only [Reading.get?, reading, get?, List.find?_map, Option.map_map]
  rfl

theorem mem_captures_of_get? [DecidableEq slot] {spot : Spot σ slot} {wanted : slot}
    {glyphs : List (Glyph σ)} (found : spot.get? wanted = some glyphs) :
    (wanted, glyphs) ∈ spot.captures := by
  obtain ⟨capture, kept, rfl⟩ := Option.map_eq_some_iff.1 found
  have named := List.find?_some kept
  simp only [decide_eq_true_eq] at named
  exact named ▸ List.mem_of_find?_eq_some kept

/-- The later place is reached from the earlier one by passing the glyphs. -/
structure Passes (start : Spot σ slot) (passed : List (Glyph σ)) (stop : Spot σ slot) : Prop where
  behind : stop.behind = passed.reverse ++ start.behind
  ahead : start.ahead = passed ++ stop.ahead

theorem Passes.nothing (spot : Spot σ slot) : spot.Passes [] spot :=
  ⟨rfl, rfl⟩

theorem Passes.trans {first middle last : Spot σ slot} {early late : List (Glyph σ)}
    (earlier : first.Passes early middle) (later : middle.Passes late last) :
    first.Passes (early ++ late) last where
  behind := by rw [later.behind, earlier.behind, List.reverse_append, List.append_assoc]
  ahead := by rw [earlier.ahead, later.ahead, List.append_assoc]

theorem Passes.past {spot : Spot σ slot} {g : Glyph σ} {rest : List (Glyph σ)}
    (next : spot.ahead = g :: rest) : spot.Passes [g] (spot.past g rest) :=
  ⟨rfl, next⟩

/-- What was passed stands between the two places. -/
theorem Passes.between_eq {start stop : Spot σ slot} {passed : List (Glyph σ)}
    (passes : start.Passes passed stop) : start.between stop = passed := by
  simp [between, passes.ahead]

/-- Passed glyphs are passed in characters too. -/
theorem Passes.cursor {start stop : Spot σ slot} {passed : List (Glyph σ)}
    (passes : start.Passes passed stop) (face : σ → Text) :
    (start.cursor face).Passes (spell face passed) (stop.cursor face) where
  offset := by
    simp [Spot.cursor, passes.behind, spellBack_reverse, Nat.add_comm]
  before := by simp [Spot.cursor, passes.behind, spellBack_reverse]
  after := by simp [Spot.cursor, passes.ahead]

theorem upTo_eq {start stop : Spot σ slot} {passed : List (Glyph σ)}
    (passes : start.Passes passed stop) (face : σ → Text) :
    (start.cursor face).upTo (stop.cursor face) = spell face (start.between stop) := by
  rw [(passes.cursor face).upTo_eq, passes.between_eq]

/-- The places that a run of the class reaches, the nearest first. -/
def nearStops (lead : σ → Char) (accepts : Char → Bool) :
    List (Glyph σ) → List (Glyph σ) → List (slot × List (Glyph σ)) → List (Spot σ slot)
  | behind, [], captures => [⟨behind, [], captures⟩]
  | behind, g :: rest, captures =>
    ⟨behind, g :: rest, captures⟩ ::
      if g.fits lead accepts then nearStops lead accepts (g :: behind) rest captures else []

/-- The places that a run of the class reaches from here, the nearest first. -/
def stops (lead : σ → Char) (accepts : Char → Bool) (spot : Spot σ slot) : List (Spot σ slot) :=
  nearStops lead accepts spot.behind spot.ahead spot.captures

/-- The place behind the expected characters, if they stand here up to the folding of characters.
Seals are never expected. -/
def past? (fold : Char → Char) : List (Glyph σ) → Spot σ slot → Option (Spot σ slot)
  | [], spot => some spot
  | .char expected :: more, ⟨behind, .char c :: rest, captures⟩ =>
    if fold c = fold expected then past? fold more ⟨.char c :: behind, rest, captures⟩ else none
  | _ :: _, _ => none

end Spot

namespace Pattern

/-- Repetition on glyphs, as `repetitions` is for readings. -/
def spotRepetitions (step : Spot σ slot → List (Spot σ slot)) :
    Nat → Spot σ slot → List (Spot σ slot)
  | 0, spot => [spot]
  | budget + 1, spot => (step spot).flatMap (spotRepetitions step budget) ++ [spot]

variable [DecidableEq slot]

/-- Every way in which a pattern matches at a place among glyphs, those tried earlier first. -/
def spots (lead : σ → Char) : Pattern slot → Spot σ slot → List (Spot σ slot)
  | .empty, spot => [spot]
  | .one accepts, spot =>
    match spot.ahead with
    | [] => []
    | g :: rest => if g.fits lead accepts then [spot.past g rest] else []
  | .many accepts, spot => (spot.stops lead accepts).reverse
  | .few accepts, spot => spot.stops lead accepts
  | .seq first second, spot => (first.spots lead spot).flatMap (second.spots lead)
  | .either first second, spot => first.spots lead spot ++ second.spots lead spot
  | .rounds body, spot => spotRepetitions (body.spots lead) spot.ahead.length spot
  | .capture name body, spot =>
    (body.spots lead spot).map fun later =>
      ⟨later.behind, later.ahead, (name, spot.between later) :: later.captures⟩
  | .same name fold, spot =>
    match spot.get? name with
    | none => []
    | some expected => (Spot.past? fold expected spot).toList
  | .ahead wanted body, spot =>
    if (body.spots lead spot).head?.isSome = wanted then [spot] else []
  | .place holds, spot => if holds (spot.cursor fun s => [lead s]) then [spot] else []

end Pattern

end Markdown
