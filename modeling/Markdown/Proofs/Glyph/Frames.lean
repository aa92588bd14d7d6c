import Markdown.Proofs.Glyph.Only

set_option autoImplicit false

namespace Markdown.Pattern

variable {σ slot : Type} [DecidableEq slot]

/-- The pattern passes only glyphs of the shape. -/
def Takes (lead : σ → Char) (shape : List (Glyph σ) → Prop) (pattern : Pattern slot) : Prop :=
  ∀ spot, ∀ later ∈ pattern.spots lead spot, ∃ passed, spot.Passes passed later ∧ shape passed

/-- The pattern passes glyphs that it captures under the slot, with glyphs of these shapes before
and behind them. -/
def Frames (lead : σ → Char) (name : slot) (front back : List (Glyph σ) → Prop)
    (pattern : Pattern slot) : Prop :=
  ∀ spot, ∀ later ∈ pattern.spots lead spot, ∃ a caught b,
    spot.Passes (a ++ caught ++ b) later ∧ later.get? name = some caught ∧ front a ∧ back b

variable {lead : σ → Char} {first second : Pattern slot} {a b shape : List (Glyph σ) → Prop}

theorem Takes.seq (early : first.Takes lead a) (late : second.Takes lead b)
    (joins : ∀ passed more, a passed → b more → shape (passed ++ more)) :
    (first.seq second).Takes lead shape := by
  intro spot later member
  obtain ⟨middle, inFirst, inSecond⟩ := List.mem_flatMap.1 member
  obtain ⟨passed, passes, here⟩ := early spot middle inFirst
  obtain ⟨more, onward, there⟩ := late middle later inSecond
  exact ⟨passed ++ more, passes.trans onward, joins passed more here there⟩

theorem Takes.one {accepts : Char → Bool} :
    (Pattern.one accepts : Pattern slot).Takes lead
      fun passed => ∃ g, passed = [g] ∧ g.fits lead accepts = true := by
  intro spot later member
  simp only [spots] at member
  split at member
  · simp at member
  · next g rest ahead =>
    split at member
    · next here =>
      obtain rfl := List.mem_singleton.1 member
      exact ⟨[g], .past ahead, g, rfl, here⟩
    · simp at member

variable {name : slot} {front back : List (Glyph σ) → Prop}

theorem get?_of_captures {pattern : Pattern slot}
    (spares : pattern.Captures lead fun other _ => other ≠ name) {spot later : Spot σ slot}
    (member : later ∈ pattern.spots lead spot) : later.get? name = spot.get? name := by
  obtain ⟨new, same, others⟩ := spares.exists_new member
  have none : new.find? (fun capture => decide (capture.1 = name)) = none := by
    simpa using fun caught glyphs inside => others _ inside
  rw [Spot.get?, Spot.get?, same, List.find?_append, none, Option.none_or]

theorem Frames.capture (name : slot) (body : Pattern slot) :
    (Pattern.capture name body).Frames lead name (· = []) (· = []) := by
  intro spot later member
  obtain ⟨inner, inside, rfl⟩ := List.mem_map.1 member
  obtain ⟨passed, passes⟩ := exists_passes_of_mem_spots inside
  refine ⟨[], passed, [], by simpa using ⟨passes.behind, passes.ahead⟩, ?_, rfl, rfl⟩
  simp [Spot.get?, passes.between_eq]

/-- Glyphs before a frame belong to its front. -/
theorem Frames.behind (takes : first.Takes lead a) (frames : second.Frames lead name b back)
    (joins : ∀ passed more, a passed → b more → front (passed ++ more)) :
    (first.seq second).Frames lead name front back := by
  intro spot later member
  obtain ⟨middle, inFirst, inSecond⟩ := List.mem_flatMap.1 member
  obtain ⟨passed, passes, here⟩ := takes spot middle inFirst
  obtain ⟨more, caught, ending, onward, found, there, last⟩ := frames middle later inSecond
  refine ⟨passed ++ more, caught, ending, ?_, found, joins passed more here there, last⟩
  simpa using passes.trans onward

/-- Glyphs after a frame belong to its back. -/
theorem Frames.ahead (frames : first.Frames lead name front a) (takes : second.Takes lead b)
    (spares : second.Captures lead fun other _ => other ≠ name)
    (joins : ∀ passed more, a passed → b more → back (passed ++ more)) :
    (first.seq second).Frames lead name front back := by
  intro spot later member
  obtain ⟨middle, inFirst, inSecond⟩ := List.mem_flatMap.1 member
  obtain ⟨begun, caught, ending, passes, found, here, there⟩ := frames spot middle inFirst
  obtain ⟨more, onward, last⟩ := takes middle later inSecond
  refine ⟨begun, caught, ending ++ more, ?_, ?_, here, joins ending more there last⟩
  · simpa using passes.trans onward
  · rw [get?_of_captures spares inSecond, found]

/-- Whatever a pattern passes, it passes something. -/
theorem takes_any (pattern : Pattern slot) : pattern.Takes lead fun _ => True := by
  intro spot later member
  obtain ⟨passed, passes⟩ := exists_passes_of_mem_spots member
  exact ⟨passed, passes, trivial⟩

theorem Takes.mono (takes : first.Takes lead a) (weaker : ∀ passed, a passed → b passed) :
    first.Takes lead b := by
  intro spot later member
  obtain ⟨passed, passes, here⟩ := takes spot later member
  exact ⟨passed, passes, weaker passed here⟩

theorem Takes.capture (name : slot) (takes : first.Takes lead a) :
    (Pattern.capture name first).Takes lead a := by
  intro spot later member
  obtain ⟨inner, inside, rfl⟩ := List.mem_map.1 member
  obtain ⟨passed, passes, here⟩ := takes spot inner inside
  exact ⟨passed, ⟨passes.behind, passes.ahead⟩, here⟩

theorem Takes.memFirst {g : Glyph σ} (takes : first.Takes lead (g ∈ ·)) (second : Pattern slot) :
    (first.seq second).Takes lead (g ∈ ·) :=
  takes.seq (takes_any second) fun _ _ inside _ => List.mem_append_left _ inside

theorem Takes.memSecond {g : Glyph σ} (first : Pattern slot) (takes : second.Takes lead (g ∈ ·)) :
    (first.seq second).Takes lead (g ∈ ·) :=
  Takes.seq (takes_any first) takes fun _ _ _ inside => List.mem_append_right _ inside

theorem Takes.glyphs {pattern : Pattern slot} (takes : pattern.Takes lead shape)
    {glyphs : List (Glyph σ)} {f : Find σ slot} (finds : pattern.Finds lead glyphs f) :
    shape f.glyphs := by
  obtain ⟨passed, passes, here⟩ := takes _ _ finds.mem
  rw [Find.glyphs, passes.between_eq]
  exact here

theorem mem_spots_place {holds : Cursor → Bool} {spot later : Spot σ slot}
    (member : later ∈ (Pattern.place holds).spots lead spot) : later = spot := by
  simp only [spots] at member
  split at member
  · exact List.mem_singleton.1 member
  · simp at member

theorem Takes.afterPlace (holds : Cursor → Bool) (takes : second.Takes lead a) :
    ((Pattern.place holds).seq second).Takes lead a := by
  intro spot later member
  obtain ⟨middle, here, inSecond⟩ := List.mem_flatMap.1 member
  obtain rfl := mem_spots_place here
  exact takes _ later inSecond

theorem Frames.afterPlace (holds : Cursor → Bool) (frames : second.Frames lead name front back) :
    ((Pattern.place holds).seq second).Frames lead name front back := by
  intro spot later member
  obtain ⟨middle, here, inSecond⟩ := List.mem_flatMap.1 member
  obtain rfl := mem_spots_place here
  exact frames _ later inSecond

theorem Frames.beforePlace (frames : first.Frames lead name front back) (holds : Cursor → Bool) :
    (first.seq (.place holds)).Frames lead name front back := by
  intro spot later member
  obtain ⟨middle, member, here⟩ := List.mem_flatMap.1 member
  obtain rfl := mem_spots_place here
  exact frames spot _ member

omit [DecidableEq slot] in
theorem passes_of_past?_id {expected : List (Glyph σ)} {start stop : Spot σ slot}
    (found : Spot.past? id expected start = some stop) : start.Passes expected stop := by
  obtain ⟨text, passes, _, name, rfl, same⟩ := exists_passes_of_past? found
  rw [List.map_id, List.map_id] at same
  rwa [← same]

/-- What was captured is passed once more. -/
theorem passes_of_mem_same {caught : List (Glyph σ)} {spot later : Spot σ slot}
    (kept : spot.get? name = some caught)
    (member : later ∈ (Pattern.same name id).spots lead spot) : spot.Passes caught later := by
  simp only [spots, kept] at member
  exact passes_of_past?_id (Option.mem_toList.1 member)

theorem captures_literal (good : slot → List (Glyph σ) → Prop) (text : Text) :
    (Pattern.literal text).Captures lead good := by
  induction text with
  | nil => exact trivial
  | cons c rest ih =>
    cases rest with
    | nil => exact trivial
    | cons d rest => exact ⟨trivial, ih⟩

/-- A match of a pattern that frames a capture. -/
theorem Frames.glyphs {pattern : Pattern slot} (frames : pattern.Frames lead name front back)
    {glyphs : List (Glyph σ)} {f : Find σ slot} (finds : pattern.Finds lead glyphs f) :
    ∃ a b, f.glyphs = a ++ f.get name ++ b ∧ front a ∧ back b := by
  obtain ⟨begun, caught, ending, passes, found, here, there⟩ := frames _ _ finds.mem
  refine ⟨begun, ending, ?_, here, there⟩
  rw [Find.glyphs, passes.between_eq, Find.get, Find.get?, found, Option.getD_some]

end Markdown.Pattern
