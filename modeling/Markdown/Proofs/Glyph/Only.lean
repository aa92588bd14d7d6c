import Markdown.Proofs.Glyph.Search

set_option autoImplicit false

namespace Markdown.Pattern

variable {σ slot : Type} [DecidableEq slot]

/-- The pattern passes only glyphs of the kind. -/
def Only (lead : σ → Char) (kind : Glyph σ → Prop) (pattern : Pattern slot) : Prop :=
  ∀ spot, ∀ later ∈ pattern.spots lead spot, ∃ passed,
    spot.Passes passed later ∧ ∀ g ∈ passed, kind g

variable {lead : σ → Char} {kind : Glyph σ → Prop}

theorem Only.between {pattern : Pattern slot} (only : pattern.Only lead kind)
    {spot later : Spot σ slot} (member : later ∈ pattern.spots lead spot) :
    ∀ g ∈ spot.between later, kind g := by
  obtain ⟨passed, passes, kinds⟩ := only spot later member
  rw [passes.between_eq]
  exact kinds

theorem Only.empty : (Pattern.empty : Pattern slot).Only lead kind := by
  intro spot later member
  obtain rfl := List.mem_singleton.1 member
  exact ⟨[], .nothing _, by simp⟩

theorem Only.one {accepts : Char → Bool} (fits : ∀ g, g.fits lead accepts = true → kind g) :
    (Pattern.one accepts : Pattern slot).Only lead kind := by
  intro spot later member
  simp only [spots] at member
  split at member
  · simp at member
  · next g rest ahead =>
    split at member
    · next here =>
      obtain rfl := List.mem_singleton.1 member
      exact ⟨[g], .past ahead, by simpa using fits g here⟩
    · simp at member

theorem Only.few {accepts : Char → Bool} (fits : ∀ g, g.fits lead accepts = true → kind g) :
    (Pattern.few accepts : Pattern slot).Only lead kind := by
  intro spot later member
  obtain ⟨passed, passes, inClass, _⟩ := exists_passes_of_mem_stops member
  exact ⟨passed, passes, fun g inside => fits g (inClass g inside)⟩

theorem Only.many {accepts : Char → Bool} (fits : ∀ g, g.fits lead accepts = true → kind g) :
    (Pattern.many accepts : Pattern slot).Only lead kind :=
  fun spot later member => Only.few fits spot later (List.mem_reverse.1 member)

theorem Only.seq {first second : Pattern slot} (early : first.Only lead kind)
    (late : second.Only lead kind) : (first.seq second).Only lead kind := by
  intro spot later member
  obtain ⟨middle, inFirst, inSecond⟩ := List.mem_flatMap.1 member
  obtain ⟨passed, passes, kinds⟩ := early spot middle inFirst
  obtain ⟨more, onward, others⟩ := late middle later inSecond
  refine ⟨passed ++ more, passes.trans onward, fun g inside => ?_⟩
  exact (List.mem_append.1 inside).elim (kinds g) (others g)

theorem Only.many1 {accepts : Char → Bool} (fits : ∀ g, g.fits lead accepts = true → kind g) :
    (Pattern.many1 accepts : Pattern slot).Only lead kind :=
  (Only.one fits).seq (.many fits)

theorem Only.either {first second : Pattern slot} (left : first.Only lead kind)
    (right : second.Only lead kind) : (first.either second).Only lead kind := by
  intro spot later member
  rcases List.mem_append.1 member with inFirst | inSecond
  · exact left spot later inFirst
  · exact right spot later inSecond

theorem Only.optional {body : Pattern slot} (only : body.Only lead kind) :
    (Pattern.optional body).Only lead kind :=
  only.either .empty

theorem Only.rounds {body : Pattern slot} (only : body.Only lead kind) :
    (Pattern.rounds body).Only lead kind := by
  have repeated : ∀ budget (spot later : Spot σ slot),
      later ∈ spotRepetitions (body.spots lead) budget spot →
      ∃ passed, spot.Passes passed later ∧ ∀ g ∈ passed, kind g := by
    intro budget
    induction budget with
    | zero =>
      intro spot later member
      obtain rfl := List.mem_singleton.1 member
      exact ⟨[], .nothing _, by simp⟩
    | succ budget ih =>
      intro spot later member
      rcases List.mem_append.1 member with more | here
      · obtain ⟨middle, round, rest⟩ := List.mem_flatMap.1 more
        obtain ⟨passed, passes, kinds⟩ := only spot middle round
        obtain ⟨more, onward, others⟩ := ih middle later rest
        refine ⟨passed ++ more, passes.trans onward, fun g inside => ?_⟩
        exact (List.mem_append.1 inside).elim (kinds g) (others g)
      · obtain rfl := List.mem_singleton.1 here
        exact ⟨[], .nothing _, by simp⟩
  exact fun spot later member => repeated _ spot later member

theorem Only.rounds1 {body : Pattern slot} (only : body.Only lead kind) :
    (Pattern.rounds1 body).Only lead kind :=
  only.seq only.rounds

theorem Only.capture (name : slot) {body : Pattern slot} (only : body.Only lead kind) :
    (Pattern.capture name body).Only lead kind := by
  intro spot later member
  obtain ⟨inner, inside, rfl⟩ := List.mem_map.1 member
  obtain ⟨passed, passes, kinds⟩ := only spot inner inside
  exact ⟨passed, ⟨passes.behind, passes.ahead⟩, kinds⟩

theorem Only.ahead (wanted : Bool) (body : Pattern slot) :
    (Pattern.ahead wanted body).Only lead kind := by
  intro spot later member
  simp only [spots] at member
  split at member
  · obtain rfl := List.mem_singleton.1 member
    exact ⟨[], .nothing _, by simp⟩
  · simp at member

theorem Only.place (holds : Cursor → Bool) :
    (Pattern.place holds : Pattern slot).Only lead kind := by
  intro spot later member
  simp only [spots] at member
  split at member
  · obtain rfl := List.mem_singleton.1 member
    exact ⟨[], .nothing _, by simp⟩
  · simp at member

theorem Only.sequence {patterns : List (Pattern slot)}
    (only : ∀ pattern ∈ patterns, pattern.Only lead kind) :
    (Pattern.sequence patterns).Only lead kind := by
  induction patterns with
  | nil => exact .empty
  | cons first rest ih =>
    have here := only first List.mem_cons_self
    have later := ih fun pattern member => only pattern (List.mem_cons_of_mem _ member)
    cases rest with
    | nil => exact here
    | cons second rest => exact here.seq later

theorem Only.choice {patterns : List (Pattern slot)}
    (only : ∀ pattern ∈ patterns, pattern.Only lead kind) :
    (Pattern.choice patterns).Only lead kind := by
  induction patterns with
  | nil => exact .one fun g fits => by cases g <;> simp [Glyph.fits] at fits
  | cons first rest ih =>
    have here := only first List.mem_cons_self
    have later := ih fun pattern member => only pattern (List.mem_cons_of_mem _ member)
    cases rest with
    | nil => exact here
    | cons second rest => exact here.either later

theorem Only.upTo {body : Pattern slot} (only : body.Only lead kind) (count : Nat) :
    (Pattern.upTo count body).Only lead kind := by
  induction count with
  | zero => exact .empty
  | succ count ih => exact (only.seq ih).optional

theorem Only.exactly {body : Pattern slot} (only : body.Only lead kind) (count : Nat) :
    (Pattern.exactly count body).Only lead kind := by
  induction count with
  | zero => exact .empty
  | succ count ih => exact only.seq ih

/-- Whatever the pattern captures on its way is good. -/
def Captures (lead : σ → Char) (good : slot → List (Glyph σ) → Prop) : Pattern slot → Prop
  | .seq first second => first.Captures lead good ∧ second.Captures lead good
  | .either first second => first.Captures lead good ∧ second.Captures lead good
  | .rounds body => body.Captures lead good
  | .capture name body => body.Captures lead good ∧
      ∀ spot, ∀ later ∈ body.spots lead spot, good name (spot.between later)
  | _ => True

variable {good : slot → List (Glyph σ) → Prop}

/-- What is captured on the way of a pattern that captures what is good. -/
theorem Captures.exists_new {pattern : Pattern slot} (captures : pattern.Captures lead good)
    {spot later : Spot σ slot} (member : later ∈ pattern.spots lead spot) :
    ∃ new, later.captures = new ++ spot.captures ∧
      ∀ capture ∈ new, good capture.1 capture.2 := by
  induction pattern generalizing spot later with
  | empty => exact ⟨[], List.mem_singleton.1 member ▸ rfl, by simp⟩
  | one accepts =>
    simp only [spots] at member
    split at member
    · simp at member
    · split at member
      · exact ⟨[], List.mem_singleton.1 member ▸ rfl, by simp⟩
      · simp at member
  | many accepts =>
    obtain ⟨_, _, _, same⟩ := exists_passes_of_mem_stops (List.mem_reverse.1 member)
    exact ⟨[], same, by simp⟩
  | few accepts =>
    obtain ⟨_, _, _, same⟩ := exists_passes_of_mem_stops member
    exact ⟨[], same, by simp⟩
  | seq first second early late =>
    obtain ⟨middle, inFirst, inSecond⟩ := List.mem_flatMap.1 member
    obtain ⟨new, begun, fine⟩ := early captures.1 inFirst
    obtain ⟨more, ended, others⟩ := late captures.2 inSecond
    refine ⟨more ++ new, by rw [ended, begun, List.append_assoc], fun capture inside => ?_⟩
    exact (List.mem_append.1 inside).elim (others capture) (fine capture)
  | either first second left right =>
    rcases List.mem_append.1 member with inFirst | inSecond
    · exact left captures.1 inFirst
    · exact right captures.2 inSecond
  | rounds body ih =>
    have repeated : ∀ budget (spot later : Spot σ slot),
        later ∈ spotRepetitions (body.spots lead) budget spot →
        ∃ new, later.captures = new ++ spot.captures ∧
          ∀ capture ∈ new, good capture.1 capture.2 := by
      intro budget
      induction budget with
      | zero =>
        intro spot later member
        exact ⟨[], List.mem_singleton.1 member ▸ rfl, by simp⟩
      | succ budget further =>
        intro spot later member
        rcases List.mem_append.1 member with more | here
        · obtain ⟨middle, round, rest⟩ := List.mem_flatMap.1 more
          obtain ⟨new, begun, fine⟩ := ih captures round
          obtain ⟨more, ended, others⟩ := further middle later rest
          refine ⟨more ++ new, by rw [ended, begun, List.append_assoc], fun capture inside => ?_⟩
          exact (List.mem_append.1 inside).elim (others capture) (fine capture)
        · exact ⟨[], List.mem_singleton.1 here ▸ rfl, by simp⟩
    exact repeated _ spot later member
  | capture name body ih =>
    obtain ⟨inner, found, rfl⟩ := List.mem_map.1 member
    obtain ⟨new, same, fine⟩ := ih captures.1 found
    refine ⟨(name, spot.between inner) :: new, by rw [same, List.cons_append], ?_⟩
    exact List.forall_mem_cons.2 ⟨captures.2 spot inner found, fine⟩
  | same name fold =>
    simp only [spots] at member
    split at member
    · simp at member
    · obtain ⟨_, _, same, _⟩ := exists_passes_of_past? (Option.mem_toList.1 member)
      exact ⟨[], same, by simp⟩
  | ahead wanted body ih =>
    simp only [spots] at member
    split at member
    · exact ⟨[], List.mem_singleton.1 member ▸ rfl, by simp⟩
    · simp at member
  | place holds =>
    simp only [spots] at member
    split at member
    · exact ⟨[], List.mem_singleton.1 member ▸ rfl, by simp⟩
    · simp at member

/-- Good captures stay good on the way of a pattern that captures what is good. -/
theorem Captures.of_mem {pattern : Pattern slot} (captures : pattern.Captures lead good)
    {spot later : Spot σ slot} (member : later ∈ pattern.spots lead spot)
    (begun : ∀ capture ∈ spot.captures, good capture.1 capture.2) :
    ∀ capture ∈ later.captures, good capture.1 capture.2 := by
  obtain ⟨new, same, fine⟩ := captures.exists_new member
  rw [same]
  exact List.forall_mem_append.2 ⟨fine, begun⟩

theorem Captures.get? {pattern : Pattern slot} (captures : pattern.Captures lead good)
    {glyphs : List (Glyph σ)} {f : Find σ slot} (finds : pattern.Finds lead glyphs f) {name : slot}
    {caught : List (Glyph σ)} (here : f.get? name = some caught) : good name caught := by
  refine captures.of_mem finds.mem (fun capture member => ?_) _ (Spot.mem_captures_of_get? here)
  rw [finds.fresh] at member
  exact absurd member List.not_mem_nil

end Markdown.Pattern
