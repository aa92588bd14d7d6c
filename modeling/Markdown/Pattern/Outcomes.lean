import Markdown.Pattern.Search

set_option autoImplicit false

namespace Markdown

namespace Cursor

/-- The later place is reached from the earlier one by passing the text. -/
structure Passes (start : Cursor) (passed : Text) (stop : Cursor) : Prop where
  offset : stop.offset = start.offset + passed.length
  before : stop.before = passed.reverse ++ start.before
  after : start.after = passed ++ stop.after

theorem Passes.nothing (cursor : Cursor) : cursor.Passes [] cursor :=
  ⟨rfl, rfl, rfl⟩

theorem Passes.trans {first middle last : Cursor} {early late : Text}
    (earlier : first.Passes early middle) (later : middle.Passes late last) :
    first.Passes (early ++ late) last where
  offset := by rw [later.offset, earlier.offset, List.length_append, Nat.add_assoc]
  before := by rw [later.before, earlier.before, List.reverse_append, List.append_assoc]
  after := by rw [earlier.after, later.after, List.append_assoc]

theorem Passes.cons {start stop : Cursor} {c : Char} {rest passed : Text}
    (next : start.after = c :: rest) (later : (start.past c rest).Passes passed stop) :
    start.Passes (c :: passed) stop := by
  have step : start.Passes [c] (start.past c rest) := ⟨rfl, rfl, by simp [past, next]⟩
  exact step.trans later

/-- What was passed is the text between the two places. -/
theorem Passes.upTo_eq {start stop : Cursor} {passed : Text} (passes : start.Passes passed stop) :
    start.upTo stop = passed := by
  simp [upTo, passes.offset, passes.after]

theorem reached_eq_append (accepts : Char → Bool) (found : List Cursor) (offset : Nat)
    (before text : Text) :
    reached accepts found offset before text = reached accepts [] offset before text ++ found := by
  induction text generalizing found offset before with
  | nil => rfl
  | cons c rest ih =>
    simp only [reached]
    split
    · rw [ih, ih [_], List.append_assoc]
      rfl
    · rfl

/-- The nearest stop is tried first. -/
theorem firstAlong_eq_findSome? {α : Type} (accepts : Char → Bool) (answer : Cursor → Option α)
    (offset : Nat) (before text : Text) :
    firstAlong accepts answer offset before text =
      (reached accepts [] offset before text).reverse.findSome? answer := by
  induction text generalizing offset before with
  | nil => simp [firstAlong, reached]
  | cons c rest ih =>
    simp only [firstAlong, reached]
    split
    · next found here =>
      split
      · rw [reached_eq_append, List.reverse_append, List.findSome?_append]
        simp [here]
      · simp [here]
    · next nowhere =>
      split
      · rw [ih, reached_eq_append accepts [_], List.reverse_append, List.findSome?_append]
        simp [nowhere]
      · simp [nowhere]

/-- Each stop of a run is reached by passing characters of the class. -/
theorem exists_passes_of_mem_stops {cursor stop : Cursor} {accepts : Char → Bool}
    (member : stop ∈ cursor.stops accepts) :
    ∃ passed, cursor.Passes passed stop ∧ ∀ c ∈ passed, accepts c := by
  obtain ⟨offset, before, text⟩ := cursor
  simp only [stops] at member
  induction text generalizing offset before with
  | nil =>
    obtain rfl : stop = ⟨offset, before, []⟩ := by simpa [reached] using member
    exact ⟨[], .nothing _, by simp⟩
  | cons c rest ih =>
    simp only [reached] at member
    split at member
    · next accepted =>
      rw [reached_eq_append] at member
      rcases List.mem_append.1 member with farther | here
      · obtain ⟨passed, passes, inClass⟩ := ih _ _ farther
        refine ⟨c :: passed, .cons rfl passes, fun d inside => ?_⟩
        rcases List.mem_cons.1 inside with rfl | inside
        · exact accepted
        · exact inClass d inside
      · obtain rfl := List.mem_singleton.1 here
        exact ⟨[], .nothing _, by simp⟩
    · obtain rfl := List.mem_singleton.1 member
      exact ⟨[], .nothing _, by simp⟩

/-- A text that stands here up to folding is passed as it is written here. -/
theorem exists_passes_of_past? {fold : Char → Char} {expected : Text} {start stop : Cursor}
    (found : past? fold expected start = some stop) :
    ∃ passed, start.Passes passed stop ∧ passed.map fold = expected.map fold := by
  induction expected generalizing start with
  | nil =>
    obtain rfl := Option.some.inj found
    exact ⟨[], .nothing _, rfl⟩
  | cons e more ih =>
    obtain ⟨offset, before, after⟩ := start
    cases after with
    | nil => simp [past?] at found
    | cons c rest =>
      simp only [past?] at found
      split at found
      · next same =>
        obtain ⟨passed, passes, folded⟩ := ih found
        exact ⟨c :: passed, .cons rfl passes, by simp [same, folded]⟩
      · simp at found

end Cursor

namespace Pattern

variable {slot : Type}

/-- The ends of a step repeated as often as possible and at most `budget` times, the most rounds
first. -/
def repetitions (step : Reading slot → List (Reading slot)) :
    Nat → Reading slot → List (Reading slot)
  | 0, reading => [reading]
  | budget + 1, reading => (step reading).flatMap (repetitions step budget) ++ [reading]

theorem findSome?_flatMap {α β γ : Type} (items : List α) (parts : α → List β)
    (answer : β → Option γ) :
    (items.flatMap parts).findSome? answer =
      items.findSome? fun item => (parts item).findSome? answer := by
  induction items with
  | nil => rfl
  | cons item rest ih =>
    rw [List.flatMap_cons, List.findSome?_append, List.findSome?_cons, ih]
    cases (parts item).findSome? answer <;> rfl

theorem repeated_eq_findSome? {step : Reading slot → Continuation slot → Option (Reading slot)}
    {ends : Reading slot → List (Reading slot)}
    (agree : ∀ reading next, step reading next = (ends reading).findSome? next)
    (budget : Nat) (reading : Reading slot) (next : Continuation slot) :
    repeated step budget reading next = (repetitions ends budget reading).findSome? next := by
  induction budget generalizing reading with
  | zero => simp [repeated, repetitions]
  | succ budget ih =>
    simp only [repeated, repetitions, agree, List.findSome?_append, findSome?_flatMap, ih]
    cases (ends reading).findSome? fun later => (repetitions ends budget later).findSome? next <;>
      simp

variable [DecidableEq slot]

/-- Every way in which a pattern matches at the place of a reading, those tried earlier first. -/
def outcomes : Pattern slot → Reading slot → List (Reading slot)
  | .empty, reading => [reading]
  | .one accepts, reading =>
    match reading.cursor.after with
    | [] => []
    | c :: rest =>
      if accepts c then [⟨reading.cursor.past c rest, reading.captures⟩] else []
  | .many accepts, reading =>
    (reading.cursor.stops accepts).map fun cursor => ⟨cursor, reading.captures⟩
  | .few accepts, reading =>
    (reading.cursor.stops accepts).reverse.map fun cursor => ⟨cursor, reading.captures⟩
  | .seq first second, reading => (first.outcomes reading).flatMap second.outcomes
  | .either first second, reading => first.outcomes reading ++ second.outcomes reading
  | .rounds body, reading => repetitions body.outcomes reading.cursor.after.length reading
  | .capture name body, reading =>
    (body.outcomes reading).map fun later =>
      ⟨later.cursor, (name, Thunk.mk fun _ => reading.cursor.upTo later.cursor) :: later.captures⟩
  | .same name fold, reading =>
    match reading.get? name with
    | none => []
    | some expected =>
      match Cursor.past? fold expected reading.cursor with
      | none => []
      | some cursor => [⟨cursor, reading.captures⟩]
  | .ahead wanted body, reading =>
    if (body.outcomes reading).head?.isSome = wanted then [reading] else []
  | .place holds, reading => if holds reading.cursor then [reading] else []

/-- A run finds the first outcome behind which the rest succeeds. -/
theorem run_eq_findSome? (pattern : Pattern slot) (reading : Reading slot)
    (next : Continuation slot) :
    pattern.run reading next = (pattern.outcomes reading).findSome? next := by
  induction pattern generalizing reading next with
  | empty => simp [run, outcomes]
  | one accepts =>
    simp only [run, outcomes]
    cases reading.cursor.after with
    | nil => rfl
    | cons c rest => by_cases accepted : accepts c <;> simp [accepted]
  | many accepts => simp [run, outcomes, List.findSome?_map, Function.comp_def]
  | few accepts =>
    rw [run, outcomes, Cursor.findStop?, Cursor.firstAlong_eq_findSome?, List.findSome?_map]
    rfl
  | seq first second first_ih second_ih =>
    simp only [run, outcomes, findSome?_flatMap, first_ih, second_ih]
  | either first second first_ih second_ih =>
    simp only [run, outcomes, List.findSome?_append, first_ih, second_ih]
    cases (first.outcomes reading).findSome? next <;> simp
  | rounds body ih => exact repeated_eq_findSome? ih _ reading next
  | capture name body ih => simp [run, outcomes, ih, List.findSome?_map, Function.comp_def]
  | same name fold =>
    simp only [run, outcomes]
    cases reading.get? name with
    | none => rfl
    | some expected =>
      cases stands : Cursor.past? fold expected reading.cursor <;> simp [stands]
  | ahead wanted body ih =>
    have first : body.run reading some = (body.outcomes reading).head? := by
      rw [ih]
      cases body.outcomes reading <;> simp
    simp only [run, outcomes, first]
    split <;> simp
  | place holds =>
    simp only [run, outcomes]
    split <;> simp

omit [DecidableEq slot] in
/-- The outcomes of a repetition lie ahead if those of a round do. -/
theorem exists_passes_of_mem_repetitions {ends : Reading slot → List (Reading slot)}
    (ahead : ∀ reading, ∀ later ∈ ends reading, ∃ passed, reading.cursor.Passes passed later.cursor)
    (budget : Nat) {reading later : Reading slot} (member : later ∈ repetitions ends budget reading) :
    ∃ passed, reading.cursor.Passes passed later.cursor := by
  induction budget generalizing reading with
  | zero =>
    obtain rfl := List.mem_singleton.1 member
    exact ⟨[], .nothing _⟩
  | succ budget ih =>
    rcases List.mem_append.1 member with more | here
    · obtain ⟨middle, round, rest⟩ := List.mem_flatMap.1 more
      obtain ⟨early, earlier⟩ := ahead reading middle round
      obtain ⟨late, onward⟩ := ih rest
      exact ⟨early ++ late, earlier.trans onward⟩
    · obtain rfl := List.mem_singleton.1 here
      exact ⟨[], .nothing _⟩

/-- Every outcome lies ahead of the place where it starts. -/
theorem exists_passes_of_mem_outcomes {pattern : Pattern slot} {reading later : Reading slot}
    (member : later ∈ pattern.outcomes reading) :
    ∃ passed, reading.cursor.Passes passed later.cursor := by
  induction pattern generalizing reading later with
  | empty =>
    obtain rfl := List.mem_singleton.1 member
    exact ⟨[], .nothing _⟩
  | one accepts =>
    simp only [outcomes] at member
    split at member
    · simp at member
    · next c rest next =>
      split at member
      · obtain rfl := List.mem_singleton.1 member
        exact ⟨[c], .cons next (.nothing _)⟩
      · simp at member
  | many accepts =>
    obtain ⟨stop, inside, rfl⟩ := List.mem_map.1 member
    obtain ⟨passed, passes, _⟩ := Cursor.exists_passes_of_mem_stops inside
    exact ⟨passed, passes⟩
  | few accepts =>
    obtain ⟨stop, inside, rfl⟩ := List.mem_map.1 member
    obtain ⟨passed, passes, _⟩ := Cursor.exists_passes_of_mem_stops (List.mem_reverse.1 inside)
    exact ⟨passed, passes⟩
  | seq first second first_ih second_ih =>
    obtain ⟨middle, early, late⟩ := List.mem_flatMap.1 member
    obtain ⟨passed, earlier⟩ := first_ih early
    obtain ⟨more, onward⟩ := second_ih late
    exact ⟨passed ++ more, earlier.trans onward⟩
  | either first second first_ih second_ih =>
    rcases List.mem_append.1 member with inFirst | inSecond
    · exact first_ih inFirst
    · exact second_ih inSecond
  | rounds body ih =>
    exact exists_passes_of_mem_repetitions (fun _ _ round => ih round) _ member
  | capture name body ih =>
    obtain ⟨inner, inside, rfl⟩ := List.mem_map.1 member
    obtain ⟨passed, passes⟩ := ih inside
    exact ⟨passed, passes⟩
  | same name fold =>
    simp only [outcomes] at member
    split at member
    · simp at member
    · split at member
      · simp at member
      · next found =>
        obtain rfl := List.mem_singleton.1 member
        obtain ⟨passed, passes, _⟩ := Cursor.exists_passes_of_past? found
        exact ⟨passed, passes⟩
  | ahead wanted body ih =>
    simp only [outcomes] at member
    split at member
    · obtain rfl := List.mem_singleton.1 member
      exact ⟨[], .nothing _⟩
    · simp at member
  | place holds =>
    simp only [outcomes] at member
    split at member
    · obtain rfl := List.mem_singleton.1 member
      exact ⟨[], .nothing _⟩
    · simp at member

/-- What a run finds lies ahead of the place where it starts. -/
theorem exists_passes_of_run {pattern : Pattern slot} {reading later : Reading slot}
    (found : pattern.run reading some = some later) :
    ∃ passed, reading.cursor.Passes passed later.cursor := by
  rw [run_eq_findSome?] at found
  obtain ⟨outcome, member, same⟩ := List.exists_of_findSome?_eq_some found
  obtain rfl := Option.some.inj same
  exact exists_passes_of_mem_outcomes member

theorem flatMap_text_segmentsFrom (pattern : Pattern slot) (budget : Nat) (cursor : Cursor) :
    (pattern.segmentsFrom budget cursor).flatMap Segment.text = cursor.after := by
  induction budget generalizing cursor with
  | zero => simp [segmentsFrom, List.flatMap_map, Segment.text, Segment.replaced]
  | succ budget ih =>
    simp only [segmentsFrom]
    split
    · next finished => simp [finished]
    · next c rest next =>
      split
      · next stop found =>
        obtain ⟨passed, passes⟩ := exists_passes_of_run found
        rw [List.flatMap_cons, ih]
        simp only [Segment.text, Segment.replaced, Match.text, passes.upTo_eq]
        exact passes.after.symm
      · rw [List.flatMap_cons, ih]
        simp [Segment.text, Segment.replaced, Cursor.past, next]

/-- The pieces of a search make up the text. -/
theorem flatMap_text_segments (pattern : Pattern slot) (text : Text) :
    (pattern.segments text).flatMap Segment.text = text :=
  flatMap_text_segmentsFrom pattern text.length (.first text)

theorem infix_of_mem_segments {pattern : Pattern slot} {text : Text} {found : Match slot}
    (member : .found found ∈ pattern.segments text) : found.text <:+: text := by
  rw [← pattern.flatMap_text_segments text]
  exact List.infix_of_mem_flatten (List.mem_map_of_mem member)

end Pattern

end Markdown
