import Markdown.Proofs.Ending.Outcomes

set_option autoImplicit false

namespace Markdown

/-- A text that is empty or ends in a newline. -/
def Text.Ended (text : Text) : Prop :=
  ∀ c ∈ text.getLast?, c = '\n'

theorem Text.ended_append_newline (text : Text) : Text.Ended (text ++ ['\n']) := by
  simp [Text.Ended]

theorem Text.Ended.of_append {first second : Text} (ended : Text.Ended (first ++ second)) :
    second.Ended := by
  intro c last
  refine ended c ?_
  rw [List.getLast?_append, Option.mem_def.1 last]
  rfl

theorem Text.Ended.exists_eq {text : Text} (ended : text.Ended) :
    text = [] ∨ ∃ front, text = front ++ ['\n'] := by
  rcases List.eq_nil_or_concat text with rfl | ⟨front, c, rfl⟩
  · exact .inl rfl
  · refine .inr ⟨front, ?_⟩
    rw [List.concat_eq_append, ended c (by simp)]

namespace Cursor

/-- The text that the place is in. -/
def whole (cursor : Cursor) : Text :=
  cursor.before.reverse ++ cursor.after

theorem Passes.whole_eq {start stop : Cursor} {passed : Text}
    (passes : start.Passes passed stop) : stop.whole = start.whole := by
  simp [whole, passes.before, passes.after]

/-- Within a line the text goes on, if it ends in a newline. -/
theorem after_ne_nil_of_follows {cursor : Cursor} (ended : cursor.whole.Ended)
    (within : cursor.follows Pattern.inLine = true) : cursor.after ≠ [] := by
  intro none
  obtain ⟨offset, before, after⟩ := cursor
  obtain rfl : after = [] := none
  cases before with
  | nil => cases within
  | cons c rest =>
    obtain rfl : c = '\n' := ended c (by simp [whole])
    cases within

/-- A run that takes newlines leaves something at each of its stops, or it takes all that is left
with one more newline there and without it. -/
theorem stops_extended_cases {accepts : Char → Bool} (newline : accepts '\n' = true)
    (cursor : Cursor) :
    (cursor.extended.stops accepts = (cursor.stops accepts).map extended ∧
      ∀ stop ∈ cursor.stops accepts, stop.after ≠ []) ∨
    ∃ first others second more, cursor.stops accepts = first :: others ∧
      cursor.extended.stops accepts = second :: more ∧ first.after = [] ∧ second.after = [] := by
  obtain ⟨offset, before, text⟩ := cursor
  simp only [stops, extended]
  induction text generalizing offset before with
  | nil => exact .inr ⟨_, _, _, _, rfl, by simp [reached, newline]; exact ⟨rfl, rfl⟩, rfl, rfl⟩
  | cons c rest ih =>
    simp only [List.cons_append, reached]
    split
    · rw [reached_eq_append, reached_eq_append accepts [⟨offset, before, c :: rest⟩]]
      rcases ih (offset + 1) (c :: before) with
        ⟨same, inside⟩ | ⟨first, others, second, more, short, long, here, there⟩
      · refine .inl ⟨by rw [same, List.map_append]; rfl, fun stop member => ?_⟩
        rcases List.mem_append.1 member with farther | here
        · exact inside stop farther
        · rw [List.mem_singleton.1 here]
          exact List.cons_ne_nil c rest
      · exact .inr ⟨_, _, _, _, by rw [short]; rfl, by rw [long]; rfl, here, there⟩
    · refine .inl ⟨rfl, fun stop member => ?_⟩
      rw [List.mem_singleton.1 member]
      exact List.cons_ne_nil c rest

end Cursor

variable {slot : Type} [DecidableEq slot]

/-- The text caught last hides what its slot held before. -/
theorem Reading.get?_cons (cursor : Cursor) (name wanted : slot) (text : Text)
    (captures : List (slot × Thunk Text)) :
    Reading.get? ⟨cursor, (name, Thunk.mk fun _ => text) :: captures⟩ wanted =
      if name = wanted then some text else Reading.get? ⟨cursor, captures⟩ wanted := by
  by_cases same : name = wanted
  · rw [if_pos same, Reading.get?, List.find?_cons_of_pos (by simpa using same)]
    rfl
  · rw [if_neg same, Reading.get?, List.find?_cons_of_neg (by simpa using same)]
    rfl

/-- Both places leave something of the text and are the same but for the one more newline at its
end, or neither leaves anything. In the second case a text caught under certain slots has the one
newline more. -/
inductive Reading.Alike (grows : slot → Prop) (first second : Reading slot) : Prop
  | inside (more : first.cursor.after ≠ []) (same : second = first.extended)
  | ended (here : first.cursor.after = []) (there : second.cursor.after = [])
      (caught : ∀ name, second.get? name = first.get? name ∨
        grows name ∧ ∃ text : Text, text ≠ [] ∧ text.Ended ∧ first.get? name = some text ∧
          second.get? name = some (text ++ ['\n']))

namespace Pattern

/-- The first outcome is alike, or there is none, with one more newline at the end of the text. -/
def Ends (grows : slot → Prop) (pattern : Pattern slot) (reading : Reading slot) : Prop :=
  Option.Rel (Reading.Alike grows) (pattern.outcomes reading).head?
    (pattern.outcomes reading.extended).head?

variable {grows : slot → Prop} {first second body : Pattern slot} {reading later : Reading slot}

theorem whole_of_mem_outcomes (member : later ∈ first.outcomes reading) :
    later.cursor.whole = reading.cursor.whole := by
  obtain ⟨passed, passes⟩ := exists_passes_of_mem_outcomes member
  exact passes.whole_eq

theorem ended_of_mem_outcomes (ended : reading.cursor.whole.Ended)
    (member : later ∈ first.outcomes reading) : later.cursor.whole.Ended :=
  whole_of_mem_outcomes member ▸ ended

/-- A pattern that stops in a line leaves the newline at the end of the text. -/
theorem after_ne_nil_of_stopsInLine (stops : first.stopsInLine = true)
    (ended : reading.cursor.whole.Ended) (more : reading.cursor.after ≠ [])
    (member : later ∈ first.outcomes reading) : later.cursor.after ≠ [] := by
  rcases cursor_of_stopsInLine stops member with same | within
  · rwa [same]
  · exact Cursor.after_ne_nil_of_follows (ended_of_mem_outcomes ended member) within

theorem after_ne_nil_of_takesSome (takes : first.takesSome = true)
    (member : later ∈ first.outcomes reading) : reading.cursor.after ≠ [] := by
  intro none
  rw [outcomes_eq_nil takes none] at member
  cases member

theorem blindAt_one (accepts : Char → Bool) (more : reading.cursor.after ≠ []) :
    (Pattern.one accepts).BlindAt reading := by
  obtain ⟨⟨offset, before, after⟩, captures⟩ := reading
  cases after with
  | nil => exact absurd rfl more
  | cons c rest =>
    simp only [BlindAt, Reading.extended, Cursor.extended, List.cons_append, outcomes]
    split <;> rfl

theorem BlindAt.seq (early : first.BlindAt reading)
    (late : ∀ middle ∈ first.outcomes reading, second.BlindAt middle) :
    (first.seq second).BlindAt reading := by
  rw [BlindAt, outcomes, outcomes, early, List.flatMap_map, List.map_flatMap]
  exact List.flatMap_congr late

theorem BlindAt.either (inFirst : first.BlindAt reading) (inSecond : second.BlindAt reading) :
    (first.either second).BlindAt reading := by
  rw [BlindAt, outcomes, outcomes, inFirst, inSecond, List.map_append]

theorem blindAt_place {holds : Cursor → Bool}
    (same : holds reading.cursor.extended = holds reading.cursor) :
    (Pattern.place holds).BlindAt reading := by
  simp only [BlindAt, outcomes, Reading.extended, same]
  split <;> rfl

/-- Where the text goes on it goes on with one more newline too. -/
theorem blindAt_textEnd (more : reading.cursor.after ≠ []) :
    (Pattern.textEnd : Pattern slot).BlindAt reading := by
  obtain ⟨⟨offset, before, after⟩, captures⟩ := reading
  cases after with
  | nil => exact absurd rfl more
  | cons c rest => exact blindAt_place rfl

theorem BlindAt.rounds (takes : body.takesSome = true) (ended : reading.cursor.whole.Ended)
    (each : ∀ reading : Reading slot, reading.cursor.whole.Ended → body.BlindAt reading) :
    (Pattern.rounds body).BlindAt reading := by
  have step : ∀ (budget : Nat) (reading : Reading slot), reading.cursor.whole.Ended →
      repetitions body.outcomes budget reading.extended =
        (repetitions body.outcomes budget reading).map Reading.extended := by
    intro budget
    induction budget with
    | zero => exact fun _ _ => rfl
    | succ budget ih =>
      intro reading ended
      rw [repetitions, repetitions, each reading ended, List.flatMap_map, List.map_append,
        List.map_flatMap]
      refine congrArg (· ++ _) (List.flatMap_congr fun middle member => ?_)
      exact ih middle (ended_of_mem_outcomes ended member)
  have enough := step (reading.cursor.after.length + 1) reading ended
  rw [repetitions_eq_of_le (fun _ _ => length_after_lt takes) (Nat.le_succ _) (Nat.le_refl _)]
    at enough
  rw [BlindAt, outcomes, outcomes, ← enough]
  simp [Reading.extended, Cursor.extended]

theorem BlindAt.ends (blind : first.BlindAt reading)
    (more : ∀ later ∈ first.outcomes reading, later.cursor.after ≠ []) :
    first.Ends grows reading := by
  rw [Ends, blind, List.head?_map]
  cases tried : (first.outcomes reading).head? with
  | none => exact .none
  | some later => exact .some (.inside (more later (List.mem_of_mem_head? tried)) rfl)

omit [DecidableEq slot] in
theorem rel_head?_flatMap {related : Reading slot → Reading slot → Prop}
    {found : List (Reading slot)} {rest : Reading slot → List (Reading slot)}
    (each : ∀ middle ∈ found,
      Option.Rel related (rest middle).head? (rest middle.extended).head?) :
    Option.Rel related (found.flatMap rest).head?
      ((found.map Reading.extended).flatMap rest).head? := by
  induction found with
  | nil => exact .none
  | cons middle others ih =>
    obtain ⟨here, later⟩ := List.forall_mem_cons.1 each
    rw [List.map_cons, List.flatMap_cons, List.flatMap_cons, List.head?_append, List.head?_append]
    generalize (rest middle).head? = one at here
    generalize (rest middle.extended).head? = other at here
    cases here with
    | none => exact ih later
    | some alike => exact .some alike

theorem BlindAt.seq_ends (early : first.BlindAt reading)
    (late : ∀ middle ∈ first.outcomes reading, second.Ends grows middle) :
    (first.seq second).Ends grows reading := by
  rw [Ends, outcomes, outcomes, early]
  exact rel_head?_flatMap late

/-- What a blind pattern takes may reach the end of the text if something must be taken behind. -/
theorem Blind.seq_ends (blind : first.Blind) (takes : second.takesSome = true)
    (late : ∀ middle ∈ first.outcomes reading, second.Ends grows middle) :
    (first.seq second).Ends grows reading := by
  have skipped : (first.outcomes reading.extended).flatMap second.outcomes =
      ((first.outcomes reading).map Reading.extended).flatMap second.outcomes := by
    rw [← blind.filter_outcomes]
    induction first.outcomes reading.extended with
    | nil => rfl
    | cons middle others ih =>
      rw [List.flatMap_cons, ih, List.filter_cons]
      split
      · rfl
      · next outside =>
        rw [Reading.isInside_iff, not_not] at outside
        rw [outcomes_eq_nil takes outside, List.nil_append]
  rw [Ends, outcomes, outcomes, skipped]
  exact rel_head?_flatMap late

theorem Ends.either (inFirst : first.Ends grows reading) (inSecond : second.Ends grows reading) :
    (first.either second).Ends grows reading := by
  rw [Ends, outcomes, outcomes, List.head?_append, List.head?_append]
  rw [Ends] at inFirst
  generalize (first.outcomes reading).head? = one at inFirst
  generalize (first.outcomes reading.extended).head? = other at inFirst
  cases inFirst with
  | none => exact inSecond
  | some alike => exact .some alike

/-- The text caught by the pattern may have the one newline more. -/
theorem Ends.capture {name : slot} (known : grows name) (ended : reading.cursor.whole.Ended)
    (takes : body.takesSome = true) (ends : body.Ends grows reading) :
    (body.capture name).Ends grows reading := by
  have onward : ∀ start : Reading slot, ∀ later ∈ (body.outcomes start).head?,
      ∃ passed, start.cursor.Passes passed later.cursor :=
    fun start later tried => exists_passes_of_mem_outcomes (List.mem_of_mem_head? tried)
  have earlier := onward reading
  have longer := onward reading.extended
  have more : (body.outcomes reading).head? ≠ none → reading.cursor.after ≠ [] := by
    intro some none
    exact some (by rw [outcomes_eq_nil takes none]; rfl)
  rw [Ends] at ends
  rw [Ends, outcomes, outcomes, List.head?_map, List.head?_map]
  generalize (body.outcomes reading).head? = one at ends earlier more
  generalize (body.outcomes reading.extended).head? = other at ends longer
  cases ends with
  | none => exact .none
  | @some early late alike =>
    obtain ⟨passed, passes⟩ := earlier early rfl
    obtain ⟨also, further⟩ := longer late rfl
    refine .some ?_
    cases alike with
    | inside left same =>
      subst same
      have same : reading.extended.cursor.upTo early.extended.cursor =
          reading.cursor.upTo early.cursor := passes.extended.upTo_eq.trans passes.upTo_eq.symm
      refine .inside left ?_
      simp only [same]
      rfl
    | ended here there caught =>
      refine .ended here there fun wanted => ?_
      have short := passes.after
      have long := further.after
      rw [here, List.append_nil] at short
      rw [there, List.append_nil] at long
      rw [Reading.get?_cons, Reading.get?_cons, passes.upTo_eq, further.upTo_eq, ← short, ← long]
      split
      · refine .inr ⟨by rwa [← ‹name = wanted›], reading.cursor.after, more (by simp), ?_, rfl, rfl⟩
        exact Text.Ended.of_append ended
      · exact caught wanted

/-- A sequence may be cut in two. -/
theorem outcomes_sequence_append {front back : List (Pattern slot)} (some : front ≠ [])
    (more : back ≠ []) (reading : Reading slot) :
    (sequence (front ++ back)).outcomes reading =
      ((sequence front).seq (sequence back)).outcomes reading := by
  induction front generalizing reading with
  | nil => exact absurd rfl some
  | cons first rest ih =>
    cases rest with
    | nil =>
      cases back with
      | nil => exact absurd rfl more
      | cons second others => rfl
    | cons second others =>
      change (first.seq (sequence (second :: others ++ back))).outcomes reading =
        ((first.seq (sequence (second :: others))).seq (sequence back)).outcomes reading
      rw [outcomes, outcomes, outcomes, List.flatMap_assoc]
      exact List.flatMap_congr fun middle _ => ih (List.cons_ne_nil second others) middle

theorem outcomes_sequence_cut (count : Nat) {patterns : List (Pattern slot)}
    (within : 0 < count ∧ count < patterns.length) (reading : Reading slot) :
    (sequence patterns).outcomes reading =
      ((sequence (patterns.take count)).seq (sequence (patterns.drop count))).outcomes reading := by
  have some : patterns.take count ≠ [] := List.ne_nil_of_length_pos (by simp; omega)
  have more : patterns.drop count ≠ [] := List.ne_nil_of_length_pos (by simp; omega)
  rw [← outcomes_sequence_append some more, List.take_append_drop]

/-- A sequence ends alike if it is blind up to a place and ends alike from there on. -/
theorem ends_sequence (count : Nat) {patterns : List (Pattern slot)}
    (within : 0 < count ∧ count < patterns.length)
    (early : (sequence (patterns.take count)).BlindAt reading)
    (late : ∀ middle ∈ (sequence (patterns.take count)).outcomes reading,
      (sequence (patterns.drop count)).Ends grows middle) :
    (sequence patterns).Ends grows reading := by
  rw [Ends, outcomes_sequence_cut count within, outcomes_sequence_cut count within]
  exact early.seq_ends late

theorem blindAt_sequence (count : Nat) {patterns : List (Pattern slot)}
    (within : 0 < count ∧ count < patterns.length)
    (early : (sequence (patterns.take count)).BlindAt reading)
    (late : ∀ middle ∈ (sequence (patterns.take count)).outcomes reading,
      (sequence (patterns.drop count)).BlindAt middle) :
    (sequence patterns).BlindAt reading := by
  rw [BlindAt, outcomes_sequence_cut count within, outcomes_sequence_cut count within]
  exact early.seq late

theorem ends_many {accepts : Char → Bool} (newline : accepts '\n' = true)
    (reading : Reading slot) : (Pattern.many accepts).Ends grows reading := by
  rw [Ends, outcomes, outcomes, List.head?_map, List.head?_map]
  rcases reading.cursor.stops_extended_cases newline with
    ⟨same, inside⟩ | ⟨first, others, second, more, short, long, here, there⟩
  · rw [show reading.extended.cursor = reading.cursor.extended from rfl, same, List.head?_map]
    cases tried : (reading.cursor.stops accepts).head? with
    | none => exact .none
    | some stop => exact .some (.inside (inside stop (List.mem_of_mem_head? tried)) rfl)
  · rw [show reading.extended.cursor = reading.cursor.extended from rfl, short, long]
    exact .some (.ended here there fun _ => .inl rfl)

theorem ends_many_textEnd {accepts : Char → Bool} (newline : accepts '\n' = true)
    (reading : Reading slot) : ((Pattern.many accepts).seq .textEnd).Ends grows reading := by
  have kept : ∀ (cursor : Cursor) (captures : List (slot × Thunk Text)),
      (textEnd : Pattern slot).outcomes ⟨cursor, captures⟩ =
        if cursor.after = [] then [⟨cursor, captures⟩] else [] := by
    intro cursor captures
    simp [textEnd, outcomes, Cursor.atTextEnd]
  rw [Ends, outcomes, outcomes, outcomes, outcomes, List.flatMap_map, List.flatMap_map]
  simp only [kept]
  rcases reading.cursor.stops_extended_cases newline with
    ⟨same, inside⟩ | ⟨first, others, second, more, short, long, here, there⟩
  · rw [show reading.extended.cursor = reading.cursor.extended from rfl, same, List.flatMap_map,
      List.flatMap_eq_nil_iff.2 fun stop member => if_neg (inside stop member),
      List.flatMap_eq_nil_iff.2 fun stop _ => if_neg stop.after_extended_ne_nil]
    exact .none
  · rw [show reading.extended.cursor = reading.cursor.extended from rfl, short, long,
      List.flatMap_cons, List.flatMap_cons, if_pos here, if_pos there]
    exact .some (.ended here there fun _ => .inl rfl)

theorem ends_many1_or_textEnd {accepts : Char → Bool} (newline : accepts '\n' = true)
    (reading : Reading slot) :
    (Pattern.choice [.many1 accepts, .textEnd]).Ends grows reading := by
  obtain ⟨⟨offset, before, after⟩, captures⟩ := reading
  cases after with
  | nil =>
    simp only [Ends, choice, many1, textEnd, outcomes, Reading.extended, Cursor.extended,
      List.nil_append, newline, Cursor.past, Cursor.atTextEnd, Cursor.stops]
    exact .some (.ended rfl rfl fun _ => .inl rfl)
  | cons c rest =>
    have more : (c :: rest) ≠ [] := List.cons_ne_nil c rest
    refine Ends.either ((blindAt_one accepts more).seq_ends fun _ _ => ends_many newline _) ?_
    refine BlindAt.ends (blindAt_place rfl) fun later member => ?_
    cases member

omit [DecidableEq slot] in
theorem repetitions_ne_nil (step : Reading slot → List (Reading slot)) (budget : Nat)
    (reading : Reading slot) : repetitions step budget reading ≠ [] := by
  cases budget <;> simp [repetitions]

/-- An eager repetition goes on from the first outcome of a round. -/
theorem head?_outcomes_rounds (takes : body.takesSome = true) (reading : Reading slot) :
    ((Pattern.rounds body).outcomes reading).head? =
      match (body.outcomes reading).head? with
      | some middle => ((Pattern.rounds body).outcomes middle).head?
      | none => some reading := by
  rw [outcomes]
  cases rest : reading.cursor.after with
  | nil =>
    rw [outcomes_eq_nil takes rest]
    rfl
  | cons c text =>
    rw [List.length_cons, repetitions]
    cases tried : body.outcomes reading with
    | nil => rfl
    | cons middle others =>
      have shorter := length_after_lt takes (tried ▸ List.mem_cons_self)
      rw [rest, List.length_cons] at shorter
      rw [List.flatMap_cons, List.append_assoc, List.head?_append_of_ne_nil _
        (repetitions_ne_nil _ _ _), repetitions_eq_of_le (fun _ _ => length_after_lt takes)
        (Nat.le_of_lt_succ shorter) (Nat.le_refl _)]
      rfl

theorem rel_rounds_of_alike (takes : body.takesSome = true) {early late : Reading slot}
    (alike : early.Alike grows late)
    (onward : early.cursor.after ≠ [] → (Pattern.rounds body).Ends grows early) :
    Option.Rel (Reading.Alike grows) ((Pattern.rounds body).outcomes early).head?
      ((Pattern.rounds body).outcomes late).head? := by
  cases alike with
  | inside more same =>
    subst same
    exact onward more
  | ended here there caught =>
    rw [head?_outcomes_rounds takes, head?_outcomes_rounds takes, outcomes_eq_nil takes here,
      outcomes_eq_nil takes there]
    exact .some (.ended here there caught)

theorem ends_rounds (takes : body.takesSome = true)
    (each : ∀ reading : Reading slot, reading.cursor.whole.Ended → body.Ends grows reading)
    (ended : reading.cursor.whole.Ended) (more : reading.cursor.after ≠ []) :
    (Pattern.rounds body).Ends grows reading := by
  induction room : reading.cursor.after.length using Nat.strongRecOn generalizing reading with
  | ind size ih =>
    have shorter : ∀ later ∈ (body.outcomes reading).head?,
        later.cursor.after.length < size ∧ later.cursor.whole.Ended := fun later tried =>
      have member := List.mem_of_mem_head? tried
      ⟨room ▸ length_after_lt takes member, ended_of_mem_outcomes ended member⟩
    have round := each reading ended
    rw [Ends] at round
    rw [Ends, head?_outcomes_rounds takes, head?_outcomes_rounds takes]
    generalize (body.outcomes reading).head? = one at round shorter
    generalize (body.outcomes reading.extended).head? = other at round
    cases round with
    | none => exact .some (.inside more rfl)
    | @some early late alike =>
      obtain ⟨less, goes⟩ := shorter early rfl
      exact rel_rounds_of_alike takes alike fun left => ih _ less goes left rfl

/-- Rounds that end alike make up a repetition that does. -/
theorem ends_rounds1 (takes : body.takesSome = true)
    (each : ∀ reading : Reading slot, reading.cursor.whole.Ended → body.Ends grows reading)
    (ended : reading.cursor.whole.Ended) : (Pattern.rounds1 body).Ends grows reading := by
  have first : ∀ start : Reading slot, ((Pattern.rounds1 body).outcomes start).head? =
      (body.outcomes start).head?.bind fun middle =>
        ((Pattern.rounds body).outcomes middle).head? := by
    intro start
    rw [rounds1, outcomes]
    cases body.outcomes start with
    | nil => rfl
    | cons middle others =>
      rw [List.flatMap_cons]
      exact List.head?_append_of_ne_nil _ (repetitions_ne_nil _ _ _)
  have goes : ∀ later ∈ (body.outcomes reading).head?, later.cursor.whole.Ended :=
    fun later tried => ended_of_mem_outcomes ended (List.mem_of_mem_head? tried)
  have round := each reading ended
  rw [Ends] at round
  rw [Ends, first, first]
  generalize (body.outcomes reading).head? = one at round goes
  generalize (body.outcomes reading.extended).head? = other at round
  cases round with
  | none => exact .none
  | @some early late alike =>
    exact rel_rounds_of_alike takes alike (ends_rounds takes each (goes early rfl))

theorem outcomes_few_seq (accepts : Char → Bool) (second : Pattern slot) (reading : Reading slot) :
    ((Pattern.few accepts).seq second).outcomes reading =
      second.outcomes reading ++
        match reading.cursor.after with
        | [] => []
        | c :: rest =>
          if accepts c then
            ((Pattern.few accepts).seq second).outcomes
              ⟨reading.cursor.past c rest, reading.captures⟩
          else [] := by
  obtain ⟨⟨offset, before, after⟩, captures⟩ := reading
  cases after with
  | nil => simp [outcomes, Cursor.stops, Cursor.reached]
  | cons c rest =>
    simp only [outcomes, Cursor.stops, Cursor.reached, Cursor.past]
    split
    · rw [Cursor.reached_eq_append, List.reverse_append]
      rfl
    · simp

/-- A shortest run goes on only where the rest fails, and so never past the end of the text. -/
theorem ends_few_seq {accepts : Char → Bool}
    (each : ∀ reading : Reading slot, reading.cursor.whole.Ended → second.Ends grows reading)
    (atEnd : ∀ reading : Reading slot, reading.cursor.after = [] → second.outcomes reading ≠ [])
    (ended : reading.cursor.whole.Ended) :
    ((Pattern.few accepts).seq second).Ends grows reading := by
  induction text : reading.cursor.after generalizing reading with
  | nil =>
    have here := each _ ended
    have found := atEnd reading text
    rw [Ends] at here ⊢
    rw [outcomes_few_seq, outcomes_few_seq, List.head?_append, List.head?_append]
    cases tried : second.outcomes reading with
    | nil => exact absurd tried found
    | cons early others =>
      rw [tried] at here
      generalize (second.outcomes reading.extended).head? = other at here
      cases here with
      | some alike => exact .some alike
  | cons c rest ih =>
    have here := each _ ended
    have step : reading.cursor.Passes [c] (reading.cursor.past c rest) := .cons text (.nothing _)
    have next := @ih ⟨reading.cursor.past c rest, reading.captures⟩ (step.whole_eq ▸ ended) rfl
    rw [Ends] at here next ⊢
    rw [outcomes_few_seq, outcomes_few_seq, List.head?_append, List.head?_append]
    generalize (second.outcomes reading).head? = one at here
    generalize (second.outcomes reading.extended).head? = other at here
    cases here with
    | some alike => exact .some alike
    | none =>
      simp only [Reading.extended, Cursor.extended, text, List.cons_append, Option.none_or]
      split
      · exact next
      · exact .none

theorem ends_few1_seq {accepts : Char → Bool}
    (each : ∀ reading : Reading slot, reading.cursor.whole.Ended → second.Ends grows reading)
    (atEnd : ∀ reading : Reading slot, reading.cursor.after = [] → second.outcomes reading ≠ [])
    (ended : reading.cursor.whole.Ended) (more : reading.cursor.after ≠ []) :
    ((Pattern.few1 accepts).seq second).Ends grows reading := by
  have regrouped : ∀ start : Reading slot, ((Pattern.few1 accepts).seq second).outcomes start =
      ((Pattern.one accepts).seq ((Pattern.few accepts).seq second)).outcomes start :=
    fun start => List.flatMap_assoc
  rw [Ends, regrouped, regrouped]
  exact (blindAt_one accepts more).seq_ends fun next member =>
    ends_few_seq each atEnd (ended_of_mem_outcomes ended member)

end Pattern

end Markdown
