import Markdown.Proofs.Pattern.Leads

set_option autoImplicit false

namespace Markdown

/-- The same place in the text with one more newline at its end. -/
def Cursor.extended (cursor : Cursor) : Cursor :=
  { cursor with after := cursor.after ++ ['\n'] }

namespace Cursor

theorem after_extended_ne_nil (cursor : Cursor) : cursor.extended.after ≠ [] :=
  List.append_ne_nil_of_right_ne_nil _ (by decide)

theorem Passes.extended {start stop : Cursor} {passed : Text} (passes : start.Passes passed stop) :
    start.extended.Passes passed stop.extended where
  offset := passes.offset
  before := passes.before
  after := by simp [Cursor.extended, passes.after]

theorem Passes.eq_of_nil {start stop : Cursor} (passes : start.Passes [] stop) : stop = start := by
  obtain ⟨offset, before, after⟩ := passes
  cases start
  cases stop
  simp_all

/-- What was passed ends at the later place. -/
theorem Passes.follows {start stop : Cursor} {passed : Text} (passes : start.Passes passed stop)
    {accepts : Char → Bool} (inClass : ∀ c ∈ passed, accepts c = true) :
    stop = start ∨ stop.follows accepts = true := by
  cases final : passed.reverse with
  | nil =>
    obtain rfl := List.reverse_eq_nil_iff.1 final
    exact .inl passes.eq_of_nil
  | cons c others =>
    refine .inr ?_
    rw [Cursor.follows, passes.before, final]
    exact inClass c (List.mem_reverse.1 (final ▸ List.mem_cons_self))

/-- A run of a class makes the same stops before the end of the text. -/
theorem filter_stops_extended (cursor : Cursor) (accepts : Char → Bool) :
    (cursor.extended.stops accepts).filter (!·.atTextEnd) =
      (cursor.stops accepts).map extended := by
  obtain ⟨offset, before, text⟩ := cursor
  simp only [stops, extended]
  induction text generalizing offset before with
  | nil => by_cases taken : accepts '\n' = true <;> simp [reached, taken, atTextEnd, extended]
  | cons c rest ih =>
    simp only [List.cons_append, reached]
    split
    · rw [reached_eq_append, List.filter_append, ih, reached_eq_append accepts [_], List.map_append]
      rfl
    · rfl

/-- A text stands here with one more newline at the end if it stands here without it or is the whole
rest of the text. -/
theorem past?_extended (fold : Char → Char) (expected : Text) (cursor : Cursor) :
    (past? fold expected cursor.extended).toList.filter (!·.atTextEnd) =
      ((past? fold expected cursor).map extended).toList := by
  induction expected generalizing cursor with
  | nil => simp [past?, extended, atTextEnd]
  | cons e more ih =>
    obtain ⟨offset, before, after⟩ := cursor
    cases after with
    | nil =>
      simp only [extended, List.nil_append, past?]
      split
      · cases more <;> simp [past?, atTextEnd]
      · rfl
    | cons c rest =>
      have next := ih ⟨offset + 1, c :: before, rest⟩
      simp only [extended, List.cons_append, past?] at next ⊢
      split
      · exact next
      · rfl

end Cursor

variable {slot : Type}

/-- The same reading in the text with one more newline at its end. -/
def Reading.extended (reading : Reading slot) : Reading slot :=
  { reading with cursor := reading.cursor.extended }

def Reading.isInside (reading : Reading slot) : Bool :=
  !reading.cursor.atTextEnd

theorem Reading.isInside_iff {reading : Reading slot} :
    reading.isInside = true ↔ reading.cursor.after ≠ [] := by
  simp [isInside, Cursor.atTextEnd]

theorem Reading.isInside_extended (reading : Reading slot) : reading.extended.isInside = true :=
  isInside_iff.2 reading.cursor.after_extended_ne_nil

namespace Pattern

/-- Every match of the pattern takes at least one character. -/
def takesSome : Pattern slot → Bool
  | .one _ => true
  | .seq first second => first.takesSome || second.takesSome
  | .either first second => first.takesSome && second.takesSome
  | .capture _ body => body.takesSome
  | _ => false

/-- What a match of the pattern takes does not end in a newline. -/
def stopsInLine : Pattern slot → Bool
  | .one accepts | .many accepts | .few accepts => !accepts '\n'
  | .seq first second => second.stopsInLine && (second.takesSome || first.stopsInLine)
  | .either first second => first.stopsInLine && second.stopsInLine
  | .rounds body | .capture _ body => body.stopsInLine
  | .same _ _ => false
  | .empty | .ahead _ _ | .place _ => true

/-- The pattern never looks at the end of the text: one more newline there is nothing to it. -/
def Blind : Pattern slot → Prop
  | .seq first second | .either first second => first.Blind ∧ second.Blind
  | .rounds body => body.Blind ∧ body.takesSome = true
  | .capture _ body => body.Blind
  | .ahead _ body => body.Blind ∧ body.stopsInLine = true
  | .place holds => ∀ cursor : Cursor, holds cursor.extended = holds cursor
  | _ => True

section

variable {first second body : Pattern slot} {rest : List (Pattern slot)} (accepts : Char → Bool)

@[simp] theorem blind_one : (Pattern.one accepts : Pattern slot).Blind := trivial

@[simp] theorem blind_many : (Pattern.many accepts : Pattern slot).Blind := trivial

@[simp] theorem blind_few : (Pattern.few accepts : Pattern slot).Blind := trivial

@[simp] theorem blind_char (c : Char) : (Pattern.char c : Pattern slot).Blind := trivial

@[simp] theorem blind_same (name : slot) (fold : Char → Char) :
    (Pattern.same name fold).Blind := trivial

@[simp] theorem blind_seq : (first.seq second).Blind ↔ first.Blind ∧ second.Blind := .rfl

@[simp] theorem blind_either : (first.either second).Blind ↔ first.Blind ∧ second.Blind := .rfl

@[simp] theorem blind_capture (name : slot) : (body.capture name).Blind ↔ body.Blind := .rfl

theorem blind_rounds (blind : body.Blind) (takes : body.takesSome = true) :
    (Pattern.rounds body).Blind := ⟨blind, takes⟩

theorem blind_ahead (blind : body.Blind) (stops : body.stopsInLine = true) (wanted : Bool) :
    (Pattern.ahead wanted body).Blind := ⟨blind, stops⟩

@[simp] theorem blind_optional : body.optional.Blind ↔ body.Blind := and_iff_left trivial

@[simp] theorem blind_many1 : (Pattern.many1 accepts : Pattern slot).Blind := ⟨trivial, trivial⟩

@[simp] theorem blind_few1 : (Pattern.few1 accepts : Pattern slot).Blind := ⟨trivial, trivial⟩

@[simp] theorem blind_sequence_nil : (sequence [] : Pattern slot).Blind := trivial

@[simp] theorem blind_sequence_cons :
    (sequence (first :: rest)).Blind ↔ first.Blind ∧ (sequence rest).Blind := by
  cases rest with
  | nil => exact (and_iff_left trivial).symm
  | cons second others => exact .rfl

@[simp] theorem blind_choice_nil : (choice [] : Pattern slot).Blind := trivial

@[simp] theorem blind_choice_cons :
    (choice (first :: rest)).Blind ↔ first.Blind ∧ (choice rest).Blind := by
  cases rest with
  | nil => exact (and_iff_left trivial).symm
  | cons second others => exact .rfl

@[simp] theorem blind_exactly (count : Nat) (blind : body.Blind) :
    (exactly count body).Blind := by
  induction count with
  | zero => trivial
  | succ count ih => exact ⟨blind, ih⟩

@[simp] theorem blind_upTo (count : Nat) (blind : body.Blind) : (upTo count body).Blind := by
  induction count with
  | zero => trivial
  | succ count ih => exact ⟨⟨blind, ih⟩, trivial⟩

theorem blind_sequence {patterns : List (Pattern slot)}
    (each : ∀ pattern ∈ patterns, pattern.Blind) : (sequence patterns).Blind := by
  induction patterns with
  | nil => trivial
  | cons first rest ih =>
    obtain ⟨here, later⟩ := List.forall_mem_cons.1 each
    exact blind_sequence_cons.2 ⟨here, ih later⟩

theorem blind_choice {patterns : List (Pattern slot)}
    (each : ∀ pattern ∈ patterns, pattern.Blind) : (choice patterns).Blind := by
  induction patterns with
  | nil => trivial
  | cons first rest ih =>
    obtain ⟨here, later⟩ := List.forall_mem_cons.1 each
    exact blind_choice_cons.2 ⟨here, ih later⟩

@[simp] theorem blind_literal (text : Text) : (Pattern.literal text : Pattern slot).Blind :=
  blind_sequence (List.forall_mem_map.2 fun _ _ => trivial)

@[simp] theorem blind_lineStart : (Pattern.lineStart : Pattern slot).Blind := fun _ => rfl

@[simp] theorem blind_textStart : (Pattern.textStart : Pattern slot).Blind := fun _ => rfl

@[simp] theorem blind_behind : (Pattern.behind accepts : Pattern slot).Blind := fun _ => rfl

@[simp] theorem blind_notBehind : (Pattern.notBehind accepts : Pattern slot).Blind := fun _ => rfl

/-- The end of a line stays one with a newline behind it. -/
@[simp] theorem blind_lineEnd : (Pattern.lineEnd : Pattern slot).Blind := by
  rintro ⟨offset, before, after⟩
  cases after <;> rfl

/-- A newline is not in the class, and no more is the end of the text. -/
theorem blind_before {accepts : Char → Bool} (newline : accepts '\n' = false) :
    (Pattern.before accepts : Pattern slot).Blind := by
  rintro ⟨offset, before, after⟩
  cases after with
  | nil => exact newline
  | cons c rest => rfl

theorem blind_notBefore {accepts : Char → Bool} (newline : accepts '\n' = false) :
    (Pattern.notBefore accepts : Pattern slot).Blind := by
  intro cursor
  exact congrArg (!·) (@blind_before slot accepts newline cursor)

end

variable [DecidableEq slot]

/-- The rest of the text does not get longer. -/
theorem length_after_le {pattern : Pattern slot} {reading later : Reading slot}
    (member : later ∈ pattern.outcomes reading) :
    later.cursor.after.length ≤ reading.cursor.after.length := by
  obtain ⟨passed, passes⟩ := exists_passes_of_mem_outcomes member
  simp [passes.after]

theorem length_after_lt {pattern : Pattern slot} (takes : pattern.takesSome = true)
    {reading later : Reading slot} (member : later ∈ pattern.outcomes reading) :
    later.cursor.after.length < reading.cursor.after.length := by
  induction pattern generalizing reading later with
  | one accepts =>
    rw [outcomes] at member
    split at member
    · cases member
    · next c rest next =>
      split at member
      · obtain rfl := List.mem_singleton.1 member
        simp [Cursor.past, next]
      · cases member
  | seq first second first_ih second_ih =>
    obtain ⟨middle, early, late⟩ := List.mem_flatMap.1 member
    rcases Bool.or_eq_true _ _ ▸ takes with inFirst | inSecond
    · exact Nat.lt_of_le_of_lt (length_after_le late) (first_ih inFirst early)
    · exact Nat.lt_of_lt_of_le (second_ih inSecond late) (length_after_le early)
  | either first second first_ih second_ih =>
    obtain ⟨inFirst, inSecond⟩ := Bool.and_eq_true _ _ ▸ takes
    rcases List.mem_append.1 member with tried | tried
    · exact first_ih inFirst tried
    · exact second_ih inSecond tried
  | capture name body ih =>
    obtain ⟨inner, inside, rfl⟩ := List.mem_map.1 member
    exact @ih takes reading inner inside
  | _ => cases takes

/-- At the end of the text there is nothing to take. -/
theorem outcomes_eq_nil {pattern : Pattern slot} (takes : pattern.takesSome = true)
    {reading : Reading slot} (ended : reading.cursor.after = []) : pattern.outcomes reading = [] :=
  List.eq_nil_iff_forall_not_mem.2 fun _ member => by
    simpa [ended] using length_after_lt takes member

omit [DecidableEq slot] in
theorem cursor_of_mem_repetitions {step : Reading slot → List (Reading slot)}
    (holds : Cursor → Prop)
    (each : ∀ reading, ∀ later ∈ step reading, later.cursor = reading.cursor ∨ holds later.cursor)
    (budget : Nat) {reading later : Reading slot}
    (member : later ∈ repetitions step budget reading) :
    later.cursor = reading.cursor ∨ holds later.cursor := by
  induction budget generalizing reading with
  | zero => exact .inl (congrArg _ (List.mem_singleton.1 member))
  | succ budget ih =>
    rcases List.mem_append.1 member with more | here
    · obtain ⟨middle, round, rest⟩ := List.mem_flatMap.1 more
      rcases ih rest with same | reached
      · exact same ▸ each reading middle round
      · exact .inr reached
    · exact .inl (congrArg _ (List.mem_singleton.1 here))

/-- Behind what the pattern has taken stands the end of the line at the nearest. -/
theorem cursor_of_stopsInLine {pattern : Pattern slot} (stops : pattern.stopsInLine = true)
    {reading later : Reading slot} (member : later ∈ pattern.outcomes reading) :
    later.cursor = reading.cursor ∨ later.cursor.follows inLine = true := by
  have ofClass : ∀ {accepts : Char → Bool} {passed : Text}, (!accepts '\n') = true →
      (∀ c ∈ passed, accepts c = true) → ∀ c ∈ passed, inLine c = true := by
    intro accepts passed refused inClass c inside
    refine bne_iff_ne.2 fun newline => ?_
    rw [← newline, inClass c inside] at refused
    cases refused
  induction pattern generalizing reading later with
  | empty => exact .inl (congrArg _ (List.mem_singleton.1 member))
  | one accepts =>
    rw [outcomes] at member
    split at member
    · cases member
    · next c rest next =>
      split at member
      · next taken =>
        obtain rfl := List.mem_singleton.1 member
        exact .inr (ofClass stops (List.forall_mem_singleton.2 taken) c List.mem_cons_self)
      · cases member
  | many accepts =>
    obtain ⟨stop, inside, rfl⟩ := List.mem_map.1 member
    obtain ⟨passed, passes, inClass⟩ := Cursor.exists_passes_of_mem_stops inside
    exact passes.follows (ofClass stops inClass)
  | few accepts =>
    obtain ⟨stop, inside, rfl⟩ := List.mem_map.1 member
    obtain ⟨passed, passes, inClass⟩ :=
      Cursor.exists_passes_of_mem_stops (List.mem_reverse.1 inside)
    exact passes.follows (ofClass stops inClass)
  | seq first second first_ih second_ih =>
    obtain ⟨middle, early, late⟩ := List.mem_flatMap.1 member
    obtain ⟨inSecond, before⟩ := Bool.and_eq_true _ _ ▸ stops
    rcases second_ih inSecond late with same | reached
    · rcases Bool.or_eq_true _ _ ▸ before with takes | inFirst
      · exact absurd (length_after_lt takes late) (by simp [same])
      · exact same ▸ first_ih inFirst early
    · exact .inr reached
  | either first second first_ih second_ih =>
    obtain ⟨inFirst, inSecond⟩ := Bool.and_eq_true _ _ ▸ stops
    rcases List.mem_append.1 member with tried | tried
    · exact first_ih inFirst tried
    · exact second_ih inSecond tried
  | rounds body ih =>
    exact cursor_of_mem_repetitions (·.follows inLine = true) (fun _ _ => ih stops) _ member
  | capture name body ih =>
    obtain ⟨inner, inside, rfl⟩ := List.mem_map.1 member
    exact @ih stops reading inner inside
  | same name fold => cases stops
  | ahead wanted body ih =>
    rw [outcomes] at member
    split at member
    · exact .inl (congrArg _ (List.mem_singleton.1 member))
    · cases member
  | place holds =>
    rw [outcomes] at member
    split at member
    · exact .inl (congrArg _ (List.mem_singleton.1 member))
    · cases member

/-- A pattern that stops in a line stops before the newline at the end of the text. -/
theorem isInside_of_stopsInLine {pattern : Pattern slot} (stops : pattern.stopsInLine = true)
    {reading later : Reading slot} (member : later ∈ pattern.outcomes reading.extended) :
    later.isInside = true := by
  refine Reading.isInside_iff.2 fun ended => ?_
  obtain ⟨passed, passes⟩ := exists_passes_of_mem_outcomes member
  rcases cursor_of_stopsInLine stops member with same | reached
  · exact reading.cursor.after_extended_ne_nil ((congrArg Cursor.after same).symm.trans ended)
  · have whole := passes.after
    rw [ended, List.append_nil] at whole
    rw [Cursor.follows, passes.before, ← whole] at reached
    simp [Reading.extended, Cursor.extended, inLine] at reached

omit [DecidableEq slot] in
/-- More rounds than there are characters left are not made. -/
theorem repetitions_eq_of_le {step : Reading slot → List (Reading slot)}
    (shorter : ∀ reading, ∀ later ∈ step reading,
      later.cursor.after.length < reading.cursor.after.length)
    {first second : Nat} {reading : Reading slot} (room : reading.cursor.after.length ≤ first)
    (also : reading.cursor.after.length ≤ second) :
    repetitions step first reading = repetitions step second reading := by
  have none : ∀ reading : Reading slot, reading.cursor.after.length ≤ 0 → step reading = [] :=
    fun reading ended => List.eq_nil_iff_forall_not_mem.2 fun later member =>
      absurd (shorter reading later member) (by omega)
  induction first generalizing second reading with
  | zero => cases second <;> simp [repetitions, none reading room]
  | succ first ih =>
    cases second with
    | zero => simp [repetitions, none reading also]
    | succ second =>
      rw [repetitions, repetitions]
      congr 1
      refine List.flatMap_congr fun later member => ?_
      have step := shorter reading later member
      exact ih (by omega) (by omega)

omit [DecidableEq slot] in
/-- What is done behind the outcomes of a first step that lie inside the longer text. -/
theorem filter_flatMap_extended {found short : List (Reading slot)}
    {rest : Reading slot → List (Reading slot)}
    (filtered : found.filter Reading.isInside = short.map Reading.extended)
    (onward : ∀ reading : Reading slot, reading.isInside = false →
      (rest reading).filter Reading.isInside = [])
    (each : ∀ reading ∈ short,
      (rest reading.extended).filter Reading.isInside = (rest reading).map Reading.extended) :
    (found.flatMap rest).filter Reading.isInside = (short.flatMap rest).map Reading.extended := by
  have skipped : found.flatMap (fun reading => (rest reading).filter Reading.isInside) =
      (found.filter Reading.isInside).flatMap
        fun reading => (rest reading).filter Reading.isInside := by
    clear filtered each
    induction found with
    | nil => rfl
    | cons reading others ih =>
      rw [List.flatMap_cons, ih, List.filter_cons]
      split
      · rfl
      · next outside => rw [onward reading (by simpa using outside), List.nil_append]
  rw [List.filter_flatMap, skipped, filtered, List.flatMap_map, List.map_flatMap]
  exact List.flatMap_congr each

omit [DecidableEq slot] in
theorem filter_of_ended {outcomes : List (Reading slot)} {reading : Reading slot}
    (onward : ∀ later ∈ outcomes, ∃ passed, reading.cursor.Passes passed later.cursor)
    (ended : reading.isInside = false) : outcomes.filter Reading.isInside = [] := by
  refine List.filter_eq_nil_iff.2 fun later member inside => ?_
  obtain ⟨passed, passes⟩ := onward later member
  rw [← Bool.not_eq_true, Reading.isInside_iff, not_not, passes.after] at ended
  exact Reading.isInside_iff.1 inside (List.append_eq_nil_iff.1 ended).2

theorem filter_repetitions_extended {body : Pattern slot}
    (each : ∀ reading : Reading slot,
      (body.outcomes reading.extended).filter Reading.isInside =
        (body.outcomes reading).map Reading.extended) (budget : Nat) (reading : Reading slot) :
    (repetitions body.outcomes budget reading.extended).filter Reading.isInside =
      (repetitions body.outcomes budget reading).map Reading.extended := by
  induction budget generalizing reading with
  | zero => simp [repetitions, reading.isInside_extended]
  | succ budget ih =>
    rw [repetitions, repetitions, List.filter_append, List.map_append,
      filter_flatMap_extended (each reading) (fun _ ended => ?_) fun middle _ => ih middle]
    · simp [reading.isInside_extended]
    · refine filter_of_ended (fun later member => ?_) ended
      exact exists_passes_of_mem_repetitions (fun _ _ => exists_passes_of_mem_outcomes) _ member

theorem outcomes_extended_of_filter {pattern : Pattern slot} {reading : Reading slot}
    (inside : ∀ later ∈ pattern.outcomes reading.extended, later.isInside = true)
    (filtered : (pattern.outcomes reading.extended).filter Reading.isInside =
      (pattern.outcomes reading).map Reading.extended) :
    pattern.outcomes reading.extended = (pattern.outcomes reading).map Reading.extended := by
  rwa [List.filter_eq_self.2 inside] at filtered

/-- Before the end of the text a blind pattern has the same outcomes with one more newline there. -/
theorem Blind.filter_outcomes {pattern : Pattern slot} (blind : pattern.Blind)
    (reading : Reading slot) :
    (pattern.outcomes reading.extended).filter Reading.isInside =
      (pattern.outcomes reading).map Reading.extended := by
  induction pattern generalizing reading with
  | empty => simp [outcomes, reading.isInside_extended]
  | one accepts =>
    obtain ⟨⟨offset, before, after⟩, captures⟩ := reading
    cases after with
    | nil =>
      simp only [Reading.extended, Cursor.extended, List.nil_append, outcomes]
      split <;> simp [Reading.isInside, Cursor.past, Cursor.atTextEnd]
    | cons c rest =>
      simp only [Reading.extended, Cursor.extended, List.cons_append, outcomes]
      split <;> simp [Reading.isInside, Cursor.past, Cursor.atTextEnd, Reading.extended,
        Cursor.extended]
  | many accepts =>
    rw [outcomes, outcomes, List.filter_map, List.map_map]
    refine (congrArg (List.map _) (reading.cursor.filter_stops_extended accepts)).trans ?_
    rw [List.map_map]
    rfl
  | few accepts =>
    rw [outcomes, outcomes, List.filter_map, List.map_map, List.filter_reverse]
    refine (congrArg (List.map _ ·.reverse) (reading.cursor.filter_stops_extended accepts)).trans ?_
    rw [← List.map_reverse, List.map_map]
    rfl
  | seq first second first_ih second_ih =>
    exact filter_flatMap_extended (first_ih blind.1 reading)
      (fun _ => filter_of_ended fun _ => exists_passes_of_mem_outcomes)
      fun middle _ => second_ih blind.2 middle
  | either first second first_ih second_ih =>
    rw [outcomes, outcomes, List.filter_append, List.map_append, first_ih blind.1,
      second_ih blind.2]
  | rounds body ih =>
    have shorter := fun reading later => @length_after_lt _ _ body blind.2 reading later
    refine (filter_repetitions_extended (ih blind.1) _ reading).trans ?_
    rw [repetitions_eq_of_le shorter _ (Nat.le_refl _)]
    · rfl
    · simp [Reading.extended, Cursor.extended]
  | capture name body ih =>
    rw [outcomes, outcomes, List.filter_map, List.map_map]
    refine (congrArg (List.map _) (ih blind reading)).trans ?_
    rw [List.map_map]
    refine List.map_congr_left fun later member => ?_
    obtain ⟨passed, passes⟩ := exists_passes_of_mem_outcomes member
    have same : reading.extended.cursor.upTo later.extended.cursor =
        reading.cursor.upTo later.cursor := passes.extended.upTo_eq.trans passes.upTo_eq.symm
    simp only [Function.comp_apply, same]
    rfl
  | same name fold =>
    have listed : ∀ start : Reading slot, (Pattern.same name fold).outcomes start =
        ((start.get? name).bind (Cursor.past? fold · start.cursor)).toList.map
          fun cursor => ⟨cursor, start.captures⟩ := by
      intro start
      rw [outcomes]
      cases start.get? name with
      | none => rfl
      | some expected => cases stands : Cursor.past? fold expected start.cursor <;> simp [stands]
    rw [listed, listed, List.filter_map, List.map_map]
    cases known : reading.get? name with
    | none =>
      rw [show reading.extended.get? name = none from known]
      rfl
    | some expected =>
      rw [show reading.extended.get? name = some expected from known]
      refine (congrArg (List.map _) (reading.cursor.past?_extended fold expected)).trans ?_
      rw [Option.bind_some]
      cases Cursor.past? fold expected reading.cursor <;> rfl
  | ahead wanted body ih =>
    have same := outcomes_extended_of_filter (fun _ => isInside_of_stopsInLine blind.2)
      (ih blind.1 reading)
    simp only [outcomes, same, List.head?_map, Option.isSome_map]
    split <;> simp [reading.isInside_extended]
  | place holds =>
    simp only [outcomes, Reading.extended, blind reading.cursor]
    split
    · exact List.filter_eq_self.2 (List.forall_mem_singleton.2 reading.isInside_extended)
    · rfl

/-- With one more newline at the end of the text the pattern has the same outcomes here. -/
def BlindAt (pattern : Pattern slot) (reading : Reading slot) : Prop :=
  pattern.outcomes reading.extended = (pattern.outcomes reading).map Reading.extended

theorem Blind.at_of_inside {pattern : Pattern slot} (blind : pattern.Blind) {reading : Reading slot}
    (inside : ∀ later ∈ pattern.outcomes reading.extended, later.cursor.after ≠ []) :
    pattern.BlindAt reading :=
  outcomes_extended_of_filter (fun later member => Reading.isInside_iff.2 (inside later member))
    (blind.filter_outcomes reading)

theorem Blind.at {pattern : Pattern slot} (blind : pattern.Blind)
    (stops : pattern.stopsInLine = true) (reading : Reading slot) : pattern.BlindAt reading :=
  outcomes_extended_of_filter (fun _ => isInside_of_stopsInLine stops)
    (blind.filter_outcomes reading)

end Pattern

end Markdown
