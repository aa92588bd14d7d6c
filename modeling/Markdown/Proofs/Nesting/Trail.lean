import Markdown.Proofs.Nesting.Limit

set_option autoImplicit false

namespace Markdown

namespace Level

variable {limit : Limit} {level inner : Level} {error : NestingError}

theorem enter_eq_ok (entered : level.enter limit = .ok inner) :
    level.depth < limit.value ∧ inner = level.deeper := by
  by_cases below : level.depth < limit.value
  · exact ⟨below, Except.ok.inj (entered.symm.trans (enter_of_lt below))⟩
  · rw [enter_of_le (by omega)] at entered
    cases entered

theorem enter_eq_error (refused : level.enter limit = .error error) :
    limit.value ≤ level.depth ∧ error = .pastLimit limit.bound (level.depth + 1) := by
  by_cases below : level.depth < limit.value
  · rw [enter_of_lt below] at refused
    cases refused
  · have full : limit.value ≤ level.depth := by omega
    exact ⟨full, Except.error.inj (refused.symm.trans (enter_of_le full))⟩

/-- No more levels are open than have been open at most, and that was within the limit. -/
def Sound (limit : Limit) (level : Level) : Prop :=
  level.depth ≤ level.deepest ∧ level.deepest ≤ limit.value

theorem Sound.deeper (sound : level.Sound limit) (below : level.depth < limit.value) :
    level.deeper.Sound limit := by
  obtain ⟨_, within⟩ := sound
  simp only [Sound, Level.deeper]
  omega

theorem Sound.leave (sound : level.Sound limit) : level.leave.Sound limit :=
  ⟨Nat.le_trans (Nat.sub_le _ _) sound.1, sound.2⟩

end Level

namespace Render

variable {α β : Type} {limit : Limit}

/-- The rendering opens no level and does not fail. -/
def Still (body : Render α) : Prop :=
  ∀ progress, ∃ value later, body.run progress = (.ok value, later) ∧ later.level = progress.level

theorem run_tryCatch (body : Render α) (handler : NestingError → Render α) (progress : Progress) :
    (tryCatch body handler).run progress =
      match body.run progress with
      | (.ok value, later) => (.ok value, later)
      | (.error error, later) => (handler error).run later := by
  change (ExceptT.tryCatch body handler).run progress = _
  simp only [ExceptT.tryCatch, ExceptT.run, ExceptT.mk, bind, StateT.bind]
  rcases body progress with ⟨result | value, later⟩ <;> rfl

/-- The rendering comes to the outcome, and on its way it passes the levels one after the other:
those it enters, and those to which it comes back. -/
inductive Trail (limit : Limit) :
    {α : Type} → Render α → Progress → List Level → Except NestingError α × Progress → Prop where
  | still {α : Type} {body : Render α} (still : body.Still) (progress : Progress) :
    Trail limit body progress [] (body.run progress)
  | next {α β : Type} {first : Render α} {rest : α → Render β} {value : α}
    {progress middle : Progress} {early late : List Level}
    {outcome : Except NestingError β × Progress}
    (done : Trail limit first progress early (.ok value, middle))
    (later : Trail limit (rest value) middle late outcome) :
    Trail limit (first >>= rest) progress (early ++ late) outcome
  | stop {α β : Type} {first : Render α} {rest : α → Render β} {error : NestingError}
    {progress last : Progress} {visited : List Level}
    (failed : Trail limit first progress visited (.error error, last)) :
    Trail limit (first >>= rest) progress visited (.error error, last)
  | refused {α : Type} {body : Render α} {progress : Progress} {error : NestingError}
    (full : progress.level.enter limit = .error error) :
    Trail limit (Render.nested limit body) progress [] (.error error, progress)
  | entered {α : Type} {body : Render α} {progress last : Progress} {inner : Level}
    {visited : List Level} {result : Except NestingError α}
    (opened : progress.level.enter limit = .ok inner)
    (inside : Trail limit body { progress with level := inner } visited (result, last)) :
    Trail limit (Render.nested limit body) progress (inner :: (visited ++ [last.level.leave]))
      (result, { last with level := last.level.leave })
  | fine {α : Type} {body : Render α} {handler : NestingError → Render α} {value : α}
    {progress last : Progress} {visited : List Level}
    (done : Trail limit body progress visited (.ok value, last)) :
    Trail limit (tryCatch body handler) progress visited (.ok value, last)
  | caught {α : Type} {body : Render α} {handler : NestingError → Render α} {error : NestingError}
    {progress middle : Progress} {early late : List Level}
    {outcome : Except NestingError α × Progress}
    (failed : Trail limit body progress early (.error error, middle))
    (handled : Trail limit (handler error) middle late outcome) :
    Trail limit (tryCatch body handler) progress (early ++ late) outcome

end Render

/-- Along the levels that are passed from a first to a last one every level is sound, and the most
that have been open never get fewer. -/
structure Level.Passes (limit : Limit) (start : Level) (visited : List Level) (last : Level) :
    Prop where
  sound : ∀ level ∈ start :: visited, level.Sound limit
  rises : (start :: visited).Pairwise fun before after => before.deepest ≤ after.deepest
  ends : (start :: visited).getLast? = some last

namespace Level.Passes

variable {limit : Limit} {start middle last : Level} {visited early late : List Level}

theorem stay (sound : start.Sound limit) : Passes limit start [] start :=
  ⟨by simpa using sound, List.pairwise_singleton _ _, rfl⟩

theorem enter (sound : start.Sound limit) (below : start.depth < limit.value) :
    Passes limit start [start.deeper] start.deeper where
  sound := by simpa using ⟨sound, sound.deeper below⟩
  rises := by
    have higher : start.deepest ≤ start.deeper.deepest := Nat.le_max_left _ _
    simpa using higher
  ends := rfl

theorem leave (sound : start.Sound limit) : Passes limit start [start.leave] start.leave where
  sound := by simpa using ⟨sound, sound.leave⟩
  rises := by simp [Level.leave]
  ends := rfl

theorem sound_last (passes : Passes limit start visited last) : last.Sound limit :=
  passes.sound last (List.mem_of_getLast? passes.ends)

theorem deepest_le (passes : Passes limit start visited last) :
    ∀ level ∈ start :: visited, level.deepest ≤ last.deepest := by
  obtain ⟨front, split⟩ := List.getLast?_eq_some_iff.1 passes.ends
  have rises := passes.rises
  rw [split] at rises ⊢
  intro level member
  rcases List.mem_append.1 member with before | here
  · exact (List.pairwise_append.1 rises).2.2 level before last List.mem_cons_self
  · exact Nat.le_of_eq (congrArg Level.deepest (List.mem_singleton.1 here))

theorem append (first : Passes limit start early middle) (second : Passes limit middle late last) :
    Passes limit start (early ++ late) last where
  sound level member := by
    rw [← List.cons_append] at member
    rcases List.mem_append.1 member with before | after
    · exact first.sound level before
    · exact second.sound level (List.mem_cons_of_mem _ after)
  rises := by
    obtain ⟨above, later⟩ := List.pairwise_cons.1 second.rises
    rw [← List.cons_append]
    exact List.pairwise_append.2 ⟨first.rises, later, fun before inFirst after inSecond =>
      Nat.le_trans (first.deepest_le before inFirst) (above after inSecond)⟩
  ends := by
    have ends := second.ends
    rw [← List.cons_append, List.getLast?_append, first.ends]
    rw [List.getLast?_cons] at ends
    rw [← ends]
    cases late.getLast? <;> rfl

end Level.Passes

/-- What holds of the levels that are passed on a trail. At its end as many levels are open as at
its start, and if any was entered, the most that have been open are more than were open then. -/
structure Level.Kept (limit : Limit) (start : Level) (visited : List Level) (last : Level) : Prop
    extends Level.Passes limit start visited last where
  back : last.depth = start.depth
  opened : visited ≠ [] → start.depth + 1 ≤ last.deepest

namespace Level.Kept

variable {limit : Limit} {start middle last : Level} {visited early late : List Level}

theorem stay (sound : start.Sound limit) : Kept limit start [] start :=
  ⟨.stay sound, rfl, fun none => absurd rfl none⟩

theorem append (first : Kept limit start early middle) (second : Kept limit middle late last) :
    Kept limit start (early ++ late) last where
  toPasses := first.toPasses.append second.toPasses
  back := second.back.trans first.back
  opened some := by
    have higher := second.deepest_le middle List.mem_cons_self
    by_cases none : early = []
    · have opened := second.opened (by simpa [none] using some)
      rwa [first.back] at opened
    · exact Nat.le_trans (first.opened none) higher

theorem nested (sound : start.Sound limit) (below : start.depth < limit.value)
    (inside : Kept limit start.deeper visited last) :
    Kept limit start (start.deeper :: (visited ++ [last.leave])) last.leave where
  toPasses := (Passes.enter sound below).append (inside.toPasses.append (.leave inside.sound_last))
  back := congrArg (· - 1) inside.back
  opened _ :=
    Nat.le_trans (Nat.le_max_right _ _) (inside.deepest_le start.deeper List.mem_cons_self)

end Level.Kept

namespace Render.Trail

variable {α β : Type} {limit : Limit} {body : Render α} {progress : Progress} {visited : List Level}
  {outcome : Except NestingError α × Progress}

/-- A trail is one of the run of the rendering. -/
theorem run_eq (trail : Trail limit body progress visited outcome) :
    body.run progress = outcome := by
  induction trail with
  | still still progress => rfl
  | next _ _ first second =>
    rw [run_bind, first]
    exact second
  | stop _ first => rw [run_bind, first]
  | refused full => exact run_nested_error full _
  | entered opened _ inside => rw [run_nested opened, inside]
  | fine _ first => rw [run_tryCatch, first]
  | caught _ _ first second =>
    rw [run_tryCatch, first]
    exact second

theorem kept (trail : Trail limit body progress visited outcome)
    (sound : progress.level.Sound limit) : progress.level.Kept limit visited outcome.2.level := by
  induction trail with
  | still still progress =>
    obtain ⟨value, later, done, level⟩ := still progress
    rw [done, level]
    exact .stay sound
  | next _ _ first second => exact (first sound).append (second (first sound).sound_last)
  | stop _ first => exact first sound
  | refused full => exact .stay sound
  | entered opened _ inside =>
    obtain ⟨below, rfl⟩ := Level.enter_eq_ok opened
    exact .nested sound below (inside (sound.deeper below))
  | fine _ first => exact first sound
  | caught _ _ first second => exact (first sound).append (second (first sound).sound_last)

/-- What fails has asked for the level past the limit, and all levels up to it have been open. -/
theorem failed (trail : Trail limit body progress visited outcome)
    (sound : progress.level.Sound limit) : ∀ error, outcome.1 = .error error →
      outcome.2.level.deepest = limit.value ∧
        error = .pastLimit limit.bound (outcome.2.level.deepest + 1) := by
  induction trail with
  | still still progress =>
    intro error same
    obtain ⟨value, later, done, _⟩ := still progress
    rw [done] at same
    cases same
  | next first _ _ second => exact second (first.kept sound).sound_last
  | stop _ first =>
    intro error same
    obtain rfl := Except.error.inj same
    exact first sound _ rfl
  | @refused _ _ progress _ full =>
    intro error same
    obtain rfl := Except.error.inj same
    obtain ⟨reached, rfl⟩ := Level.enter_eq_error full
    obtain ⟨most, within⟩ := sound
    have all : progress.level.depth = progress.level.deepest := by omega
    rw [all]
    exact ⟨by change (progress.level.deepest : Int) = _; omega, rfl⟩
  | entered opened _ inside =>
    obtain ⟨below, rfl⟩ := Level.enter_eq_ok opened
    exact inside (sound.deeper below)
  | fine _ _ =>
    intro error same
    cases same
  | caught first _ _ second => exact second (first.kept sound).sound_last

end Render.Trail

end Markdown
