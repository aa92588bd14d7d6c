import Markdown.Proofs.Ending.Ends
import Markdown.Proofs.Pattern.Matches

set_option autoImplicit false

namespace Markdown

/-- Work on texts that end in a newline to which one more is nothing. -/
def IgnoresFinalNewline {α : Type} (work : Text → α) : Prop :=
  ∀ text : Text, text.Ended → work (text ++ ['\n']) = work text

/-- A pass behind which one more newline at the end of its text is nothing to work that ignores
it. -/
def Settles {m : Type → Type} [Monad m] (pass : Text → m Text) : Prop :=
  ∀ (α : Type) (work : Text → m α), IgnoresFinalNewline work →
    IgnoresFinalNewline fun text => pass text >>= work

theorem Settles.bind {m : Type → Type} [Monad m] [LawfulMonad m] {first second : Text → m Text}
    (early : Settles first) (late : Settles second) :
    Settles fun text => first text >>= second := by
  intro α work ignores text ended
  dsimp only
  rw [bind_assoc, bind_assoc]
  exact early α _ (late α work ignores) text ended

variable {slot : Type}

/-- The same match in the text with one more newline at its end. -/
def Match.extended (found : Match slot) : Match slot :=
  ⟨found.start.extended, found.stop.extended⟩

theorem Match.text_extended {found : Match slot} {passed : Text}
    (passes : found.start.Passes passed found.stop.cursor) : found.extended.text = found.text :=
  passes.extended.upTo_eq.trans passes.upTo_eq.symm

def Segment.extended : Segment slot → Segment slot
  | .plain c => .plain c
  | .found m => .found m.extended

namespace Pattern

variable [DecidableEq slot] {pattern : Pattern slot} {text : Text}

omit [DecidableEq slot] in
theorem whole_past {cursor : Cursor} {c : Char} {rest : Text} (next : cursor.after = c :: rest) :
    (cursor.past c rest).whole = cursor.whole := by
  have step : cursor.Passes [c] (cursor.past c rest) := .cons next (.nothing _)
  exact step.whole_eq

theorem segmentsFrom_of_ended (pattern : Pattern slot) (budget : Nat) {cursor : Cursor}
    (ended : cursor.after = []) : pattern.segmentsFrom budget cursor = [] := by
  cases budget <;> simp [segmentsFrom, ended]

theorem segmentsFrom_of_next (pattern : Pattern slot) (budget : Nat) {cursor : Cursor} {c : Char}
    {rest : Text} (next : cursor.after = c :: rest) :
    pattern.segmentsFrom (budget + 1) cursor =
      match (pattern.outcomes ⟨cursor, []⟩).head? with
      | some stop => .found ⟨cursor, stop⟩ :: pattern.segmentsFrom budget stop.cursor
      | none => .plain c :: pattern.segmentsFrom budget (cursor.past c rest) := by
  cases tried : (pattern.outcomes ⟨cursor, []⟩).head? <;>
    rw [segmentsFrom, run_eq_head?, next, tried]

/-- The newline at the end of the text is no match of its own. -/
theorem segmentsFrom_extended_of_ended {budget : Nat} {cursor : Cursor}
    (ended : cursor.after = [])
    (nowhere : (pattern.outcomes ⟨cursor.extended, []⟩).head? = none) :
    pattern.segmentsFrom (budget + 1) cursor.extended = [.plain '\n'] := by
  have last : cursor.extended.after = ['\n'] := by rw [Cursor.extended, ended, List.nil_append]
  rw [segmentsFrom_of_next pattern budget last, nowhere]
  exact congrArg _ (pattern.segmentsFrom_of_ended budget rfl)

theorem segmentsFrom_extended (takes : pattern.takesSome = true)
    (blind : ∀ cursor : Cursor, cursor.whole = text → pattern.BlindAt ⟨cursor, []⟩)
    {budget : Nat} {cursor : Cursor} (inside : cursor.whole = text)
    (room : cursor.after.length ≤ budget) :
    pattern.segmentsFrom (budget + 1) cursor.extended =
      (pattern.segmentsFrom budget cursor).map Segment.extended ++ [.plain '\n'] := by
  have nowhere : ∀ place : Cursor, place.whole = text → place.after = [] →
      (pattern.outcomes ⟨place.extended, []⟩).head? = none := by
    intro place within ended
    refine (congrArg List.head? (blind place within)).trans ?_
    rw [outcomes_eq_nil takes ended]
    rfl
  induction budget generalizing cursor with
  | zero =>
    have ended : cursor.after = [] := List.length_eq_zero_iff.1 (Nat.le_zero.1 room)
    rw [segmentsFrom_extended_of_ended ended (nowhere cursor inside ended), segmentsFrom, ended]
    rfl
  | succ budget ih =>
    cases after : cursor.after with
    | nil =>
      rw [segmentsFrom_extended_of_ended after (nowhere cursor inside after),
        pattern.segmentsFrom_of_ended _ after]
      rfl
    | cons c rest =>
      have longer : cursor.extended.after = c :: (rest ++ ['\n']) := congrArg (· ++ ['\n']) after
      have found := congrArg List.head? (blind cursor inside)
      rw [List.head?_map] at found
      rw [segmentsFrom_of_next pattern _ longer, segmentsFrom_of_next pattern _ after,
        show (pattern.outcomes ⟨cursor.extended, []⟩).head? = _ from found]
      cases tried : (pattern.outcomes ⟨cursor, []⟩).head? with
      | none =>
        rw [after, List.length_cons] at room
        exact congrArg (_ :: ·) (ih ((whole_past after).trans inside) (Nat.le_of_succ_le_succ room))
      | some stop =>
        have member := List.mem_of_mem_head? tried
        have shorter : stop.cursor.after.length < cursor.after.length :=
          length_after_lt takes member
        exact congrArg (_ :: ·) (ih ((whole_of_mem_outcomes member).trans inside) (by omega))

theorem segments_append_newline (takes : pattern.takesSome = true)
    (blind : ∀ cursor : Cursor, cursor.whole = text → pattern.BlindAt ⟨cursor, []⟩) :
    pattern.segments (text ++ ['\n']) =
      (pattern.segments text).map Segment.extended ++ [.plain '\n'] := by
  have whole : (Cursor.first text).whole = text := rfl
  have both := segmentsFrom_extended takes blind whole (Nat.le_refl text.length)
  rw [segments, segments, List.length_append]
  exact both

/-- A blind pattern is replaced as before, and the one newline more stays. -/
theorem replace_append_newline (takes : pattern.takesSome = true)
    (blind : ∀ cursor : Cursor, cursor.whole = text → pattern.BlindAt ⟨cursor, []⟩)
    {replacement : Match slot → Text}
    (same : ∀ (found : Match slot) (passed : Text), found.start.Passes passed found.stop.cursor →
      replacement found.extended = replacement found) :
    pattern.replace replacement (text ++ ['\n']) =
      pattern.replace replacement text ++ ['\n'] := by
  rw [replace, segments_append_newline takes blind, List.flatMap_append, List.flatMap_map]
  refine congrArg (· ++ _) (List.flatMap_congr fun piece member => ?_)
  cases piece with
  | plain c => rfl
  | found m =>
    exact same m _ (follows_of_mem_segmentsFrom member).passes

theorem ended_replace (takes : pattern.takesSome = true)
    (blind : ∀ reading : Reading slot, pattern.BlindAt reading) {replacement : Match slot → Text}
    (same : ∀ (found : Match slot) (passed : Text), found.start.Passes passed found.stop.cursor →
      replacement found.extended = replacement found)
    (ended : text.Ended) : (pattern.replace replacement text).Ended := by
  rcases ended.exists_eq with rfl | ⟨front, rfl⟩
  · exact ended
  · rw [replace_append_newline takes (fun _ _ => blind _) same]
    exact Text.ended_append_newline _

theorem matches?_append_newline (takes : pattern.takesSome = true)
    (blind : ∀ cursor : Cursor, cursor.whole = text → pattern.BlindAt ⟨cursor, []⟩) :
    pattern.matches? (text ++ ['\n']) = (pattern.matches? text).map Match.extended := by
  rw [matches?, matches?, segments_append_newline takes blind, List.filterMap_append,
    List.filterMap_map, List.map_filterMap]
  refine (List.append_nil _).trans (List.filterMap_congr fun piece _ => ?_)
  cases piece <;> rfl

section

variable {m : Type → Type} [Monad m] [LawfulMonad m] {replacement : Match slot → m Text}

def resultFrom (pattern : Pattern slot) (replacement : Match slot → m Text) (budget : Nat)
    (cursor : Cursor) : m Text := do
  let pieces ← (pattern.segmentsFrom budget cursor).mapM (Segment.replacedM replacement)
  pure pieces.flatten

theorem resultFrom_of_next (budget : Nat) {cursor : Cursor} {c : Char} {rest : Text}
    (next : cursor.after = c :: rest) :
    pattern.resultFrom replacement (budget + 1) cursor =
      match (pattern.outcomes ⟨cursor, []⟩).head? with
      | some stop => do
        let here ← replacement ⟨cursor, stop⟩
        (here ++ ·) <$> pattern.resultFrom replacement budget stop.cursor
      | none => (c :: ·) <$> pattern.resultFrom replacement budget (cursor.past c rest) := by
  rw [resultFrom, segmentsFrom_of_next pattern budget next]
  cases (pattern.outcomes ⟨cursor, []⟩).head? <;> simp [resultFrom, Segment.replacedM]

theorem resultFrom_of_ended (budget : Nat) {cursor : Cursor} (ended : cursor.after = []) :
    pattern.resultFrom replacement budget cursor = pure [] := by
  simp [resultFrom, segmentsFrom_of_ended pattern budget ended]

/-- How the result with one more newline at the end of the text and the one without it differ. -/
inductive Longer (ended : Prop) (short long : m Text) : Prop
  | same (same : long = short)
  | more (front : m Text) (less : short = (· ++ ['\n']) <$> front)
      (more : long = (· ++ ['\n', '\n']) <$> front)
  | only (here : ended) (none : short = pure []) (one : long = pure ['\n'])

theorem Longer.behind {ended other : Prop} {short long : m Text} (front : Text)
    (longer : Longer ended short long) (last : ended → front = ['\n']) :
    Longer other ((front ++ ·) <$> short) ((front ++ ·) <$> long) := by
  cases longer with
  | same same => exact .same (by rw [same])
  | more work less more => exact .more ((front ++ ·) <$> work) (by simp [less]) (by simp [more])
  | only here none one =>
    exact .more (pure []) (by simp [none, last here]) (by simp [one, last here])

/-- Work in front of both results is done in the same way for either. -/
theorem Longer.bind {ended other : Prop} {short long front : m Text}
    (longer : Longer ended short long) (inside : ¬ ended) :
    Longer other (front >>= fun here => (here ++ ·) <$> short)
      (front >>= fun here => (here ++ ·) <$> long) := by
  cases longer with
  | same same => exact .same (by rw [same])
  | more work less more =>
    exact .more (front >>= fun here => (here ++ ·) <$> work) (by simp [less]) (by simp [more])
  | only here => exact absurd here inside

theorem longer_resultFrom {grows : slot → Prop} (takes : pattern.takesSome = true)
    (ends : ∀ reading : Reading slot, reading.cursor.whole.Ended → pattern.Ends grows reading)
    (agree : ∀ first second : Match slot, first.stop.Alike grows second.stop →
      replacement second = replacement first)
    {budget : Nat} {cursor : Cursor} (ended : cursor.whole.Ended)
    (room : cursor.after.length ≤ budget) :
    Longer (cursor.after = []) (pattern.resultFrom replacement budget cursor)
      (pattern.resultFrom replacement (budget + 1) cursor.extended) := by
  have atEnd : ∀ (count : Nat) (place : Cursor), place.whole.Ended → place.after = [] →
      Longer (place.after = []) (pattern.resultFrom replacement count place)
        (pattern.resultFrom replacement (count + 1) place.extended) := by
    intro count place goes stop
    have nowhere : (pattern.outcomes ⟨place.extended, []⟩).head? = none := by
      have alike := ends ⟨place, []⟩ goes
      rw [Ends, outcomes_eq_nil takes stop] at alike
      change Option.Rel _ none (pattern.outcomes ⟨place.extended, []⟩).head? at alike
      generalize (pattern.outcomes ⟨place.extended, []⟩).head? = one at alike
      cases alike
      rfl
    refine .only stop (resultFrom_of_ended count stop) ?_
    rw [resultFrom, segmentsFrom_extended_of_ended stop nowhere]
    simp [Segment.replacedM]
  induction budget generalizing cursor with
  | zero => exact atEnd 0 cursor ended (List.length_eq_zero_iff.1 (Nat.le_zero.1 room))
  | succ budget ih =>
    cases after : cursor.after with
    | nil => exact after ▸ atEnd _ cursor ended after
    | cons c rest =>
      have longer : cursor.extended.after = c :: (rest ++ ['\n']) := congrArg (· ++ ['\n']) after
      have alike := ends ⟨cursor, []⟩ ended
      have shorter : ∀ later ∈ (pattern.outcomes ⟨cursor, []⟩).head?,
          later.cursor.after.length ≤ budget ∧ later.cursor.whole.Ended := by
        intro later tried
        have member := List.mem_of_mem_head? tried
        have less : later.cursor.after.length < cursor.after.length := length_after_lt takes member
        exact ⟨by omega, ended_of_mem_outcomes ended member⟩
      rw [resultFrom_of_next _ longer, resultFrom_of_next _ after]
      change Option.Rel _ _ (pattern.outcomes ⟨cursor.extended, []⟩).head? at alike
      generalize (pattern.outcomes ⟨cursor, []⟩).head? = one at alike shorter
      generalize (pattern.outcomes ⟨cursor.extended, []⟩).head? = other at alike
      cases alike with
      | none =>
        have whole := whole_past after
        rw [after, List.length_cons] at room
        refine (ih (whole ▸ ended) (Nat.le_of_succ_le_succ room)).behind [c] fun last => ?_
        obtain rfl : rest = [] := last
        rw [ended c (by simp [Cursor.whole, after])]
      | @some early late alike =>
        obtain ⟨less, goes⟩ := shorter early rfl
        dsimp only
        rw [agree ⟨cursor, early⟩ ⟨cursor.extended, late⟩ alike]
        cases alike with
        | inside more same =>
          subst same
          exact (ih goes less).bind more
        | ended here there =>
          rw [resultFrom_of_ended _ here, resultFrom_of_ended _ there]
          exact .same rfl

/-- Where a pattern takes the end of the text with it, one more newline there makes no difference
behind the replacement. -/
theorem settles_replaceM {grows : slot → Prop} (takes : pattern.takesSome = true)
    (ends : ∀ reading : Reading slot, reading.cursor.whole.Ended → pattern.Ends grows reading)
    (agree : ∀ first second : Match slot, first.stop.Alike grows second.stop →
      replacement second = replacement first) :
    Settles (pattern.replaceM replacement) := by
  intro α work ignores text ended
  have both : pattern.replaceM replacement (text ++ ['\n']) =
      pattern.resultFrom replacement (text.length + 1) (Cursor.first text).extended := by
    rw [replaceM, segments, List.length_append]
    rfl
  have longer : Longer (text = []) (pattern.replaceM replacement text)
      (pattern.resultFrom replacement (text.length + 1) (Cursor.first text).extended) :=
    longer_resultFrom takes ends agree (show (Cursor.first text).whole.Ended from ended)
      (Nat.le_refl _)
  change pattern.replaceM replacement (text ++ ['\n']) >>= work = _ >>= work
  rw [both]
  cases longer with
  | same same => rw [same]
  | more front less more =>
    have step : ∀ read : Text, work (read ++ ['\n', '\n']) = work (read ++ ['\n']) := fun read => by
      rw [← ignores _ (Text.ended_append_newline read), List.append_assoc]
      rfl
    rw [less, more]
    simp [step]
  | only here none one =>
    rw [none, one, pure_bind, pure_bind]
    exact ignores [] (by simp [Text.Ended])

end

end Pattern

end Markdown
