import Markdown.Proofs.Ending.Ends

set_option autoImplicit false

namespace Markdown.Pattern

variable {slot : Type} [DecidableEq slot] {pattern : Pattern slot} {reading later : Reading slot}

/-- Something may be kept under the slot on the way. -/
def fills (name : slot) : Pattern slot → Bool
  | .seq first second | .either first second => first.fills name || second.fills name
  | .rounds body => body.fills name
  | .capture other body => other = name || body.fills name
  | _ => false

theorem get?_of_mem_repetitions {step : Reading slot → List (Reading slot)} {name : slot}
    (keeps : ∀ reading, ∀ later ∈ step reading, later.get? name = reading.get? name) (budget : Nat)
    {reading later : Reading slot} (member : later ∈ repetitions step budget reading) :
    later.get? name = reading.get? name := by
  induction budget generalizing reading with
  | zero => rw [List.mem_singleton.1 member]
  | succ budget ih =>
    rcases List.mem_append.1 member with more | here
    · obtain ⟨middle, round, rest⟩ := List.mem_flatMap.1 more
      exact (ih rest).trans (keeps reading middle round)
    · rw [List.mem_singleton.1 here]

/-- A slot that is not filled on the way keeps its text. -/
theorem get?_of_mem_outcomes {name : slot} (unfilled : pattern.fills name = false)
    (member : later ∈ pattern.outcomes reading) : later.get? name = reading.get? name := by
  induction pattern generalizing reading later with
  | empty => rw [List.mem_singleton.1 member]
  | one accepts =>
    rw [outcomes] at member
    split at member
    · cases member
    · split at member
      · rw [List.mem_singleton.1 member]
        rfl
      · cases member
  | many accepts | few accepts =>
    obtain ⟨stop, -, rfl⟩ := List.mem_map.1 member
    rfl
  | seq first second first_ih second_ih =>
    obtain ⟨inFirst, inSecond⟩ := Bool.or_eq_false_iff.1 unfilled
    obtain ⟨middle, early, late⟩ := List.mem_flatMap.1 member
    exact (second_ih inSecond late).trans (first_ih inFirst early)
  | either first second first_ih second_ih =>
    obtain ⟨inFirst, inSecond⟩ := Bool.or_eq_false_iff.1 unfilled
    exact (List.mem_append.1 member).elim (first_ih inFirst) (second_ih inSecond)
  | rounds body ih => exact get?_of_mem_repetitions (fun _ _ => ih unfilled) _ member
  | capture other body ih =>
    obtain ⟨elsewhere, inBody⟩ := Bool.or_eq_false_iff.1 unfilled
    obtain ⟨inner, inside, rfl⟩ := List.mem_map.1 member
    rw [Reading.get?_cons, if_neg (by simpa using elsewhere)]
    exact ih inBody inside
  | same other fold =>
    rw [outcomes] at member
    split at member
    · cases member
    · split at member
      · cases member
      · rw [List.mem_singleton.1 member]
        rfl
  | ahead wanted body ih | place holds =>
    rw [outcomes] at member
    split at member
    · rw [List.mem_singleton.1 member]
    · cases member

/-- A text that is looked for as it is is passed where it stands. -/
theorem past?_id_iff {text : Text} {start stop : Cursor} :
    Cursor.past? id text start = some stop ↔ start.Passes text stop := by
  constructor
  · intro found
    obtain ⟨passed, passes, same⟩ := Cursor.exists_passes_of_past? found
    rw [List.map_id, List.map_id] at same
    exact same ▸ passes
  · intro passes
    induction text generalizing start with
    | nil => rw [passes.eq_of_nil, Cursor.past?]
    | cons c text ih =>
      obtain ⟨offset, before, after⟩ := start
      obtain rfl : after = c :: (text ++ stop.after) := passes.after
      rw [Cursor.past?, if_pos rfl]
      exact ih ⟨by simpa [Nat.add_assoc, Nat.add_comm 1] using passes.offset,
        by simp [passes.before], rfl⟩

/-- A kept text is passed once more where it stands again. -/
theorem mem_outcomes_same_iff {name : slot} {text : Text} (kept : reading.get? name = some text) :
    later ∈ (Pattern.same name id).outcomes reading ↔
      reading.cursor.Passes text later.cursor ∧ later.captures = reading.captures := by
  have listed : (Pattern.same name id).outcomes reading =
      (Cursor.past? id text reading.cursor).toList.map (⟨·, reading.captures⟩) := by
    rw [outcomes, kept]
    dsimp only
    split
    · next absent => rw [absent, Option.toList_none, List.map_nil]
    · next stop found => rw [found, Option.toList_some, List.map_singleton]
  rw [listed, List.mem_map]
  constructor
  · rintro ⟨stop, found, rfl⟩
    exact ⟨past?_id_iff.1 (Option.mem_toList.1 found), rfl⟩
  · rintro ⟨passes, same⟩
    exact ⟨later.cursor, Option.mem_toList.2 (past?_id_iff.2 passes), by rw [← same]⟩

end Markdown.Pattern
