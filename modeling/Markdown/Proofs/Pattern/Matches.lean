import Markdown.Proofs.Pattern.Leads

set_option autoImplicit false

namespace Markdown

open Pattern

variable {slot : Type}

theorem Segment.mem_filterMap_match? {pieces : List (Segment slot)} {found : Match slot} :
    found ∈ pieces.filterMap Segment.match? ↔ .found found ∈ pieces := by
  constructor
  · intro member
    obtain ⟨piece, inside, same⟩ := List.mem_filterMap.1 member
    cases piece with
    | plain c => cases same
    | found other =>
      obtain rfl := Option.some.inj same
      exact inside
  · exact fun inside => List.mem_filterMap.2 ⟨_, inside, rfl⟩

variable [DecidableEq slot] {pattern : Pattern slot}

/-- A match of a pattern that begins behind a place. -/
structure Match.Follows (pattern : Pattern slot) (cursor : Cursor) (found : Match slot) : Prop where
  reached : ∃ early, cursor.Passes early found.start
  outcome : found.stop ∈ pattern.outcomes ⟨found.start, []⟩

namespace Match.Follows

variable {cursor : Cursor} {found : Match slot}

theorem passes (follows : found.Follows pattern cursor) :
    found.start.Passes found.text found.stop.cursor := by
  obtain ⟨passed, passes⟩ := exists_passes_of_mem_outcomes follows.outcome
  rwa [Match.text, passes.upTo_eq]

theorem offset_le (follows : found.Follows pattern cursor) : cursor.offset ≤ found.offset := by
  obtain ⟨early, reaches⟩ := follows.reached
  rw [Match.offset, reaches.offset]
  exact Nat.le_add_right _ _

theorem stop_offset_eq (follows : found.Follows pattern cursor) :
    found.stop.cursor.offset = found.offset + found.text.length :=
  follows.passes.offset

/-- A match stands in the text where its offset says. -/
theorem exists_eq_append {text : Text} (follows : found.Follows pattern (.first text)) :
    ∃ early late, text = early ++ (found.text ++ late) ∧ early.length = found.offset := by
  obtain ⟨early, reaches⟩ := follows.reached
  refine ⟨early, found.stop.cursor.after, ?_, ?_⟩
  · rw [← follows.passes.after]
    exact reaches.after
  · exact (Nat.zero_add _).symm.trans reaches.offset.symm

end Match.Follows

namespace Pattern

/-- A match is the first outcome at its place. -/
theorem leads_of_mem_segmentsFrom {budget : Nat} {cursor : Cursor} {found : Match slot}
    (member : .found found ∈ pattern.segmentsFrom budget cursor) :
    (∃ early, cursor.Passes early found.start) ∧ pattern.Leads ⟨found.start, []⟩ found.stop := by
  induction budget generalizing cursor with
  | zero => simp [segmentsFrom] at member
  | succ budget ih =>
    rw [segmentsFrom] at member
    split at member
    · cases member
    · next c rest next =>
      split at member
      · next stop run =>
        rw [run_eq_head?] at run
        obtain ⟨passed, passes⟩ := exists_passes_of_mem_outcomes (List.mem_of_mem_head? run)
        rcases List.mem_cons.1 member with here | behind
        · obtain rfl := Segment.found.inj here
          exact ⟨⟨[], .nothing _⟩, run⟩
        · obtain ⟨⟨early, reaches⟩, leads⟩ := ih behind
          exact ⟨⟨_, passes.trans reaches⟩, leads⟩
      · obtain ⟨⟨early, reaches⟩, leads⟩ := ih (by simpa using member)
        exact ⟨⟨_, .cons next reaches⟩, leads⟩

theorem leads_of_mem_matches? {text : Text} {found : Match slot}
    (member : found ∈ pattern.matches? text) : pattern.Leads ⟨found.start, []⟩ found.stop :=
  (leads_of_mem_segmentsFrom (Segment.mem_filterMap_match?.1 member)).2

theorem follows_of_mem_segmentsFrom {budget : Nat} {cursor : Cursor} {found : Match slot}
    (member : .found found ∈ pattern.segmentsFrom budget cursor) :
    found.Follows pattern cursor := by
  obtain ⟨reached, leads⟩ := leads_of_mem_segmentsFrom member
  exact ⟨reached, List.mem_of_mem_head? leads⟩

theorem follows_of_mem_matches? {text : Text} {found : Match slot}
    (member : found ∈ pattern.matches? text) : found.Follows pattern (.first text) :=
  follows_of_mem_segmentsFrom (Segment.mem_filterMap_match?.1 member)

/-- No match begins before the one in front of it ends. -/
theorem pairwise_segmentsFrom (pattern : Pattern slot) (budget : Nat) (cursor : Cursor) :
    ((pattern.segmentsFrom budget cursor).filterMap Segment.match?).Pairwise fun m n =>
      m.offset + m.text.length ≤ n.offset := by
  induction budget generalizing cursor with
  | zero => simp [segmentsFrom, List.filterMap_map, Function.comp_def, Segment.match?]
  | succ budget ih =>
    cases whole : pattern.segmentsFrom (budget + 1) cursor with
    | nil => exact .nil
    | cons piece pieces =>
      have first : ∀ m, piece = .found m → m.Follows pattern cursor := by
        rintro m rfl
        exact follows_of_mem_segmentsFrom (whole ▸ List.mem_cons_self)
      rw [segmentsFrom] at whole
      split at whole
      · cases whole
      · split at whole
        · obtain ⟨rfl, rfl⟩ := List.cons.inj whole
          simp only [List.filterMap_cons, Segment.match?]
          refine .cons (fun n member => ?_) (ih _)
          have behind := follows_of_mem_segmentsFrom (Segment.mem_filterMap_match?.1 member)
          rw [← (first _ rfl).stop_offset_eq]
          exact behind.offset_le
        · obtain ⟨rfl, rfl⟩ := List.cons.inj whole
          simp only [List.filterMap_cons, Segment.match?]
          exact ih _

theorem pairwise_matches? (pattern : Pattern slot) (text : Text) :
    (pattern.matches? text).Pairwise fun m n => m.offset + m.text.length ≤ n.offset :=
  pattern.pairwise_segmentsFrom _ _

def given (present : Bool) (text : Text) : Text :=
  if present then text else []

theorem exists_passes_of_mem_optional_char {c : Char} {reading later : Reading slot}
    (member : later ∈ (Pattern.optional (.char c)).outcomes reading) : ∃ present : Bool,
      reading.cursor.Passes (given present [c]) later.cursor ∧
        later.captures = reading.captures := by
  rcases List.mem_append.1 member with here | nothing
  · obtain ⟨rest, next, rfl⟩ := of_mem_char here
    exact ⟨true, .cons next (.nothing _), rfl⟩
  · obtain rfl := List.mem_singleton.1 nothing
    exact ⟨false, .nothing _, rfl⟩

theorem exists_passes_of_mem_capture_many {name : slot} {accepts : Char → Bool}
    {reading later : Reading slot}
    (member : later ∈ ((Pattern.many accepts).capture name).outcomes reading) :
    ∃ passed kept, reading.cursor.Passes passed later.cursor ∧
      (∀ c ∈ passed, accepts c = true) ∧ later.captures = (name, kept) :: reading.captures ∧
      kept.get = passed := by
  obtain ⟨inner, reached, rfl⟩ := List.mem_map.1 member
  obtain ⟨stop, farther, rfl⟩ := List.mem_map.1 reached
  obtain ⟨passed, passes, inClass⟩ := Cursor.exists_passes_of_mem_stops farther
  exact ⟨passed, _, passes, inClass, rfl, passes.upTo_eq⟩

theorem passes_of_mem_char {c : Char} {reading later : Reading slot}
    (member : later ∈ (Pattern.char c).outcomes reading) :
    reading.cursor.Passes [c] later.cursor ∧ later.captures = reading.captures := by
  obtain ⟨rest, next, rfl⟩ := of_mem_char member
  exact ⟨.cons next (.nothing _), rfl⟩

end Pattern

end Markdown
