import Markdown.Block.List
import Markdown.Proofs.Ending.Search
import Mathlib.Data.List.Induction

set_option autoImplicit false

namespace Markdown

namespace Text

/-- A text that does not end in a newline. -/
def Unended (text : Text) : Prop :=
  ∀ c ∈ text.getLast?, c ≠ '\n'

theorem Unended.of_append (front : Text) {text : Text} (unended : Unended (front ++ text)) :
    text.Unended := by
  intro c last
  exact unended c (by rw [List.getLast?_append, Option.mem_def.1 last]; rfl)

theorem Unended.append {text : Text} (unended : text.Unended) (some : text ≠ []) (front : Text) :
    Unended (front ++ text) := by
  intro c last
  rw [List.getLast?_append_of_ne_nil _ some] at last
  exact unended c last

theorem Unended.ne_newlines {text : Text} {count : Nat}
    (unended : Unended ('\n' :: (List.replicate count '\n' ++ text))) : text ≠ [] := by
  rintro rfl
  rw [List.append_nil, ← List.replicate_succ] at unended
  exact unended '\n' (by simp [List.getLast?_replicate]) rfl

theorem exists_eq_append_newlines (text : Text) :
    ∃ front count, text = front ++ List.replicate count '\n' ∧ Unended front := by
  induction text using List.reverseRecOn with
  | nil => exact ⟨[], 0, rfl, by simp [Unended]⟩
  | append_singleton text c ih =>
    by_cases newline : c = '\n'
    · obtain ⟨front, count, rfl, unended⟩ := ih
      exact ⟨front, count + 1, by rw [newline, List.replicate_succ', List.append_assoc], unended⟩
    · exact ⟨text ++ [c], 0, by simp, by simpa [Unended] using newline⟩

theorem exists_eq_newlines_append (text : Text) :
    ∃ count rest, text = List.replicate count '\n' ++ rest ∧ rest.head? ≠ some '\n' := by
  induction text with
  | nil => exact ⟨0, [], rfl, by simp⟩
  | cons c text ih =>
    by_cases newline : c = '\n'
    · obtain ⟨count, rest, rfl, other⟩ := ih
      exact ⟨count + 1, rest, by rw [newline, List.replicate_succ, List.cons_append], other⟩
    · exact ⟨0, c :: text, rfl, by simpa using newline⟩

end Text

namespace Listing

open Pattern

section

variable {pattern : Pattern Empty} {budget offset : Nat} {before rest : Text}

/-- The text behind a place with a text in the place of each match. -/
def replacedFrom (pattern : Pattern Empty) (replacement : Text) (budget offset : Nat)
    (before text : Text) : Text :=
  (pattern.segmentsFrom budget ⟨offset, before, text⟩).flatMap
    (Segment.replaced fun _ => replacement)

theorem replacedFrom_nil (replacement : Text) :
    replacedFrom pattern replacement budget offset before [] = [] := by
  rw [replacedFrom, segmentsFrom_of_ended pattern budget rfl]
  rfl

theorem replacedFrom_of_outcomes {c : Char} (replacement : Text)
    (nowhere : pattern.outcomes ⟨⟨offset, before, c :: rest⟩, []⟩ = []) :
    replacedFrom pattern replacement (budget + 1) offset before (c :: rest) =
      c :: replacedFrom pattern replacement budget (offset + 1) (c :: before) rest := by
  rw [replacedFrom, segmentsFrom_of_next pattern budget rfl, nowhere]
  rfl

theorem replacedFrom_of_leads {c : Char} {stop : Cursor} (replacement : Text)
    (leads : pattern.Leads ⟨⟨offset, before, c :: rest⟩, []⟩ ⟨stop, []⟩) :
    replacedFrom pattern replacement (budget + 1) offset before (c :: rest) =
      replacement ++
        replacedFrom pattern replacement budget stop.offset stop.before stop.after := by
  rw [replacedFrom, segmentsFrom_of_next pattern budget rfl, leads]
  rfl

theorem outcomes_newlines_of_ne {c : Char} (other : c ≠ '\n') :
    newlines.outcomes ⟨⟨offset, before, c :: rest⟩, []⟩ = [] :=
  outcomes_seq_eq_nil fun later member => by
    obtain ⟨_, next, -⟩ := of_mem_char member
    exact absurd (List.cons.inj next).1 other

/-- A single newline is no run. -/
theorem outcomes_newlines_single (alone : rest.head? ≠ some '\n') :
    newlines.outcomes ⟨⟨offset, before, '\n' :: rest⟩, []⟩ = [] :=
  outcomes_seq_eq_nil fun later member => by
    obtain ⟨others, next, rfl⟩ := of_mem_char member
    obtain ⟨-, rfl⟩ := List.cons.inj next
    refine outcomes_seq_eq_nil fun stop inside => ?_
    obtain ⟨more, again, -⟩ := of_mem_char inside
    exact absurd (congrArg List.head? again) alone

theorem leads_newlines (count : Nat) (alone : rest.head? ≠ some '\n') :
    newlines.Leads ⟨⟨offset, before, '\n' :: '\n' :: (List.replicate count '\n' ++ rest)⟩, []⟩
      ⟨⟨offset + 1 + 1 + count, List.replicate count '\n' ++ '\n' :: '\n' :: before, rest⟩,
        []⟩ := by
  have inRun : ∀ c ∈ List.replicate count '\n', Text.isNewline c = true := fun c member => by
    rw [List.eq_of_mem_replicate member]
    rfl
  have stops : ∀ d ∈ rest.head?, Text.isNewline d = false := fun d here => by
    rw [Text.isNewline, beq_eq_false_iff_ne]
    rintro rfl
    exact alone here
  have run := @leads_many_of_head? Empty _ [] (offset + 1 + 1) ('\n' :: '\n' :: before) rest _ _
    inRun stops
  rw [List.length_replicate, List.reverse_replicate] at run
  exact (leads_char '\n').seq ((leads_char '\n').seq run)

end

/-- The newlines as they are spaced within a list. -/
def gap : Text :=
  "\n\n\n".toList

/-- A text and what comes of it when each run of newlines in it is given the same length. -/
inductive Widens : Text → Text → Prop
  | nil : Widens [] []
  | char {c : Char} {text wide : Text} (other : c ≠ '\n') (later : Widens text wide) :
    Widens (c :: text) (c :: wide)
  | single {text wide : Text} (alone : text.head? ≠ some '\n') (later : Widens text wide) :
    Widens ('\n' :: text) ('\n' :: wide)
  | run (count : Nat) {text wide : Text} (alone : text.head? ≠ some '\n')
    (later : Widens text wide) :
    Widens ('\n' :: '\n' :: (List.replicate count '\n' ++ text)) (gap ++ wide)

theorem exists_widens (text : Text) : ∃ wide, Widens text wide := by
  induction size : text.length using Nat.strongRecOn generalizing text with
  | ind bound ih =>
    match text, size with
    | [], _ => exact ⟨[], .nil⟩
    | c :: rest, size =>
      by_cases newline : c = '\n'
      · subst newline
        obtain ⟨run, tail, rfl, alone⟩ := Text.exists_eq_newlines_append rest
        rw [List.length_cons, List.length_append] at size
        obtain ⟨wide, widens⟩ := ih tail.length (by omega) tail rfl
        cases run with
        | zero => exact ⟨_, .single alone widens⟩
        | succ run => exact ⟨_, .run run alone widens⟩
      · obtain ⟨wide, widens⟩ := ih rest.length (by simp [← size]) rest rfl
        exact ⟨_, .char newline widens⟩

namespace Widens

variable {text wide : Text}

theorem replacedFrom_eq (widens : Widens text wide) (budget offset : Nat) (before : Text)
    (room : text.length ≤ budget) : replacedFrom newlines gap budget offset before text = wide := by
  induction widens generalizing budget offset before with
  | nil => exact replacedFrom_nil gap
  | char other _ ih =>
    obtain ⟨budget, rfl⟩ := Nat.exists_eq_succ_of_ne_zero (Nat.ne_of_gt (Nat.zero_lt_of_lt room))
    rw [replacedFrom_of_outcomes gap (outcomes_newlines_of_ne other),
      ih _ _ _ (Nat.le_of_succ_le_succ room)]
  | single alone _ ih =>
    obtain ⟨budget, rfl⟩ := Nat.exists_eq_succ_of_ne_zero (Nat.ne_of_gt (Nat.zero_lt_of_lt room))
    rw [replacedFrom_of_outcomes gap (outcomes_newlines_single alone),
      ih _ _ _ (Nat.le_of_succ_le_succ room)]
  | @run count text wide alone _ ih =>
    obtain ⟨budget, rfl⟩ := Nat.exists_eq_succ_of_ne_zero (Nat.ne_of_gt (Nat.zero_lt_of_lt room))
    have less : text.length ≤ budget := by
      simp only [List.length_cons, List.length_append] at room
      omega
    rw [replacedFrom_of_leads gap (leads_newlines count alone), ih _ _ _ less]

theorem replace_eq (widens : Widens text wide) : newlines.replace (fun _ => gap) text = wide :=
  widens.replacedFrom_eq _ 0 [] (Nat.le_refl _)

theorem ne_nil (widens : Widens text wide) (some : text ≠ []) : wide ≠ [] := by
  cases widens with
  | nil => exact absurd rfl some
  | char | single | run => exact List.cons_ne_nil _ _

/-- A text that does not end in a newline does not come to end in one. -/
theorem unended (widens : Widens text wide) (unended : text.Unended) : wide.Unended := by
  induction widens with
  | nil => exact unended
  | @char c text wide other later ih =>
    have behind := ih (.of_append [c] unended)
    cases wide with
    | nil => simpa [Text.Unended] using other
    | cons d wide => exact behind.append (List.cons_ne_nil d wide) [c]
  | single _ later ih =>
    have more := later.ne_nil (@Text.Unended.ne_newlines _ 0 unended)
    exact (ih (.of_append ['\n'] unended)).append more ['\n']
  | run count _ later ih =>
    have more := later.ne_nil (@Text.Unended.ne_newlines _ (count + 1) unended)
    have behind := ih (.of_append ('\n' :: '\n' :: List.replicate count '\n') unended)
    exact behind.append more gap

/-- Newlines behind such a text are widened on their own. -/
theorem append_newlines (widens : Widens text wide) (unended : text.Unended) (count : Nat) :
    Widens (text ++ List.replicate (count + 1) '\n')
      (wide ++ if count = 0 then ['\n'] else gap) := by
  induction widens with
  | nil =>
    cases count with
    | zero => exact .single (by simp) .nil
    | succ count =>
      have run := Widens.run count (by simp) .nil
      rwa [List.append_nil, List.append_nil, ← List.replicate_succ, ← List.replicate_succ] at run
  | @char c _ _ other _ ih => exact .char other (ih (.of_append [c] unended))
  | single alone _ ih =>
    have more := @Text.Unended.ne_newlines _ 0 unended
    exact .single (by rwa [← List.head?_append_of_ne_nil _ more] at alone)
      (ih (.of_append ['\n'] unended))
  | run run alone _ ih =>
    have more := @Text.Unended.ne_newlines _ (run + 1) unended
    have behind := ih (.of_append ('\n' :: '\n' :: List.replicate run '\n') unended)
    rw [List.cons_append, List.cons_append, List.append_assoc, List.append_assoc]
    exact .run run (by rwa [← List.head?_append_of_ne_nil _ more] at alone) behind

end Widens

theorem outcomes_finalNewlines {offset : Nat} {before text : Text} (more : text ≠ [])
    (unended : text.Unended) (count : Nat) :
    finalNewlines.outcomes ⟨⟨offset, before, text ++ List.replicate count '\n'⟩, []⟩ = [] := by
  refine outcomes_seq_eq_nil fun later member => if_neg fun atEnd => ?_
  obtain ⟨first, one, others⟩ := List.mem_flatMap.1 member
  obtain ⟨rest, next, rfl⟩ := of_mem_char one
  obtain ⟨passed, passes, inRun⟩ := exists_passes_of_mem_many1 others
  have whole : text ++ List.replicate count '\n' = '\n' :: passed := by
    rw [show text ++ List.replicate count '\n' = '\n' :: rest from next]
    have after : rest = passed ++ later.cursor.after := passes.after
    rw [after, List.isEmpty_iff.1 atEnd, List.append_nil]
  obtain ⟨c, last⟩ := Option.ne_none_iff_exists'.1 (mt List.getLast?_eq_none_iff.1 more)
  refine unended c last ?_
  have inside : c ∈ '\n' :: passed := whole ▸ List.mem_append_left _ (List.mem_of_getLast? last)
  rcases List.mem_cons.1 inside with newline | run
  · exact newline
  · exact eq_of_beq (inRun c run)

theorem replacedFrom_finalNewlines (text : Text) (unended : text.Unended)
    (count budget offset : Nat) (before : Text) (room : text.length < budget) :
    replacedFrom finalNewlines ['\n'] budget offset before
      (text ++ List.replicate (count + 1) '\n') = text ++ ['\n'] := by
  obtain ⟨budget, rfl⟩ := Nat.exists_eq_succ_of_ne_zero (Nat.ne_of_gt (Nat.zero_lt_of_lt room))
  induction text generalizing budget offset before with
  | nil =>
    cases count with
    | zero =>
      have alone : finalNewlines.outcomes ⟨⟨offset, before, ['\n']⟩, []⟩ = [] := by
        rw [finalNewlines, outcomes, outcomes_newlines_single (by simp)]
        rfl
      exact (replacedFrom_of_outcomes _ alone).trans (congrArg _ (replacedFrom_nil _))
    | succ count =>
      have run := @leads_newlines offset before [] count (by simp)
      rw [List.append_nil] at run
      exact (replacedFrom_of_leads _ (run.seq (leads_place rfl))).trans
        (congrArg (_ ++ ·) (replacedFrom_nil _))
  | cons c rest ih =>
    cases budget with
    | zero => simp at room
    | succ budget =>
      have nowhere := @outcomes_finalNewlines offset before _ (List.cons_ne_nil c rest) unended
        (count + 1)
      exact (replacedFrom_of_outcomes _ nowhere).trans (congrArg _ (ih
        (Text.Unended.of_append [c] unended) _ _ budget (Nat.lt_of_succ_lt_succ room)))

theorem replacedFrom_finalNewlines_of_unended {text : Text} (unended : text.Unended)
    (budget offset : Nat) (before : Text) :
    replacedFrom finalNewlines ['\n'] budget offset before text = text := by
  induction text generalizing budget offset before with
  | nil => exact replacedFrom_nil _
  | cons c rest ih =>
    cases budget with
    | zero => simp [replacedFrom, segmentsFrom, List.flatMap_map, Segment.replaced]
    | succ budget =>
      have nowhere := @outcomes_finalNewlines offset before _ (List.cons_ne_nil c rest) unended 0
      rw [List.replicate_zero, List.append_nil] at nowhere
      rw [replacedFrom_of_outcomes _ nowhere, ih (.of_append [c] unended)]

/-- However many newlines stand behind a list, the evenly spaced text has one there. -/
theorem evenlySpaced_append_newlines {text : Text} (unended : text.Unended) (count : Nat) :
    evenlySpaced (text ++ List.replicate (count + 1) '\n') = evenlySpaced text ++ ['\n'] := by
  obtain ⟨wide, widens⟩ := exists_widens text
  have still := widens.unended unended
  have alone : evenlySpaced text = wide := by
    change finalNewlines.replace _ (newlines.replace (fun _ => gap) text) = wide
    rw [widens.replace_eq]
    exact replacedFrom_finalNewlines_of_unended still _ 0 []
  change finalNewlines.replace _ (newlines.replace (fun _ => gap) _) = _
  rw [alone, (widens.append_newlines unended count).replace_eq]
  split
  · exact replacedFrom_finalNewlines wide still 0 _ 0 [] (by simp)
  · exact replacedFrom_finalNewlines wide still 2 _ 0 [] (by simp [gap])

/-- The evenly spaced text of a list ends in one newline for however many there are. -/
theorem evenlySpaced_append_newline {list : Text} (some : list ≠ []) (ended : list.Ended) :
    evenlySpaced (list ++ ['\n']) = evenlySpaced list := by
  obtain ⟨text, count, rfl, unended⟩ := Text.exists_eq_append_newlines list
  cases count with
  | zero =>
    rw [List.replicate_zero, List.append_nil] at some ended
    obtain ⟨c, last⟩ := Option.ne_none_iff_exists'.1 (mt List.getLast?_eq_none_iff.1 some)
    exact absurd (ended c last) (unended c last)
  | succ count =>
    rw [List.append_assoc, ← List.replicate_succ', evenlySpaced_append_newlines unended,
      evenlySpaced_append_newlines unended]

end Listing

end Markdown
