import Markdown.Proofs.Listing.Tiling

set_option autoImplicit false

namespace Markdown

open Pattern

section

variable {slot : Type} [DecidableEq slot] {second : Pattern slot} {accepts : Char → Bool}
  {reading stop : Reading slot}

/-- A shortest run stops at the latest at a place where the rest goes on. -/
theorem Pattern.exists_of_leads_few_seq {passed : Text} {last : Cursor}
    (passes : reading.cursor.Passes passed last) (inClass : ∀ c ∈ passed, accepts c = true)
    (goes : second.outcomes ⟨last, reading.captures⟩ ≠ [])
    (leads : ((Pattern.few accepts).seq second).Leads reading stop) :
    ∃ middle more, stop ∈ second.outcomes middle ∧ middle.cursor.after = more ++ last.after := by
  induction passed generalizing reading with
  | nil =>
    have here : last = reading.cursor := passes.eq_of_nil
    rw [here] at goes
    rw [Leads, outcomes_few_seq, List.head?_append, List.head?_eq_some_head goes] at leads
    obtain rfl := Option.some.inj leads
    exact ⟨reading, [], List.head_mem goes, by rw [here, List.nil_append]⟩
  | cons c passed ih =>
    obtain ⟨here, others⟩ := List.forall_mem_cons.1 inClass
    have next : reading.cursor.after = c :: (passed ++ last.after) := passes.after
    have onward : (reading.cursor.past c (passed ++ last.after)).Passes passed last := by
      refine ⟨?_, ?_, rfl⟩
      · simpa [Cursor.past, Nat.add_assoc, Nat.add_comm 1] using passes.offset
      · simpa [Cursor.past] using passes.before
    rw [Leads, outcomes_few_seq, List.head?_append, Option.or_eq_some_iff] at leads
    rcases leads with taken | ⟨-, later⟩
    · exact ⟨reading, c :: passed, List.mem_of_mem_head? taken, next⟩
    · rw [next] at later
      simp only [here, if_true] at later
      exact @ih ⟨reading.cursor.past c (passed ++ last.after), reading.captures⟩ onward others goes
        later

end

namespace Listing

/-- Text that is neither indented nor an item. -/
def otherTexts : Language Char :=
  {text | text ∉ markerGaps * ⊤ ∧ ∃ c rest, text = c :: rest ∧ Unicode.isSpace c = false}

variable {rest : Text}

/-- The list may end behind an empty line in front of such text. -/
theorem outcomes_otherText_ne_nil (other : rest ∈ otherTexts) {reading : Reading Part}
    (next : reading.cursor.after = "\n\n".toList ++ rest) : otherText.outcomes reading ≠ [] := by
  obtain ⟨item, c, more, rfl, ink⟩ := other
  obtain ⟨middle, newlines, stands⟩ :=
    (reads_literal "\n\n".toList reading).2 ⟨_, rfl, c :: more, rfl, next.symm⟩
  have here : middle.cursor.after = c :: more := Eq.symm stands
  have run : middle ∈ (Pattern.many Text.isNewline).outcomes middle :=
    List.mem_map_of_mem (f := fun cursor => (⟨cursor, middle.captures⟩ : Reading Part))
      (mem_stops_of_passes (.nothing middle.cursor) (by simp))
  have before : middle ∈ (Pattern.before notSpace).outcomes middle := by
    refine mem_outcomes_place_iff.2 ⟨rfl, ?_⟩
    simp [Cursor.precedes, here, notSpace, ink]
  have refused : middle ∈ (Pattern.ahead false
      (.seq (.many Text.isBlank) markerGap)).outcomes middle := by
    refine mem_outcomes_notAhead_iff.2 ⟨rfl, by_contra fun some => ?_⟩
    obtain ⟨blanks, inClass, marked, stands, same⟩ :=
      ((reads_many.seq (reads_markerGap ⊤)).outcomes_ne_nil_iff middle).1 some
    have whole : blanks ++ marked = c :: more := same.trans here
    cases blanks with
    | nil => exact item (whole ▸ stands)
    | cons b blanks =>
      obtain ⟨rfl, -⟩ := List.cons.inj whole
      have blank := inClass b List.mem_cons_self
      rw [isBlank_of_ink ink] at blank
      cases blank
  exact List.ne_nil_of_mem (List.mem_flatMap.2 ⟨middle, newlines, List.mem_flatMap.2
    ⟨middle, run, List.mem_flatMap.2 ⟨middle, before, refused⟩⟩⟩)

/-- At its end a list takes newlines only. -/
theorem exists_newlines_of_mem_listEnd {reading later : Reading Part}
    (member : later ∈ listEnd.outcomes reading) :
    ∃ passed, reading.cursor.Passes passed later.cursor ∧ ∀ c ∈ passed, c = '\n' := by
  have run : ∀ {early late : Reading Part}, late ∈ (Pattern.many Text.isNewline).outcomes early →
      ∃ passed, early.cursor.Passes passed late.cursor ∧ ∀ c ∈ passed, c = '\n' := by
    intro early late member
    obtain ⟨stop, reached, rfl⟩ := List.mem_map.1 member
    obtain ⟨passed, passes, inRun⟩ := Cursor.exists_passes_of_mem_stops reached
    exact ⟨passed, passes, fun c inside => eq_of_beq (inRun c inside)⟩
  rcases List.mem_append.1 member with ended | other
  · obtain ⟨middle, newlines, place⟩ := List.mem_flatMap.1 ended
    obtain ⟨rfl, -⟩ := mem_outcomes_place_iff.1 place
    exact run newlines
  · obtain ⟨first, two, behind⟩ := List.mem_flatMap.1 other
    obtain ⟨second, newlines, places⟩ := List.mem_flatMap.1 behind
    obtain ⟨third, before, refused⟩ := List.mem_flatMap.1 places
    obtain ⟨rfl, -⟩ := mem_outcomes_place_iff.1 before
    obtain ⟨rfl, -⟩ := mem_outcomes_notAhead_iff.1 refused
    obtain ⟨_, rfl, passes⟩ := exists_passes_of_reads (fun _ => reads_literal _) two
    obtain ⟨passed, onward, inRun⟩ := run newlines
    exact ⟨_, passes.trans onward, List.forall_mem_append.2 ⟨by decide, inRun⟩⟩

/-- Behind the end of a list all of the other text is left. -/
theorem suffix_of_mem_listEnd (other : rest ∈ otherTexts) {more : Text} {reading later : Reading Part}
    (next : reading.cursor.after = more ++ rest) (member : later ∈ listEnd.outcomes reading) :
    rest <:+ later.cursor.after := by
  obtain ⟨-, c, behind, rfl, ink⟩ := other
  obtain ⟨passed, passes, newlines⟩ := exists_newlines_of_mem_listEnd member
  rcases List.append_eq_append_iff.1 (next.symm.trans passes.after) with
    ⟨within, rfl, same⟩ | ⟨within, rfl, same⟩
  · cases within with
    | nil => exact ⟨[], same⟩
    | cons d within =>
      obtain ⟨rfl, -⟩ := List.cons.inj same
      rw [newlines c (by simp)] at ink
      exact absurd ink (by decide)
  · exact ⟨within, same.symm⟩

/-- The text of a list stops at the latest behind an empty line in front of other text. -/
theorem suffix_of_leads (other : rest ∈ otherTexts) {c : Char} {more : Text}
    {reading stop : Reading Part}
    (next : reading.cursor.after = c :: more ++ ("\n\n".toList ++ rest))
    (leads : ((Pattern.few1 anything).seq listEnd).Leads reading stop) :
    rest <:+ stop.cursor.after := by
  have regrouped : ((Pattern.few1 anything).seq listEnd).outcomes reading =
      ((Pattern.one anything).seq ((Pattern.few anything).seq listEnd)).outcomes reading :=
    List.flatMap_assoc
  rw [Leads, regrouped] at leads
  obtain ⟨first, one, onward⟩ := Leads.exists_of_seq leads
  obtain ⟨_, ⟨d, rfl, -⟩, step⟩ := exists_passes_of_reads (fun _ => reads_one) one
  obtain ⟨-, stands⟩ := List.cons.inj (step.after.symm.trans next)
  obtain ⟨last, passes, ahead⟩ := exists_passes_of_after stands
  have goes : listEnd.outcomes ⟨last, first.captures⟩ ≠ [] :=
    List.append_ne_nil_of_right_ne_nil _ (outcomes_otherText_ne_nil other ahead)
  obtain ⟨middle, further, member, after⟩ :=
    exists_of_leads_few_seq passes (fun _ _ => rfl) goes onward
  rw [ahead, ← List.append_assoc] at after
  exact suffix_of_mem_listEnd other after member

theorem newline_not_mem_of_lone {front : Text} (marked : front ∈ lone) : '\n' ∉ front := by
  obtain ⟨line, blanks, bare, inClass, rfl⟩ := exists_bare_of_mem_lone marked
  intro member
  rcases List.mem_append.1 member with inLine | blank
  · exact bare.newline_not_mem inLine
  · exact absurd (inClass _ blank) (by decide)

theorem getLast?_of_mem_lone {front : Text} (marked : front ∈ lone) :
    ∃ b ∈ front.getLast?, Text.isBlank b = true := by
  obtain ⟨indent, -, _, ⟨m, -, run, ⟨some, inRun⟩, rfl⟩, rfl⟩ := marked
  refine ⟨run.getLast some, ?_, inRun _ (List.getLast_mem some)⟩
  simp [List.getLast?_append, List.getLast?_eq_some_getLast some]

/-- A list takes nothing of other text behind an empty line, unless all that stands in front of the
empty line is the marker of the first item. -/
theorem list_prefix_of_other {inList : Bool} {text : Text} {found : Match Part}
    (member : found ∈ (if inList then nestedList else topList).matches? text) {front : Text}
    (filled : front ∉ lone) (other : rest ∈ otherTexts)
    (cut : found.get .list ++ found.stop.cursor.after = front ++ ("\n\n".toList ++ rest)) :
    found.get .list <+: front ++ "\n\n".toList := by
  obtain ⟨reading, body, passes⟩ := exists_listBody_of_mem_matches? member
  obtain ⟨-, marked, alone, middle, inner, early, stop, leads⟩ := exists_of_leads_listBody body
  have whole : marked ++ middle.cursor.after = front ++ ("\n\n".toList ++ rest) := by
    rw [← early.after, passes.after, cut]
  -- Something of the text in front of the empty line stands behind the marker.
  obtain ⟨c, more, after⟩ : ∃ c more, middle.cursor.after = c :: more ++ ("\n\n".toList ++ rest) := by
    rcases List.append_eq_append_iff.1 whole with ⟨within, rfl, same⟩ | ⟨within, rfl, same⟩
    · cases within with
      | nil => exact absurd (by simpa using alone) filled
      | cons c more => exact ⟨c, more, same⟩
    · cases within with
      | nil => exact absurd (by simpa using alone) filled
      | cons c more =>
        have newline : c = '\n' := (List.cons.inj same).1.symm
        subst newline
        exact absurd (List.mem_append_right _ List.mem_cons_self) (newline_not_mem_of_lone alone)
  obtain ⟨between, same⟩ := suffix_of_leads other after leads
  refine ⟨between, (List.append_left_inj rest).1 ?_⟩
  rw [List.append_assoc, same, stop, cut, List.append_assoc]

/-- A list of one item, an empty line and a paragraph. -/
theorem list_prefix_of_other_item :
    ∃ found ∈ topList.matches? "* a\n\nb".toList,
      "* a".toList ∉ lone ∧ "b".toList ∈ otherTexts ∧
        found.get .list ++ found.stop.cursor.after = "* a".toList ++ ("\n\n".toList ++ "b".toList) ∧
        found.get .list <+: "* a".toList ++ "\n\n".toList := by
  have filled : "* a".toList ∉ lone := fun marked => by
    obtain ⟨c, last, blank⟩ := getLast?_of_mem_lone marked
    cases last
    cases blank
  have unmarked : "b".toList ∉ markerGaps * ⊤ := fun begins => by
    obtain ⟨later, member, -⟩ := (reads_markerGap ⊤ ⟨⟨0, [], "b".toList⟩, []⟩).2 begins
    cases member
  have other : "b".toList ∈ otherTexts := ⟨unmarked, 'b', [], rfl, by decide⟩
  obtain ⟨found, matched⟩ : ∃ found, topList.matches? "* a\n\nb".toList = [found] :=
    List.length_eq_one_iff.1 (by decide)
  have member : found ∈ topList.matches? "* a\n\nb".toList := matched ▸ List.mem_singleton_self _
  have cuts : (topList.matches? "* a\n\nb".toList).map
      (fun found => found.get .list ++ found.stop.cursor.after) = ["* a\n\nb".toList] := by
    decide
  rw [matched] at cuts
  have cut := List.singleton_inj.1 cuts
  exact ⟨found, member, filled, other, cut,
    @list_prefix_of_other _ false _ _ member _ filled other cut⟩

/-- Where the first item is empty the list goes on behind the empty line. -/
example : (topList.matches? "* \n\nb".toList).map (·.get .list) = ["* \n\nb".toList] ∧
    (topList.matches? "* a\n\nb".toList).map (·.get .list) = ["* a\n\n".toList] := by
  decide

end Listing

end Markdown
