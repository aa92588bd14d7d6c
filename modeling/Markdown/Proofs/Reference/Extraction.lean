import Markdown.Proofs.Reference.Opening

set_option autoImplicit false

namespace Markdown

/-- The place in the text belongs to the match or is the one behind it. -/
def Match.covers {slot : Type} (found : Match slot) (place : Nat) : Bool :=
  decide (found.offset ≤ place ∧ place ≤ found.offset + found.text.length)

/-- The match begins and ends where lines of the text do. -/
def Match.IsLinesOf {slot : Type} (found : Match slot) (text : Text) : Prop :=
  ∃ early late : Text, text = early ++ (found.text ++ late) ∧ early.length = found.offset ∧
    (early = [] ∨ early.getLast? = some '\n') ∧ (late = [] ∨ late.head? = some '\n')

namespace Definition

open Pattern

theorem atLineStart_past (cursor : Cursor) (c : Char) (rest : Text) :
    (cursor.past c rest).atLineStart = Text.isNewline c := rfl

theorem after_mem_lineEnds {reading later : Reading Part}
    (member : later ∈ definition.outcomes reading) : later.cursor.after ∈ lineEnds := by
  rw [definition, outcomes_sequence_cut 11 (by decide)] at member
  obtain ⟨middle, -, last⟩ := List.mem_flatMap.1 member
  have last : later ∈ Pattern.lineEnd.outcomes middle := last
  have same : later = middle := by
    rw [lineEnd, outcomes] at last
    split at last
    · exact List.mem_singleton.1 last
    · cases last
  rw [← same] at last
  exact (reads_lineEnd later).1 ⟨later, last, trivial⟩

/-- No definition begins at a newline. -/
theorem newline_not_mem_opening (rest : Text) : '\n' :: rest ∉ opening := by
  intro opens
  obtain ⟨front, labelled, target, -, ending, -, cut⟩ := mem_opening_iff.1 opens
  obtain ⟨blanks, label, rfl, -, inClass, -, -⟩ := mem_labelFront_iff.1 labelled
  cases blanks with
  | nil => cases cut
  | cons c blanks =>
    obtain ⟨rfl, -⟩ := List.cons.inj cut
    exact absurd (inClass '\n' List.mem_cons_self) (by decide)

theorem outcomes_definition_of_newline {cursor : Cursor} {rest : Text}
    (next : cursor.after = '\n' :: rest) : definition.outcomes ⟨cursor, []⟩ = [] := by
  by_contra some
  obtain ⟨-, opens⟩ := (outcomes_definition_ne_nil_iff _).1 some
  exact newline_not_mem_opening rest (next ▸ opens)

/-- From a place on, these definitions are found and this text is kept. -/
inductive Cuts : Cursor → List (Match Part) → Text → Prop
  | ended {cursor : Cursor} (none : cursor.after = []) : Cuts cursor [] []
  | keep {cursor : Cursor} {c : Char} {rest kept : Text} {found : List (Match Part)}
      (next : cursor.after = c :: rest) (nowhere : definition.outcomes ⟨cursor, []⟩ = [])
      (later : Cuts (cursor.past c rest) found kept) : Cuts cursor found (c :: kept)
  | drop {cursor : Cursor} {stop : Reading Part} {rest kept : Text} {found : List (Match Part)}
      (leads : definition.Leads ⟨cursor, []⟩ stop) (next : stop.cursor.after = '\n' :: rest)
      (later : Cuts (stop.cursor.past '\n' rest) found kept) :
      Cuts cursor (⟨cursor, stop⟩ :: found) kept
  | last {cursor : Cursor} {stop : Reading Part} (leads : definition.Leads ⟨cursor, []⟩ stop)
      (none : stop.cursor.after = []) : Cuts cursor [⟨cursor, stop⟩] []

variable {cursor : Cursor} {stop : Reading Part} {found : List (Match Part)} {kept : Text}

theorem length_after_lt_of_leads (leads : definition.Leads ⟨cursor, []⟩ stop) :
    stop.cursor.after.length < cursor.after.length :=
  length_after_lt rfl (List.mem_of_mem_head? leads)

theorem exists_cuts (cursor : Cursor) : ∃ found kept, Cuts cursor found kept := by
  generalize size : cursor.after.length = count
  induction count using Nat.strong_induction_on generalizing cursor with
  | _ count ih =>
    cases here : (definition.outcomes ⟨cursor, []⟩).head? with
    | none =>
      cases next : cursor.after with
      | nil => exact ⟨[], [], .ended next⟩
      | cons c rest =>
        obtain ⟨found, kept, later⟩ :=
          ih rest.length (by simp [← size, next]) (cursor.past c rest) rfl
        exact ⟨found, c :: kept, .keep next (List.head?_eq_none_iff.1 here) later⟩
    | some stop =>
      have shorter := length_after_lt_of_leads here
      rcases after_mem_lineEnds (List.mem_of_mem_head? here) with none | ⟨rest, next⟩
      · exact ⟨_, _, .last here none⟩
      · have less : rest.length < count := by
          rw [next, List.length_cons] at shorter
          omega
        obtain ⟨found, kept, later⟩ := ih _ less (stop.cursor.past '\n' rest) rfl
        exact ⟨_, _, .drop here next later⟩

theorem segmentsFrom_of_leads {pattern : Pattern Part} {budget : Nat}
    (leads : pattern.Leads ⟨cursor, []⟩ stop) (takes : pattern.takesSome = true) :
    pattern.segmentsFrom (budget + 1) cursor =
      .found ⟨cursor, stop⟩ :: pattern.segmentsFrom budget stop.cursor := by
  obtain ⟨c, rest, next⟩ := List.exists_cons_of_ne_nil
    (after_ne_nil_of_takesSome takes (List.mem_of_mem_head? leads))
  rw [segmentsFrom_of_next pattern budget next, show (pattern.outcomes _).head? = _ from leads]

theorem segmentsFrom_of_nowhere {pattern : Pattern Part} {budget : Nat} {c : Char} {rest : Text}
    (next : cursor.after = c :: rest) (nowhere : pattern.outcomes ⟨cursor, []⟩ = []) :
    pattern.segmentsFrom (budget + 1) cursor =
      .plain c :: pattern.segmentsFrom budget (cursor.past c rest) := by
  rw [segmentsFrom_of_next pattern budget next, nowhere, List.head?_nil]

/-- The definitions found are the matches of a definition. -/
theorem Cuts.found_eq (cuts : Cuts cursor found kept) {budget : Nat}
    (room : cursor.after.length ≤ budget) :
    (definition.segmentsFrom budget cursor).filterMap Segment.match? = found := by
  induction cuts generalizing budget with
  | ended none => rw [segmentsFrom_of_ended definition budget none, List.filterMap_nil]
  | keep next nowhere _ ih =>
    rw [next, List.length_cons] at room
    obtain ⟨budget, rfl⟩ := Nat.exists_eq_add_of_le' (Nat.le_of_add_left_le room)
    rw [segmentsFrom_of_nowhere next nowhere]
    exact ih (Nat.le_of_add_le_add_right room)
  | @drop cursor stop rest _ _ leads next _ ih =>
    have shorter := length_after_lt_of_leads leads
    rw [next, List.length_cons] at shorter
    obtain ⟨budget, rfl⟩ : ∃ more, budget = more + 2 := Nat.exists_eq_add_of_le' (by omega)
    rw [segmentsFrom_of_leads leads rfl,
      segmentsFrom_of_nowhere next (outcomes_definition_of_newline next)]
    exact congrArg (_ :: ·) (ih (show rest.length ≤ budget by omega))
  | last leads none =>
    have shorter := length_after_lt_of_leads leads
    obtain ⟨budget, rfl⟩ : ∃ more, budget = more + 1 := Nat.exists_eq_add_of_le' (by omega)
    rw [segmentsFrom_of_leads leads rfl, segmentsFrom_of_ended definition _ none]
    rfl

theorem leads_definitionLine_of_newline {rest : Text} (leads : definition.Leads ⟨cursor, []⟩ stop)
    (next : stop.cursor.after = '\n' :: rest) :
    definitionLine.Leads ⟨cursor, []⟩ ⟨stop.cursor.past '\n' rest, stop.captures⟩ := by
  obtain ⟨⟨offset, before, after⟩, captures⟩ := stop
  obtain rfl : after = '\n' :: rest := next
  exact leads.seq (leads_char '\n').optional

theorem leads_definitionLine_of_ended (leads : definition.Leads ⟨cursor, []⟩ stop)
    (none : stop.cursor.after = []) : definitionLine.Leads ⟨cursor, []⟩ stop := by
  refine leads.seq (leads_optional ?_)
  rw [Pattern.char, outcomes, none]

/-- Extraction finds the same definitions with the same parts, and keeps what is not theirs. -/
theorem Cuts.definitionLine_eq (cuts : Cuts cursor found kept) {budget : Nat}
    (room : cursor.after.length ≤ budget) :
    ((definitionLine.segmentsFrom budget cursor).filterMap Segment.match?).map (·.stop.captures) =
        found.map (·.stop.captures) ∧
      (definitionLine.segmentsFrom budget cursor).flatMap (Segment.replaced fun _ => []) = kept := by
  induction cuts generalizing budget with
  | ended none =>
    rw [segmentsFrom_of_ended definitionLine budget none]
    exact ⟨rfl, rfl⟩
  | keep next nowhere _ ih =>
    rw [next, List.length_cons] at room
    obtain ⟨budget, rfl⟩ := Nat.exists_eq_add_of_le' (Nat.le_of_add_left_le room)
    rw [segmentsFrom_of_nowhere next (by
      rw [definitionLine, outcomes, nowhere, List.flatMap_nil])]
    obtain ⟨sameFound, sameKept⟩ := ih (Nat.le_of_add_le_add_right room)
    exact ⟨sameFound, congrArg (_ :: ·) sameKept⟩
  | @drop cursor stop rest _ _ leads next _ ih =>
    have shorter := length_after_lt_of_leads leads
    rw [next, List.length_cons] at shorter
    obtain ⟨budget, rfl⟩ : ∃ more, budget = more + 1 := Nat.exists_eq_add_of_le' (by omega)
    rw [segmentsFrom_of_leads (leads_definitionLine_of_newline leads next) rfl]
    obtain ⟨sameFound, sameKept⟩ := ih (show rest.length ≤ budget by omega)
    exact ⟨congrArg (_ :: ·) sameFound, sameKept⟩
  | last leads none =>
    have shorter := length_after_lt_of_leads leads
    obtain ⟨budget, rfl⟩ : ∃ more, budget = more + 1 := Nat.exists_eq_add_of_le' (by omega)
    rw [segmentsFrom_of_leads (leads_definitionLine_of_ended leads none) rfl,
      segmentsFrom_of_ended definitionLine _ none]
    exact ⟨rfl, rfl⟩

/-- A line with which no definition begins is kept. -/
theorem Cuts.of_line {offset : Nat} {before line rest : Text} (newline : '\n' ∉ line)
    (closed : Cursor.atLineStart ⟨offset, before, line ++ '\n' :: rest⟩ = true →
      line ++ '\n' :: rest ∉ opening)
    (later : Cuts ⟨offset + (line.length + 1), '\n' :: (line.reverse ++ before), rest⟩ found kept) :
    Cuts ⟨offset, before, line ++ '\n' :: rest⟩ found (line ++ '\n' :: kept) := by
  induction line generalizing offset before with
  | nil => exact .keep rfl (outcomes_definition_of_newline rfl) later
  | cons c line ih =>
    obtain ⟨other, newline⟩ := List.ne_and_not_mem_of_not_mem_cons newline
    have nowhere : definition.outcomes ⟨⟨offset, before, c :: line ++ '\n' :: rest⟩, []⟩ = [] := by
      by_contra some
      obtain ⟨starts, opens⟩ := (outcomes_definition_ne_nil_iff _).1 some
      exact closed starts opens
    refine .keep rfl nowhere (ih newline (fun starts => ?_) ?_)
    · exact absurd (eq_of_beq starts).symm other
    · simpa [Nat.add_assoc, Nat.add_comm 1] using later

def recordMatch (known : ReferenceTable × List Text) (found : Match Part) :
    ReferenceTable × List Text :=
  Extraction.record known.1 known.2 (found.get .label) (reference found)

/-- Only the captured parts count for what is recorded. -/
theorem foldl_recordMatch {parts others : List (Match Part)} (known : ReferenceTable × List Text)
    (same : parts.map (·.stop.captures) = others.map (·.stop.captures)) :
    parts.foldl recordMatch known = others.foldl recordMatch known := by
  induction parts generalizing others known with
  | nil => rw [List.map_eq_nil_iff.1 same.symm]
  | cons m parts ih =>
    obtain ⟨n, others, rfl, here, later⟩ := List.map_eq_cons_iff.1 same.symm
    have part : ∀ name, m.get? name = n.get? name := fun name => by
      rw [Match.get?, Match.get?, Reading.get?, Reading.get?, here]
    have step : recordMatch known m = recordMatch known n := by
      rw [recordMatch, recordMatch, reference, reference]
      simp only [Match.get, part]
    rw [List.foldl_cons, List.foldl_cons, step, ih _ later.symm]

theorem Cuts.extract_eq {document : Text} (cuts : Cuts (.first document) found kept)
    (table : ReferenceTable) :
    table.extract document =
      ⟨kept, (found.foldl recordMatch (table, [])).1, (found.foldl recordMatch (table, [])).2⟩ := by
  obtain ⟨sameParts, sameKept⟩ := cuts.definitionLine_eq (Nat.le_refl _)
  rw [← foldl_recordMatch _ sameParts, ← sameKept]
  rfl

theorem atLineStart_of_leads (leads : definition.Leads ⟨cursor, []⟩ stop) :
    cursor.atLineStart = true ∧ cursor.after ∈ opening :=
  (outcomes_definition_ne_nil_iff _).1 (List.ne_nil_of_mem (List.mem_of_mem_head? leads))

theorem exists_passes_of_leads (leads : definition.Leads ⟨cursor, []⟩ stop) :
    ∃ passed, cursor.Passes passed stop.cursor :=
  exists_passes_of_mem_outcomes (List.mem_of_mem_head? leads)

theorem stop_offset_eq (leads : definition.Leads ⟨cursor, []⟩ stop) :
    stop.cursor.offset = cursor.offset + (Match.text ⟨cursor, stop⟩).length := by
  obtain ⟨passed, passes⟩ := exists_passes_of_leads leads
  rw [passes.offset, Match.text, passes.upTo_eq]

theorem Cuts.offset_le (cuts : Cuts cursor found kept) : ∀ m ∈ found, cursor.offset ≤ m.offset := by
  induction cuts with
  | ended => simp
  | keep _ _ _ ih => exact fun m inside => Nat.le_of_succ_le (ih m inside)
  | drop leads _ _ ih =>
    refine List.forall_mem_cons.2 ⟨Nat.le_refl _, fun m inside => ?_⟩
    have further := ih m inside
    have same := stop_offset_eq leads
    simp only [Cursor.past] at further
    omega
  | last => simp [Match.offset]

/-- Between two definitions stands at least the newline behind the first. -/
theorem Cuts.pairwise (cuts : Cuts cursor found kept) :
    found.Pairwise fun m n => m.offset + m.text.length < n.offset := by
  induction cuts with
  | ended => exact .nil
  | keep _ _ _ ih => exact ih
  | drop leads _ later ih =>
    refine .cons (fun n inside => ?_) ih
    have further := later.offset_le n inside
    rw [Match.offset, ← stop_offset_eq leads]
    exact further
  | last => exact List.pairwise_singleton _ _

/-- Nothing is left of a match and the place behind it. -/
theorem filter_of_covered {m : Match Part} (member : m ∈ found) {text : Text}
    (within : text.length ≤ m.text.length + 1) :
    ((text.zipIdx m.offset).filter fun entry => !found.any (·.covers entry.2)) = [] := by
  refine List.filter_eq_nil_iff.2 fun entry inside => ?_
  have low := List.le_snd_of_mem_zipIdx inside
  have high := List.snd_lt_add_of_mem_zipIdx inside
  have covered : m.covers entry.2 = true := decide_eq_true ⟨low, by omega⟩
  rw [List.any_eq_true.2 ⟨m, member, covered⟩]
  decide

/-- What is kept is what no definition covers. -/
theorem Cuts.kept_eq (cuts : Cuts cursor found kept) :
    kept = ((cursor.after.zipIdx cursor.offset).filter fun entry =>
      !found.any (·.covers entry.2)).map Prod.fst := by
  induction cuts with
  | ended none => simp [none]
  | @keep cursor c rest kept found next _ later ih =>
    have outside : found.any (·.covers cursor.offset) = false := by
      refine List.any_eq_false.2 fun m inside => ?_
      have further := later.offset_le m inside
      simp only [Cursor.past] at further
      simp only [Match.covers, decide_eq_true_eq]
      omega
    rw [next, List.zipIdx_cons, List.filter_cons, outside, ih]
    rfl
  | @drop cursor stop rest kept found leads next _ ih =>
    obtain ⟨passed, passes⟩ := exists_passes_of_leads leads
    have whole : Match.text ⟨cursor, stop⟩ = passed := passes.upTo_eq
    have covered : ((passed ++ ['\n']).zipIdx cursor.offset).filter (fun entry =>
        !(⟨cursor, stop⟩ :: found).any (·.covers entry.2)) = [] :=
      @filter_of_covered _ ⟨cursor, stop⟩ List.mem_cons_self _ (by rw [whole]; simp)
    have place : cursor.offset + (passed ++ ['\n']).length =
        (stop.cursor.past '\n' rest).offset := by
      simp [Cursor.past, passes.offset, Nat.add_assoc]
    have below : ∀ entry ∈ rest.zipIdx (stop.cursor.past '\n' rest).offset,
        (!(⟨cursor, stop⟩ :: found).any (·.covers entry.2)) = !found.any (·.covers entry.2) := by
      intro entry inside
      have low := List.le_snd_of_mem_zipIdx inside
      rw [← place, List.length_append, List.length_singleton] at low
      have beyond : Match.covers ⟨cursor, stop⟩ entry.2 = false := by
        refine decide_eq_false fun within => ?_
        have high : entry.2 ≤ cursor.offset + passed.length := whole ▸ within.2
        omega
      rw [List.any_cons, beyond, Bool.false_or]
    rw [passes.after, next, List.append_cons, List.zipIdx_append, place, List.filter_append,
      covered, List.nil_append, List.filter_congr below, ih]
    rfl
  | @last cursor stop leads none =>
    obtain ⟨passed, passes⟩ := exists_passes_of_leads leads
    have whole : Match.text ⟨cursor, stop⟩ = passed := passes.upTo_eq
    have covered : (cursor.after.zipIdx cursor.offset).filter (fun entry =>
        !List.any [(⟨cursor, stop⟩ : Match Part)] (·.covers entry.2)) = [] :=
      @filter_of_covered _ ⟨cursor, stop⟩ (List.mem_singleton_self _) _
        (by rw [whole, passes.after, none]; simp)
    rw [covered, List.map_nil]

/-- Each definition found covers whole lines. -/
theorem Cuts.exists_passes (cuts : Cuts cursor found kept) {m : Match Part} (member : m ∈ found) :
    (∃ early, cursor.Passes early m.start) ∧ m.start.Passes m.text m.stop.cursor ∧
      m.start.atLineStart = true ∧ m.start.after ∈ opening ∧ m.stop.cursor.after ∈ lineEnds := by
  have first : ∀ {cursor : Cursor} {stop : Reading Part}, definition.Leads ⟨cursor, []⟩ stop →
      cursor.Passes (Match.text ⟨cursor, stop⟩) stop.cursor ∧ cursor.atLineStart = true ∧
        cursor.after ∈ opening ∧ stop.cursor.after ∈ lineEnds := by
    intro cursor stop leads
    obtain ⟨passed, passes⟩ := exists_passes_of_leads leads
    obtain ⟨starts, opens⟩ := atLineStart_of_leads leads
    refine ⟨?_, starts, opens, after_mem_lineEnds (List.mem_of_mem_head? leads)⟩
    rwa [Match.text, passes.upTo_eq]
  induction cuts with
  | ended => cases member
  | keep next _ _ ih =>
    obtain ⟨⟨early, reaches⟩, found⟩ := ih member
    exact ⟨⟨_, .cons next reaches⟩, found⟩
  | drop leads next _ ih =>
    rcases List.mem_cons.1 member with rfl | inside
    · exact ⟨⟨[], .nothing _⟩, first leads⟩
    · obtain ⟨⟨early, reaches⟩, found⟩ := ih inside
      obtain ⟨passed, passes⟩ := exists_passes_of_leads leads
      exact ⟨⟨_, passes.trans (.cons next reaches)⟩, found⟩
  | last leads none =>
    obtain rfl := List.mem_singleton.1 member
    exact ⟨⟨[], .nothing _⟩, first leads⟩

/-- No definition begins in the text, which may itself begin at the start of a line. -/
def Clear : Bool → Text → Prop
  | _, [] => True
  | starts, c :: rest => (starts = true → c :: rest ∉ opening) ∧ Clear (Text.isNewline c) rest

/-- A definition that begins in front of what is kept begins in front of the whole text too. -/
theorem Cuts.opening_of_kept (cuts : Cuts cursor found kept) {line : Text} {c : Char}
    (starts : cursor.atLineStart = Text.isNewline c) (opens : line ++ c :: kept ∈ opening) :
    line ++ c :: cursor.after ∈ opening := by
  have ending : cursor.atLineStart = true → c = '\n' :=
    fun start => eq_of_beq (starts.symm.trans start)
  induction cuts generalizing line c with
  | ended none => rwa [none]
  | @keep cursor d rest kept _ next _ later ih =>
    rw [List.append_cons] at opens
    have whole := ih (atLineStart_past cursor d rest) opens fun start => eq_of_beq start
    rw [next, List.append_cons]
    exact whole
  | drop leads _ _ _ =>
    obtain ⟨start, next⟩ := atLineStart_of_leads leads
    rw [ending start] at opens ⊢
    exact opening_of_opening opens next
  | last leads _ =>
    obtain ⟨start, next⟩ := atLineStart_of_leads leads
    rw [ending start] at opens ⊢
    exact opening_of_opening opens next

theorem Cuts.clear (cuts : Cuts cursor found kept) : Clear cursor.atLineStart kept := by
  induction cuts with
  | ended => trivial
  | @keep cursor c rest kept _ next nowhere later ih =>
    refine ⟨fun start opens => ?_, ih⟩
    have whole := @Cuts.opening_of_kept _ _ _ later [] c (atLineStart_past cursor c rest) opens
    refine (outcomes_definition_ne_nil_iff _).2 ⟨start, ?_⟩ nowhere
    rw [next]
    exact whole
  | drop leads _ _ ih => rwa [(atLineStart_of_leads leads).1]
  | last => trivial

/-- Where no definition begins none is found. -/
theorem Cuts.eq_of_clear (cuts : Cuts cursor found kept)
    (clear : Clear cursor.atLineStart cursor.after) : found = [] ∧ kept = cursor.after := by
  have nowhere : ∀ {cursor : Cursor} {stop : Reading Part}, definition.Leads ⟨cursor, []⟩ stop →
      ¬ Clear cursor.atLineStart cursor.after := by
    intro cursor stop leads clear
    obtain ⟨start, opens⟩ := atLineStart_of_leads leads
    cases next : cursor.after with
    | nil =>
      have shorter := length_after_lt_of_leads leads
      rw [next] at shorter
      exact absurd shorter (Nat.not_lt_zero _)
    | cons c rest =>
      rw [next] at clear opens
      exact clear.1 start opens
  induction cuts with
  | ended none => exact ⟨rfl, none.symm⟩
  | keep next _ _ ih =>
    rw [next] at clear ⊢
    obtain ⟨none, same⟩ := ih clear.2
    exact ⟨none, congrArg _ same⟩
  | drop leads _ _ _ => exact absurd clear (nowhere leads)
  | last leads _ => exact absurd clear (nowhere leads)

theorem cuts_extract (table : ReferenceTable) (document : Text) :
    Cuts (.first document) (definition.matches? document) (table.extract document).text := by
  obtain ⟨found, kept, cuts⟩ := exists_cuts (.first document)
  have sameFound : definition.matches? document = found := cuts.found_eq (Nat.le_refl _)
  have sameKept : (table.extract document).text = kept :=
    (cuts.definitionLine_eq (Nat.le_refl _)).2
  rwa [sameFound, sameKept]

theorem isLinesOf_of_mem_matches {document : Text} {m : Match Part}
    (member : m ∈ definition.matches? document) : m.IsLinesOf document := by
  obtain ⟨⟨early, reaches⟩, passes, starts, -, ends⟩ :=
    (cuts_extract .empty document).exists_passes member
  have before : m.start.before = early.reverse := reaches.before.trans (List.append_nil _)
  refine ⟨early, m.stop.cursor.after, ?_, ?_, ?_, ?_⟩
  · rw [← passes.after]
    exact reaches.after
  · exact ((Nat.zero_add _).symm.trans reaches.offset.symm)
  · rcases List.eq_nil_or_concat early with rfl | ⟨front, c, rfl⟩
    · exact .inl rfl
    · refine .inr ?_
      rw [List.concat_eq_append] at before ⊢
      rw [Cursor.atLineStart, Cursor.atTextStart, Cursor.follows, before, List.reverse_concat]
        at starts
      rw [List.getLast?_concat, eq_of_beq (show (c == '\n') = true from starts)]
  · rcases ends with none | ⟨rest, next⟩
    · exact .inl none
    · exact .inr (by rw [next, List.head?_cons])

/-- A definition starts with at most three blanks and a bracket, at the start of a line. -/
theorem exists_blanks_of_mem_matches {document : Text} {m : Match Part}
    (member : m ∈ definition.matches? document) : ∃ blanks rest : Text,
      document.drop m.offset = blanks ++ '[' :: rest ∧ blanks.length ≤ 3 ∧
        ∀ c ∈ blanks, Text.isBlank c = true := by
  obtain ⟨⟨early, reaches⟩, -, -, opens, -⟩ := (cuts_extract .empty document).exists_passes member
  obtain ⟨front, labelled, target, -, ending, -, whole⟩ := mem_opening_iff.1 opens
  obtain ⟨blanks, label, rfl, short, inClass, -⟩ := mem_labelFront_iff.1 labelled
  refine ⟨blanks, label ++ ']' :: ':' :: (target ++ ending), ?_, short, inClass⟩
  have place : m.offset = early.length := reaches.offset.trans (Nat.zero_add _)
  have cut : document = early ++ m.start.after := reaches.after
  rw [place, cut, List.drop_left, whole, List.append_assoc]
  rfl

/-- Code that is indented by four spaces is never taken for a definition. -/
theorem not_indented_of_mem_matches {document : Text} {m : Match Part}
    (member : m ∈ definition.matches? document) : ¬ "    ".toList <+: document.drop m.offset := by
  obtain ⟨blanks, rest, cut, short, -⟩ := exists_blanks_of_mem_matches member
  rintro ⟨more, indented⟩
  rw [cut] at indented
  match blanks, short with
  | [], _ => cases indented
  | [_], _ => cases indented
  | [_, _], _ => cases indented
  | [_, _, _], _ => cases indented

/-- A tab is one blank like any other, so code that is indented by a tab can be a definition. -/
theorem opening_cons_tab {text : Text} (opens : '[' :: text ∈ opening) :
    '\t' :: '[' :: text ∈ opening := by
  obtain ⟨front, labelled, target, word, ending, ends, whole⟩ := mem_opening_iff.1 opens
  obtain ⟨blanks, label, rfl, -, inClass, some, plain⟩ := mem_labelFront_iff.1 labelled
  obtain rfl : blanks = [] := by
    cases blanks with
    | nil => rfl
    | cons c blanks =>
      obtain ⟨rfl, -⟩ := List.cons.inj whole
      exact absurd (inClass '[' List.mem_cons_self) (by decide)
  have tabbed : '\t' :: '[' :: label ∈ labelFront :=
    mem_labelFront_iff.2 ⟨['\t'], label, rfl, by decide, by decide, some, plain⟩
  rw [whole]
  exact mem_opening_iff.2 ⟨_, tabbed, target, word, ending, ends, rfl⟩

/-- What stands in front of a definition: at most three blanks, so never the four spaces of code, but
a tab may be one of them. -/
theorem margin_definition :
    (∀ document, ∀ m ∈ definition.matches? document, (∃ blanks rest : Text,
      document.drop m.offset = blanks ++ '[' :: rest ∧ blanks.length ≤ 3 ∧
        ∀ c ∈ blanks, Text.isBlank c = true) ∧ ¬ "    ".toList <+: document.drop m.offset) ∧
    ∀ text, '[' :: text ∈ opening → '\t' :: '[' :: text ∈ opening :=
  ⟨fun _ _ member => ⟨exists_blanks_of_mem_matches member, not_indented_of_mem_matches member⟩,
    fun _ => opening_cons_tab⟩

example : (ReferenceTable.empty.extract "\t[a]: /u".toList).text = [] := by decide +kernel

/-- Where no definition begins extraction changes nothing. -/
theorem extract_of_matches_eq_nil {document : Text} (none : definition.matches? document = [])
    (table : ReferenceTable) : table.extract document = ⟨document, table, []⟩ := by
  obtain ⟨found, kept, cuts⟩ := exists_cuts (.first document)
  obtain rfl : found = [] := (cuts.found_eq (Nat.le_refl _)).symm.trans none
  have same : kept = document := by
    rw [cuts.kept_eq]
    simp [Cursor.first]
  rw [cuts.extract_eq, same]
  rfl

/-- Extraction removes the definitions and nothing else, in one go. What is left of the document are
the characters that no definition covers, in their order; the definitions are whole lines apart from
each other; and in what is left there are none, so that a second extraction changes nothing. -/
theorem extract_removes_definitions (table : ReferenceTable) (document : Text) :
    let found := definition.matches? document
    let kept := (table.extract document).text
    kept = (document.zipIdx.filter fun entry => !found.any (·.covers entry.2)).map Prod.fst ∧
      (∀ m ∈ found, m.IsLinesOf document) ∧
      found.Pairwise (fun m n => m.offset + m.text.length < n.offset) ∧
      definition.matches? kept = [] ∧
      ∀ other : ReferenceTable, other.extract kept = ⟨kept, other, []⟩ := by
  intro found kept
  have cuts : Cuts (.first document) found kept := cuts_extract table document
  have none : definition.matches? kept = [] :=
    ((cuts_extract .empty kept).eq_of_clear cuts.clear).1
  exact ⟨cuts.kept_eq, fun m => isLinesOf_of_mem_matches, cuts.pairwise, none,
    extract_of_matches_eq_nil none⟩

end Definition

end Markdown
