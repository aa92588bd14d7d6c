import Markdown.Proofs.Reference.Extraction

set_option autoImplicit false

namespace Markdown.Definition

open Pattern

/-- What stands between the target of a definition and its end. -/
def titled : Language Char :=
  someOver Text.isBlank * titles +
    anyOver Text.isBlank * ({['\n']} * (anyOver Text.isBlank * titles)) + 1

/-- What stands behind the colon of a definition, up to its end. -/
def targets : Language Char :=
  anyOver Text.isBlank * (someOver notSpace * (titled * anyOver Text.isBlank))

/-- What a definition passes. -/
theorem exists_passes_of_mem_definition {reading later : Reading Part}
    (member : later ∈ definition.outcomes reading) :
    ∃ front ∈ labelFront, ∃ target ∈ targets,
      reading.cursor.Passes (front ++ ']' :: ':' :: target) later.cursor := by
  have reads : ∀ ahead, Pattern.Reads (.sequence
      [.upTo 3 (.one Text.isBlank), .char '[', .capture .label (.many1 (· != ']')),
        .literal "]:".toList, .many Text.isBlank, .optional (.char '<'),
        .capture .url (.few1 Pattern.notSpace), .optional (.char '>'),
        .optional (.seq titleGap (.capture .title title)), .many Text.isBlank])
      ahead (labelFront * ({"]:".toList} * targets) * ahead) := by
    intro ahead
    have behind : ((Pattern.optional (.seq titleGap (.capture .title title))).seq
        (.many Text.isBlank) : Pattern Part).Reads ahead _ :=
      (reads_titleGap.seq (reads_title.capture Part.title)).optional.seq reads_many
    simp only [labelFront, targets, titled, mul_assoc, add_mul, one_mul]
    exact (reads_upTo 3).seq <| (reads_char '[').seq <| (reads_many1.capture Part.label).seq <|
      (reads_literal _).seq <| reads_many.seq <|
      reads_url behind
  rw [definition, outcomes_sequence_cut 11 (by decide)] at member
  obtain ⟨middle, front, last⟩ := List.mem_flatMap.1 member
  obtain ⟨start, first, behind⟩ := List.mem_flatMap.1 front
  obtain ⟨rfl, -⟩ := mem_outcomes_place_iff.1 first
  obtain ⟨rfl, -⟩ := mem_outcomes_place_iff.1 last
  obtain ⟨_, ⟨label, labelled, _, ⟨_, rfl, target, word, rfl⟩, rfl⟩, passes⟩ :=
    exists_passes_of_reads reads behind
  exact ⟨label, labelled, target, word, passes⟩

theorem eq_nil_of_lineEnds {more rest : Text} (inLine : '\n' ∉ more) (ends : more ++ rest ∈ lineEnds) :
    more = [] := by
  cases more with
  | nil => rfl
  | cons c more =>
    obtain none | ⟨tail, next⟩ := ends
    · cases none
    · rw [(List.cons.inj next).1] at inLine
      exact absurd List.mem_cons_self inLine

/-- The first line of two texts that are the same. -/
theorem line_eq_of_append_eq {first second front back : Text} (here : '\n' ∉ first)
    (there : '\n' ∉ second) (ends : front ∈ lineEnds) (also : back ∈ lineEnds)
    (same : first ++ front = second ++ back) : first = second := by
  rcases List.append_eq_append_iff.1 same with ⟨more, rfl, rfl⟩ | ⟨more, rfl, rfl⟩
  · rw [eq_nil_of_lineEnds (fun inside => there (List.mem_append_right _ inside)) ends, List.append_nil]
  · rw [eq_nil_of_lineEnds (fun inside => here (List.mem_append_right _ inside)) also, List.append_nil]

/-- The text ends here, or the next line is empty or begins with a bracket. -/
def Halts (rest : Text) : Prop :=
  rest = [] ∨ ∃ below, rest = '\n' :: below ∧ ∀ c ∈ below.head?, c = '[' ∨ c = '\n'

theorem Halts.mem_lineEnds {rest : Text} (halts : Halts rest) : rest ∈ lineEnds :=
  halts.imp_right fun ⟨below, next, _⟩ => ⟨below, next⟩

/-- No title stands on the next line. -/
theorem Halts.not_titled {blanks title below : Text}
    (halts : Halts ('\n' :: (blanks ++ (title ++ below)))) (inClass : ∀ c ∈ blanks, Text.isBlank c = true)
    (isTitle : title ∈ titles) : False := by
  obtain impossible | ⟨_, same, starts⟩ := halts
  · cases impossible
  obtain rfl := (List.cons.inj same).2
  cases blanks with
  | cons c blanks =>
    have blank := inClass c List.mem_cons_self
    rcases starts c rfl with rfl | rfl <;> exact absurd blank (by decide)
  | nil =>
    have quoted : ∀ {first last : Char}, first ≠ '[' → first ≠ '\n' →
        title ∉ titleWords first last := by
      rintro first last bracket newline ⟨_, rfl, inner, -, rfl⟩
      exact (starts first rfl).elim bracket newline
    rcases isTitle with word | word | word <;> exact quoted (by decide) (by decide) word

theorem Halts.target_eq {target line after rest : Text} (halts : Halts rest) (word : target ∈ targets)
    (isLine : line ∈ targetLine) (ends : after ∈ lineEnds) (same : target ++ after = line ++ rest) :
    target = line := by
  have plain := not_mem_of_targetLine isLine
  obtain ⟨blanks, start, _, ⟨url, visible, _, ⟨title, choice, tail, finish, rfl⟩, rfl⟩, rfl⟩ := word
  have within : ∀ title ∈ someOver Text.isBlank * titles + 1,
      blanks ++ (url ++ (title ++ tail)) ∈ targetLine :=
    fun title choice => ⟨blanks, start, _, ⟨url, visible, _, ⟨title, choice, tail, finish, rfl⟩, rfl⟩, rfl⟩
  rcases choice with (gapped | ⟨gap, inGap, _, ⟨_, rfl, _, ⟨more, inMore, words, isTitle, rfl⟩, rfl⟩, rfl⟩) |
      none
  · exact line_eq_of_append_eq (not_mem_of_targetLine (within title (.inl gapped))) plain ends
      halts.mem_lineEnds same
  · have early := not_mem_of_targetLine (show blanks ++ (url ++ ([] ++ gap)) ∈ targetLine from
      ⟨blanks, start, _, ⟨url, visible, _, ⟨[], .inr rfl, gap, inGap, rfl⟩, rfl⟩, rfl⟩)
    have cut : (blanks ++ (url ++ ([] ++ gap))) ++ '\n' :: (more ++ (words ++ (tail ++ after))) =
        line ++ rest := by
      rw [← same]
      simp
    obtain ⟨between, shown, rfl⟩ := exists_of_append_cons cut plain
    rw [shown] at early
    obtain rfl := eq_nil_of_lineEnds (fun inside => early (List.mem_append_right _ inside))
      halts.mem_lineEnds
    exact (halts.not_titled inMore isTitle).elim
  · exact line_eq_of_append_eq (not_mem_of_targetLine (within title (.inr none))) plain ends
      halts.mem_lineEnds same

structure Entry where
  label : Text
  url : Text
  title : Option Text
  labelled : label ≠ [] ∧ ∀ c ∈ label, c ≠ ']' ∧ c ≠ '\n' ∧ c ≠ '\r'
  aimed : url ≠ [] ∧ ∀ c ∈ url, Unicode.isSpace c = false
  worded : ∀ words ∈ title, words ≠ [] ∧ ∀ c ∈ words, c ≠ '\n' ∧ c ≠ '\r'

namespace Entry

variable (entry : Entry)

/-- What stands behind the colon. -/
def target : Text :=
  ' ' :: (entry.url ++ match entry.title with
    | some words => " \"".toList ++ words ++ ['"']
    | none => [])

def line : Text :=
  '[' :: (entry.label ++ ']' :: ':' :: entry.target)

theorem target_mem : entry.target ∈ targetLine := by
  obtain ⟨filled, visible⟩ := entry.aimed
  have inClass : ∀ c ∈ entry.url, notSpace c = true := fun c inside => by
    rw [notSpace, visible c inside]
    rfl
  refine ⟨[' '], by simp [anyOver, Text.isBlank], _, ⟨entry.url, ⟨filled, inClass⟩, _, ⟨_, ?_, [],
    List.forall_mem_nil _, List.append_nil _⟩, rfl⟩, rfl⟩
  split
  · next words given =>
    obtain ⟨some, inLine⟩ := entry.worded words given
    have inClass : ∀ c ∈ words, Pattern.inLine c = true := fun c inside =>
      bne_iff_ne.2 (inLine c inside).1
    exact .inl ⟨[' '], by simp [someOver, Text.isBlank], _,
      .inl ⟨['"'], rfl, _, ⟨words, ⟨some, inClass⟩, ['"'], rfl, rfl⟩, rfl⟩, by simp⟩
  · exact .inr rfl

theorem front_mem : '[' :: entry.label ∈ labelFront := by
  obtain ⟨filled, plain⟩ := entry.labelled
  exact mem_labelFront_iff.2 ⟨[], entry.label, rfl, Nat.zero_le 3, List.forall_mem_nil _, filled,
    fun closed => (plain _ closed).1 rfl⟩

theorem newline_not_mem : '\n' ∉ entry.line := by
  have inLabel : '\n' ∉ entry.label := fun inside => (entry.labelled.2 _ inside).2.1 rfl
  simp [line, inLabel, not_mem_of_targetLine entry.target_mem]

theorem carriage_not_mem : '\r' ∉ entry.line := by
  have inLabel : '\r' ∉ entry.label := fun inside => (entry.labelled.2 _ inside).2.2 rfl
  have inUrl : '\r' ∉ entry.url := fun inside => absurd (entry.aimed.2 _ inside) (by decide)
  have inTitle : ∀ words ∈ entry.title, '\r' ∉ words := fun words given inside =>
    ((entry.worded words given).2 _ inside).2 rfl
  cases given : entry.title with
  | none => simp [line, target, given, inLabel, inUrl]
  | some words => simp [line, target, given, inLabel, inUrl, inTitle words given]

variable {entry} {cursor : Cursor} {rest : Text}

/-- The definition is found, and it ends with its line. -/
theorem exists_leads (starts : cursor.atLineStart = true) (next : cursor.after = entry.line ++ rest)
    (halts : Halts rest) : ∃ stop, definition.Leads ⟨cursor, []⟩ stop ∧ stop.cursor.after = rest := by
  have opens : cursor.after ∈ opening := by
    rw [next]
    exact mem_opening_iff.2 ⟨_, entry.front_mem, _, entry.target_mem, rest, halts.mem_lineEnds,
      by simp [line]⟩
  obtain ⟨stop, others, listed⟩ := List.exists_cons_of_ne_nil
    ((outcomes_definition_ne_nil_iff ⟨cursor, []⟩).2 ⟨starts, opens⟩)
  have leads : definition.Leads ⟨cursor, []⟩ stop := by rw [Leads, listed, List.head?_cons]
  have member := List.mem_of_mem_head? leads
  refine ⟨stop, leads, ?_⟩
  obtain ⟨front, labelled, target, word, passes⟩ := exists_passes_of_mem_definition member
  have whole : front ++ ']' :: (':' :: (target ++ stop.cursor.after)) =
      ('[' :: entry.label) ++ ']' :: (':' :: (entry.target ++ rest)) := by
    have shown := passes.after.symm.trans next
    simpa [line] using shown
  have closed : ']' ∉ '[' :: entry.label := not_mem_of_labelFront entry.front_mem
  obtain ⟨more, rfl, behind⟩ := exists_of_append_cons whole closed
  obtain rfl : more = [] := by
    cases more with
    | nil => rfl
    | cons c more =>
      obtain ⟨rfl, -⟩ := List.cons.inj behind
      exact absurd (List.mem_append_right _ List.mem_cons_self) (not_mem_of_labelFront labelled)
  have same : target ++ stop.cursor.after = entry.target ++ rest :=
    (List.cons.inj (List.cons.inj behind).2).2.symm
  have ends := halts.target_eq word entry.target_mem (after_mem_lineEnds member) same
  exact List.append_cancel_left (ends ▸ same)

end Entry

/-- From the start of a line on, this is left of the text. -/
def Leaves (text kept : Text) : Prop :=
  ∀ cursor : Cursor, cursor.atLineStart = true → cursor.after = text → ∃ found, Cuts cursor found kept

namespace Leaves

variable {first rest text kept : Text} {written : Entry}

theorem nil : Leaves [] [] :=
  fun _ _ none => ⟨[], .ended none⟩

/-- A line with which no definition begins is left. -/
theorem line (newline : '\n' ∉ first) (closed : first ++ '\n' :: rest ∉ opening)
    (later : Leaves rest kept) : Leaves (first ++ '\n' :: rest) (first ++ '\n' :: kept) := by
  rintro ⟨offset, before, after⟩ - rfl
  obtain ⟨found, cuts⟩ :=
    later ⟨offset + (first.length + 1), '\n' :: (first.reverse ++ before), rest⟩ rfl rfl
  exact ⟨found, .of_line newline (fun _ => closed) cuts⟩

/-- Nothing is left of a definition. -/
theorem entry (halts : Halts ('\n' :: rest)) (later : Leaves rest kept) :
    Leaves (written.line ++ '\n' :: rest) kept := by
  intro cursor starts next
  obtain ⟨stop, leads, behind⟩ := Entry.exists_leads starts next halts
  obtain ⟨found, cuts⟩ := later (stop.cursor.past '\n' rest) rfl rfl
  exact ⟨_, .drop leads behind cuts⟩

theorem entry_alone : Leaves written.line [] := by
  intro cursor starts next
  obtain ⟨stop, leads, behind⟩ :=
    Entry.exists_leads starts (next.trans (List.append_nil _).symm) (.inl rfl)
  exact ⟨_, .last leads behind⟩

theorem extract_text (leaves : Leaves text kept) (table : ReferenceTable) :
    (table.extract text).text = kept := by
  obtain ⟨found, cuts⟩ := leaves (.first text) rfl rfl
  rw [cuts.extract_eq]

end Leaves

def lines (entries : List Entry) : Text :=
  Text.join ['\n'] (entries.map Entry.line)

theorem lines_singleton (entry : Entry) : lines [entry] = entry.line :=
  List.append_nil _

theorem lines_cons_cons (entry next : Entry) (others : List Entry) :
    lines (entry :: next :: others) = entry.line ++ '\n' :: lines (next :: others) := by
  simp [lines, Text.join, List.intercalate_cons_cons]

theorem head?_lines (entry : Entry) (entries : List Entry) :
    (lines (entry :: entries)).head? = some '[' := by
  cases entries with
  | nil => rw [lines_singleton]; rfl
  | cons next others => rw [lines_cons_cons]; rfl

/-- Nothing is left of definitions that stand one below the other. -/
theorem leaves_lines (entries : List Entry) : Leaves (lines entries) [] := by
  induction entries with
  | nil => exact .nil
  | cons entry entries ih =>
    cases entries with
    | nil =>
      rw [lines_singleton]
      exact .entry_alone
    | cons next others =>
      have starts : ∀ c ∈ (lines (next :: others)).head?, c = '[' ∨ c = '\n' := fun c first => by
        rw [head?_lines] at first
        exact .inl (Option.some.inj first).symm
      rw [lines_cons_cons]
      exact .entry (.inr ⟨_, rfl, starts⟩) ih

end Markdown.Definition
