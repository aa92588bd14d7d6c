import Markdown.Proofs.Pattern.Matches
import Markdown.Proofs.Sheet.Seal

set_option autoImplicit false

namespace Markdown

namespace Pattern

/-- The shape that tokens and keys share: `Escape.tokenShape` is `stamp 'e' 32` and
`Fragments.keyShape` is `stamp 'b' 64`. -/
def stamp (letter : Char) (count : Nat) : Pattern Empty :=
  .sequence
    [.char Escape.opening, .char letter, .exactly count (.one Escape.isDigestDigit),
      .char Escape.closing]

theorem run_exactly {accepts : Char → Bool} {digits : Text} (inClass : ∀ c ∈ digits, accepts c)
    (offset : Nat) (before rest : Text) (captures : List (Empty × Thunk Text))
    (next : Continuation Empty) :
    (exactly digits.length (.one accepts)).run ⟨⟨offset, before, digits ++ rest⟩, captures⟩ next =
      next ⟨⟨offset + digits.length, digits.reverse ++ before, rest⟩, captures⟩ := by
  induction digits generalizing offset before with
  | nil => rfl
  | cons c more ih =>
    have here := inClass c List.mem_cons_self
    have later := ih (fun d member => inClass d (List.mem_cons_of_mem _ member)) (offset + 1)
      (c :: before)
    simp only [List.length_cons, exactly, run, List.cons_append, here, ↓reduceIte, Cursor.past]
    rw [later]
    simp [Nat.add_assoc, Nat.add_comm 1]

/-- Where the shape stands it is found. -/
theorem run_stamp (letter : Char) {digits : Text}
    (inClass : ∀ c ∈ digits, Escape.isDigestDigit c = true) (offset : Nat) (before rest : Text) :
    (stamp letter digits.length).run
        ⟨⟨offset, before, Escape.opening :: letter :: (digits ++ Escape.closing :: rest)⟩, []⟩ some =
      some ⟨⟨offset + (digits.length + 3), Escape.closing :: (digits.reverse ++
        letter :: Escape.opening :: before), rest⟩, []⟩ := by
  simp only [stamp, sequence, char, run, beq_self_eq_true, ↓reduceIte, Cursor.past,
    run_exactly inClass]
  rw [show offset + 1 + 1 + digits.length + 1 = offset + (digits.length + 3) by omega]

end Pattern

/-- The text is a letter and so many digits of a digest between the two markers. -/
def IsStamp (letter : Char) (count : Nat) (text : Text) : Prop :=
  ∃ digits, text = Escape.opening :: letter :: (digits ++ [Escape.closing]) ∧
    digits.length = count ∧ ∀ c ∈ digits, Escape.isDigestDigit c = true

/-- A stamp stands at the start of the text. -/
def StampAhead (letter : Char) (count : Nat) (text : Text) : Prop :=
  ∃ word, IsStamp letter count word ∧ word <+: text

variable {letter : Char} {count : Nat} {written : Text → Text} {text rest result : Text}

theorem not_stampAhead_of_ne {c : Char} (differs : c ≠ Escape.opening) :
    ¬ StampAhead letter count (c :: rest) := by
  rintro ⟨_, ⟨digits, rfl, -, -⟩, standing⟩
  exact differs (List.cons_prefix_cons.1 standing).1.symm

theorem not_stampAhead_of_letter_ne {d : Char} (differs : d ≠ letter) :
    ¬ StampAhead letter count (Escape.opening :: d :: rest) := by
  rintro ⟨_, ⟨digits, rfl, -, -⟩, standing⟩
  exact differs (List.cons_prefix_cons.1 (List.cons_prefix_cons.1 standing).2).1.symm

namespace Pattern

theorem exists_passes_of_mem_exactly {accepts : Char → Bool} {reading later : Reading Empty}
    (member : later ∈ (exactly count (.one accepts)).outcomes reading) :
    ∃ digits, reading.cursor.Passes digits later.cursor ∧ digits.length = count ∧
      ∀ c ∈ digits, accepts c = true := by
  induction count generalizing reading with
  | zero =>
    obtain rfl := List.mem_singleton.1 member
    exact ⟨[], .nothing _, rfl, by simp⟩
  | succ count ih =>
    obtain ⟨middle, first, others⟩ := List.mem_flatMap.1 member
    obtain ⟨digits, passes, length, inClass⟩ := ih others
    rw [outcomes] at first
    split at first
    · cases first
    · next c rest next =>
      split at first
      · next accepted =>
        obtain rfl := List.mem_singleton.1 first
        exact ⟨c :: digits, .cons next passes, congrArg (· + 1) length,
          List.forall_mem_cons.2 ⟨accepted, inClass⟩⟩
      · cases first

/-- What a search finds is a stamp. -/
theorem exists_stamp_of_run {cursor : Cursor} {stop : Reading Empty}
    (found : (stamp letter count).run ⟨cursor, []⟩ some = some stop) :
    StampAhead letter count cursor.after := by
  rw [run_eq_findSome?] at found
  obtain ⟨last, member, -⟩ := List.exists_of_findSome?_eq_some found
  obtain ⟨first, opened, member⟩ := List.mem_flatMap.1 member
  obtain ⟨second, lettered, member⟩ := List.mem_flatMap.1 member
  obtain ⟨third, counted, closed⟩ := List.mem_flatMap.1 member
  obtain ⟨digits, passes, length, inClass⟩ := exists_passes_of_mem_exactly counted
  have whole := (passes_of_mem_char opened).1.trans
    ((passes_of_mem_char lettered).1.trans (passes.trans (passes_of_mem_char closed).1))
  exact ⟨_, ⟨digits, rfl, length, inClass⟩, last.cursor.after, whole.after.symm⟩

end Pattern

/-- The course of the search of a shape: what the text becomes with `written` in the place of each
stamp. -/
inductive Scan (letter : Char) (count : Nat) (written : Text → Text) : Text → Text → Prop where
  | ended : Scan letter count written [] []
  | stamp {word rest result : Text} (stamped : IsStamp letter count word)
      (later : Scan letter count written rest result) :
      Scan letter count written (word ++ rest) (written word ++ result)
  | plain {c : Char} {rest result : Text} (nowhere : ¬ StampAhead letter count (c :: rest))
      (later : Scan letter count written rest result) :
      Scan letter count written (c :: rest) (c :: result)

namespace Scan

variable (letter count written) in
theorem exists_scan (text : Text) : ∃ result, Scan letter count written text result := by
  generalize size : text.length = total
  induction total using Nat.strongRecOn generalizing text with
  | ind total ih =>
    subst size
    by_cases ahead : StampAhead letter count text
    · obtain ⟨word, stamped, rest, rfl⟩ := ahead
      have shorter : rest.length < (word ++ rest).length := by
        obtain ⟨digits, rfl, -, -⟩ := stamped
        simp only [List.length_append, List.length_cons]
        omega
      obtain ⟨result, later⟩ := ih _ shorter rest rfl
      exact ⟨_, .stamp stamped later⟩
    · cases text with
      | nil => exact ⟨_, .ended⟩
      | cons c rest =>
        obtain ⟨result, later⟩ := ih _ (Nat.lt_succ_self _) rest rfl
        exact ⟨_, .plain ahead later⟩

/-- The search takes this course wherever the text stands. -/
theorem replaced_segmentsFrom (scan : Scan letter count written text result) {budget : Nat}
    (room : text.length ≤ budget) (offset : Nat) (before : Text) :
    ((Pattern.stamp letter count).segmentsFrom budget ⟨offset, before, text⟩).flatMap
      (Segment.replaced fun found => written found.text) = result := by
  induction scan generalizing budget offset before with
  | ended => cases budget <;> rfl
  | @plain c rest result nowhere _ ih =>
    obtain ⟨left, rfl⟩ := Nat.exists_eq_add_of_le' (Nat.le_of_add_left_le room)
    have none : (Pattern.stamp letter count).run ⟨⟨offset, before, c :: rest⟩, []⟩ some = none := by
      by_contra found
      obtain ⟨stop, run⟩ := Option.ne_none_iff_exists'.1 found
      exact nowhere (Pattern.exists_stamp_of_run run)
    rw [Pattern.segmentsFrom]
    simp only [none, List.flatMap_cons]
    exact congrArg (c :: ·) (ih (Nat.le_of_add_le_add_right room) _ _)
  | @stamp word rest result stamped _ ih =>
    obtain ⟨digits, rfl, rfl, inClass⟩ := stamped
    have found := Pattern.run_stamp letter inClass offset before rest
    have whole : (⟨offset, before, Escape.opening :: letter ::
        (digits ++ Escape.closing :: rest)⟩ : Cursor).Passes
          (Escape.opening :: letter :: (digits ++ [Escape.closing]))
          ⟨offset + (digits.length + 3), Escape.closing :: (digits.reverse ++
            letter :: Escape.opening :: before), rest⟩ :=
      ⟨by simp, by simp, by simp⟩
    simp only [List.cons_append, List.append_assoc, List.nil_append, List.length_cons,
      List.length_append] at room ⊢
    obtain ⟨left, rfl⟩ : ∃ left, budget = left + 1 := Nat.exists_eq_add_of_le' (by omega)
    rw [Pattern.segmentsFrom]
    simp only [found, List.flatMap_cons]
    rw [ih (by omega), Segment.replaced, Match.text, whole.upTo_eq]

theorem replace_eq (scan : Scan letter count written text result) :
    (Pattern.stamp letter count).replace (fun found => written found.text) text = result :=
  scan.replaced_segmentsFrom (Nat.le_refl _) 0 []

variable (letter count written) in
theorem scan_replace (text : Text) : Scan letter count written text
    ((Pattern.stamp letter count).replace (fun found => written found.text) text) := by
  obtain ⟨result, scan⟩ := exists_scan letter count written text
  rwa [scan.replace_eq]

theorem plain_append {u : Text} (plain : Escape.opening ∉ u)
    (scan : Scan letter count written rest result) :
    Scan letter count written (u ++ rest) (u ++ result) := by
  induction u with
  | nil => exact scan
  | cons c more ih =>
    obtain ⟨differs, plain⟩ := List.ne_and_not_mem_of_not_mem_cons plain
    exact .plain (not_stampAhead_of_ne differs.symm) (ih plain)

end Scan

/-- The text is whole for the search of a shape, and with `written` in the place of each match it
becomes the second text. -/
inductive Chunk (letter : Char) (count : Nat) (written : Text → Text) : Text → Text → Prop where
  | plain {u : Text} (plain : Escape.opening ∉ u) : Chunk letter count written u u
  | other {d : Char} {u : Text} (differs : d ≠ letter) (plain : Escape.opening ∉ d :: u) :
    Chunk letter count written (Escape.opening :: d :: u) (Escape.opening :: d :: u)
  | stamp {digits : Text} (length : digits.length = count)
    (inClass : ∀ c ∈ digits, Escape.isDigestDigit c = true) :
    Chunk letter count written (Escape.opening :: letter :: (digits ++ [Escape.closing]))
      (written (Escape.opening :: letter :: (digits ++ [Escape.closing])))

/-- What stands in front of a whole chunk does not matter for the search behind it. -/
theorem Chunk.scan_append {chunk changed : Text} (whole : Chunk letter count written chunk changed)
    (scan : Scan letter count written rest result) :
    Scan letter count written (chunk ++ rest) (changed ++ result) := by
  cases whole with
  | plain plain => exact scan.plain_append plain
  | other differs plain =>
    exact .plain (not_stampAhead_of_letter_ne differs) (scan.plain_append plain)
  | stamp length inClass => exact .stamp ⟨_, rfl, length, inClass⟩ scan

/-- The search of a shape in a text of whole chunks replaces the matching chunks. -/
theorem replace_stamp {chunks results : List Text}
    (all : List.Forall₂ (Chunk letter count written) chunks results) :
    (Pattern.stamp letter count).replace (fun found => written found.text) chunks.flatten =
      results.flatten := by
  refine Scan.replace_eq ?_
  induction all with
  | nil => exact .ended
  | cons whole _ ih => exact whole.scan_append ih

end Markdown
