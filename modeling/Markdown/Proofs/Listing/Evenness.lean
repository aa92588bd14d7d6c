import Markdown.Proofs.Ending.Spacing

set_option autoImplicit false

namespace Markdown.Listing

open Pattern

theorem widens_replace (text : Text) : Widens text (newlines.replace (fun _ => gap) text) := by
  obtain ⟨wide, widens⟩ := exists_widens text
  rwa [widens.replace_eq]

namespace Widens

variable {text wide : Text}

theorem head?_eq (widens : Widens text wide) : wide.head? = text.head? := by
  cases widens <;> rfl

/-- What stands in front of the first newline stays. -/
theorem exists_of_append {front rest : Text} (line : '\n' ∉ front)
    (widens : Widens (front ++ rest) wide) : ∃ more, wide = front ++ more := by
  induction front generalizing wide with
  | nil => exact ⟨wide, rfl⟩
  | cons c front ih =>
    obtain ⟨here, later⟩ := List.ne_and_not_mem_of_not_mem_cons line
    generalize whole : c :: front ++ rest = text at widens
    cases widens with
    | nil => cases whole
    | char other widens =>
      obtain ⟨rfl, rfl⟩ := List.cons.inj whole
      obtain ⟨more, rfl⟩ := ih later widens
      exact ⟨more, rfl⟩
    | single | run => exact absurd (List.cons.inj whole).1.symm here

/-- Where no newline follows, a few newlines do not make four. -/
theorem not_infix_append {count : Nat} (few : count ≤ 3) (alone : wide.head? ≠ some '\n')
    (apart : ¬ List.replicate 4 '\n' <:+: wide) :
    ¬ List.replicate 4 '\n' <:+: List.replicate count '\n' ++ wide := by
  induction count with
  | zero => exact apart
  | succ count ih =>
    rw [List.replicate_succ (n := count), List.cons_append, List.infix_cons_iff, not_or]
    refine ⟨?_, ih (by omega)⟩
    obtain ⟨more, four⟩ : ∃ more, 4 = count + 1 + (more + 1) := ⟨2 - count, by omega⟩
    rw [← List.cons_append, ← List.replicate_succ, four, List.replicate_add,
      List.prefix_append_right_inj]
    rintro ⟨rest, rfl⟩
    exact alone rfl

/-- No four newlines stand together. -/
theorem not_infix (widens : Widens text wide) : ¬ List.replicate 4 '\n' <:+: wide := by
  induction widens with
  | nil => simp
  | char other _ ih =>
    rw [List.infix_cons_iff, not_or]
    refine ⟨?_, ih⟩
    rintro ⟨rest, same⟩
    exact other (List.cons.inj same).1.symm
  | single alone later ih =>
    exact @not_infix_append _ 1 (by decide) (later.head?_eq ▸ alone) ih
  | run _ alone later ih =>
    exact @not_infix_append _ 3 (by decide) (later.head?_eq ▸ alone) ih

/-- Newlines in front of a line are no part of it. -/
theorem exists_of_newlines_append {count : Nat} {rest front line : Text}
    (whole : List.replicate count '\n' ++ rest = front ++ line) (last : '\n' ∉ line) :
    ∃ more, front = List.replicate count '\n' ++ more ∧ rest = more ++ line := by
  induction count generalizing front with
  | zero => exact ⟨front, rfl, whole⟩
  | succ count ih =>
    cases front with
    | nil =>
      obtain rfl : '\n' :: (List.replicate count '\n' ++ rest) = line := whole
      exact absurd List.mem_cons_self last
    | cons c front =>
      obtain ⟨rfl, later⟩ := List.cons.inj whole
      obtain ⟨more, rfl, same⟩ := ih later
      exact ⟨more, rfl, same⟩

/-- The last line stays, and what stands in front of it ends as before. -/
theorem exists_of_eq_append (widens : Widens text wide) {front line : Text}
    (same : wide = front ++ line) (last : '\n' ∉ line) :
    ∃ early, text = early ++ line ∧ early.getLast? = front.getLast? := by
  induction widens generalizing front line with
  | nil =>
    obtain ⟨rfl, rfl⟩ := List.append_eq_nil_iff.1 same.symm
    exact ⟨[], rfl, rfl⟩
  | @char c text wide _ _ ih =>
    cases front with
    | nil =>
      obtain rfl : c :: wide = line := same
      obtain ⟨early, rfl, ends⟩ := @ih [] _ rfl (List.not_mem_of_not_mem_cons last)
      obtain rfl : early = [] := List.getLast?_eq_none_iff.1 ends
      exact ⟨[], rfl, rfl⟩
    | cons d front =>
      obtain ⟨rfl, later⟩ := List.cons.inj same
      obtain ⟨early, rfl, ends⟩ := ih later last
      exact ⟨c :: early, rfl, by rw [List.getLast?_cons, List.getLast?_cons, ends]⟩
  | single _ _ ih =>
    obtain ⟨more, rfl, later⟩ := @exists_of_newlines_append 1 _ _ _ same last
    obtain ⟨early, rfl, ends⟩ := ih later last
    exact ⟨'\n' :: early, rfl, by simp [List.getLast?_cons, ends]⟩
  | run count _ _ ih =>
    obtain ⟨more, rfl, later⟩ := @exists_of_newlines_append 3 _ _ _ same last
    obtain ⟨early, rfl, ends⟩ := ih later last
    refine ⟨List.replicate (count + 2) '\n' ++ early, by simp [List.replicate_succ], ?_⟩
    rw [List.getLast?_append, List.getLast?_append, ends]
    simp [List.getLast?_replicate]

end Widens

/-- The text stays if it does not end in a newline, and ends in one newline otherwise. -/
theorem finalNewlines_replace_cases (text : Text) :
    (text.Unended ∧ finalNewlines.replace (fun _ => ['\n']) text = text) ∨
      ∃ front count, text = front ++ List.replicate (count + 1) '\n' ∧ front.Unended ∧
        finalNewlines.replace (fun _ => ['\n']) text = front ++ ['\n'] := by
  obtain ⟨front, count, rfl, unended⟩ := Text.exists_eq_append_newlines text
  cases count with
  | zero =>
    rw [List.replicate_zero, List.append_nil]
    exact .inl ⟨unended, replacedFrom_finalNewlines_of_unended unended _ 0 []⟩
  | succ count =>
    refine .inr ⟨front, count, rfl, unended, ?_⟩
    exact replacedFrom_finalNewlines front unended count _ 0 [] (by simp)

/-- What holds of the evenly spaced text of a list. -/
structure Evens (list even : Text) : Prop where
  /-- No four newlines stand together. -/
  apart : ¬ List.replicate 4 '\n' <:+: even
  /-- No two newlines stand at the end. -/
  ended : ¬ List.replicate 2 '\n' <:+ even
  /-- What stands in front of the first newline stays. -/
  begins : ∀ front rest, list = front ++ rest → '\n' ∉ front → ∃ more, even = front ++ more
  /-- The last line stays. -/
  ends : ∀ front line, even = front ++ line → line ≠ [] → '\n' ∉ line →
    ∃ early, list = early ++ line ∧ early.getLast? = front.getLast?

theorem evens_evenlySpaced (list : Text) : Evens list (evenlySpaced list) := by
  have widens := widens_replace list
  change Evens list (finalNewlines.replace (fun _ => ['\n']) (newlines.replace (fun _ => gap) list))
  generalize newlines.replace (fun _ => gap) list = wide at widens
  rcases finalNewlines_replace_cases wide with ⟨unended, same⟩ | ⟨front, count, rfl, unended, same⟩
  · rw [same]
    refine ⟨widens.not_infix, ?_, ?_, fun _ _ cut _ => widens.exists_of_eq_append cut⟩
    · rintro ⟨front, rfl⟩
      exact unended '\n' (by simp) rfl
    · rintro front rest rfl line
      exact widens.exists_of_append line
  · rw [same]
    have short : front ++ ['\n'] <+: front ++ List.replicate (count + 1) '\n' :=
      ⟨List.replicate count '\n', by simp [List.replicate_succ]⟩
    refine ⟨fun four => widens.not_infix (four.trans short.isInfix), ?_, ?_, ?_⟩
    · rintro ⟨early, cut⟩
      have last : front = early ++ ['\n'] := by
        rw [List.replicate_succ', ← List.append_assoc] at cut
        exact (List.append_inj_left' cut rfl).symm
      exact unended '\n' (by simp [last]) rfl
    · rintro early rest rfl line
      obtain ⟨more, cut⟩ := widens.exists_of_append line
      rcases List.append_eq_append_iff.1 cut with ⟨within, rfl, breaks⟩ | ⟨later, rfl, -⟩
      · cases within with
        | nil => exact ⟨['\n'], by simp⟩
        | cons c within =>
          obtain ⟨rfl, -⟩ := List.cons.inj breaks
          exact absurd (by simp) line
      · exact ⟨later ++ ['\n'], List.append_assoc _ _ _⟩
    · intro early line cut some last
      have newline : line.getLast? = Option.some '\n' := by
        rw [← List.getLast?_append_of_ne_nil early some, ← cut, List.getLast?_concat]
      exact absurd (List.mem_of_getLast? newline) last

end Markdown.Listing
