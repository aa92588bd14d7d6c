import Markdown.Unicode.Private

set_option autoImplicit false

namespace Markdown.Unicode

/-- All runs of capitals, those of ASCII and U+0130 among them. -/
def runs : List CapitalRun :=
  ⟨0x41, 0x5a, 1, 0x61⟩ :: ⟨0x130, 0x130, 1, 0x69⟩ :: capitalRuns

theorem CapitalRun.holds_iff {run : CapitalRun} {c : Char} : run.holds c = true ↔
    run.first ≤ c.toNat ∧ c.toNat ≤ run.last ∧ (c.toNat - run.first) % run.stride = 0 := by
  simp [holds, and_assoc]

theorem toLower_of_ascii {c : Char} (ascii : c.toNat < 128) :
    c.toLower = if 0x41 ≤ c.toNat ∧ c.toNat ≤ 0x5a then Char.ofNat (0x61 + (c.toNat - 0x41))
      else c := by
  have all : ∀ code < 128, (Char.ofNat code).toLower = if 0x41 ≤ code ∧ code ≤ 0x5a then
      Char.ofNat (0x61 + (code - 0x41)) else Char.ofNat code := by decide
  have here := all c.toNat ascii
  rwa [Char.ofNat_toNat] at here

/-- A character is small or a capital of a run. -/
theorem lowerChar_cases (c : Char) : lowerChar c = c ∨ ∃ run ∈ runs, run.holds c = true ∧
    lowerChar c = Char.ofNat (run.small + (c.toNat - run.first)) := by
  rw [lowerChar]
  split
  · next ascii =>
    rw [toLower_of_ascii ascii]
    split
    · next capital =>
      exact .inr ⟨_, List.mem_cons_self, by simpa [CapitalRun.holds_iff, Nat.mod_one] using capital,
        rfl⟩
    · exact .inl rfl
  · split
    · next dotted =>
      obtain rfl := beq_iff_eq.1 dotted
      exact .inr ⟨_, List.mem_cons_of_mem _ List.mem_cons_self, by decide, rfl⟩
    · cases found : capitalRuns.find? (·.holds c) with
      | none => exact .inl rfl
      | some run =>
        have member := List.mem_of_find?_eq_some found
        exact .inr ⟨run, List.mem_cons_of_mem _ (List.mem_cons_of_mem _ member),
          by simpa using List.find?_some found, rfl⟩

theorem lowerChar_of_not_holds {c : Char} (none : ∀ run ∈ runs, run.holds c = false) :
    lowerChar c = c := by
  rcases lowerChar_cases c with small | ⟨run, member, held, -⟩
  · exact small
  · rw [none run member] at held
    cases held

/-- No small letter of a run is a capital of the other: they lie apart, or in runs of every second
character they alternate. -/
def CapitalRun.misses (run other : CapitalRun) : Bool :=
  Nat.blt other.last run.small || Nat.blt (run.small + (run.last - run.first)) other.first ||
    ((run.stride % 2 == 0 || run.first == run.last) && other.stride % 2 == 0 &&
      (run.small + other.first) % 2 == 1)

theorem misses_runs : (runs.all fun run => runs.all run.misses) = true := by
  decide +kernel

theorem even_of_mod_eq_zero {count stride : Nat} (even : stride % 2 = 0)
    (whole : count % stride = 0) : count % 2 = 0 :=
  Nat.mod_eq_zero_of_dvd
    (Nat.dvd_trans (Nat.dvd_of_mod_eq_zero even) (Nat.dvd_of_mod_eq_zero whole))

theorem CapitalRun.not_holds_of_misses {run other : CapitalRun} (misses : run.misses other = true)
    {c d : Char} (held : run.holds c = true) (small : d.toNat = run.small + (c.toNat - run.first)) :
    other.holds d = false := by
  obtain ⟨low, high, whole⟩ := holds_iff.1 held
  refine Bool.eq_false_iff.2 fun within => ?_
  obtain ⟨above, below, steps⟩ := holds_iff.1 within
  simp only [CapitalRun.misses, Bool.or_eq_true, Bool.and_eq_true, Nat.blt_eq, beq_iff_eq] at misses
  rcases misses with (behind | ahead) | ⟨⟨single, second⟩, parity⟩
  · omega
  · omega
  · have alternates := even_of_mod_eq_zero second steps
    have even : (c.toNat - run.first) % 2 = 0 := by
      rcases single with stride | alone
      · exact even_of_mod_eq_zero stride whole
      · omega
    omega

theorem not_holds_lowerChar {run : CapitalRun} (member : run ∈ runs) {c : Char}
    (held : run.holds c = true) : ∀ other ∈ runs,
      other.holds (Char.ofNat (run.small + (c.toNat - run.first))) = false := by
  intro other inRuns
  rcases toNat_ofNat (run.small + (c.toNat - run.first)) with valid | zero
  · have misses := List.all_eq_true.1 (List.all_eq_true.1 misses_runs run member) other inRuns
    exact CapitalRun.not_holds_of_misses misses held valid
  · have positive : ∀ run ∈ runs, 0 < run.first := by decide +kernel
    have first := positive other inRuns
    refine Bool.eq_false_iff.2 fun within => ?_
    have low := (CapitalRun.holds_iff.1 within).1
    omega

theorem lowerChar_lowerChar (c : Char) : lowerChar (lowerChar c) = lowerChar c := by
  rcases lowerChar_cases c with small | ⟨run, member, held, small⟩
  · rw [small, small]
  · rw [small]
    exact lowerChar_of_not_holds (not_holds_lowerChar member held)

theorem isSpace_lowerChar {c : Char} (filled : isSpace c = false) :
    isSpace (lowerChar c) = false := by
  rcases lowerChar_cases c with small | ⟨run, member, held, small⟩
  · rwa [small]
  · have apart : ∀ run ∈ runs, ∀ range ∈ spaceRanges, 0 < range.1 ∧
        (range.2 < run.small ∨ run.small + (run.last - run.first) < range.1) := by decide +kernel
    rw [small]
    refine Bool.eq_false_iff.2 fun space => ?_
    obtain ⟨range, inRanges, low, high⟩ := (inRanges_iff _ _).1 space
    obtain ⟨positive, clear⟩ := apart run member range inRanges
    obtain ⟨_, last, _⟩ := CapitalRun.holds_iff.1 held
    rcases toNat_ofNat (run.small + (c.toNat - run.first)) with valid | zero <;> omega

/-- The character is its own small form wherever it stands. -/
def IsSmall (c : Char) : Prop :=
  lowerChar c = c ∧ c ≠ '\u03a3' ∧ c ≠ '\u0130'

theorem isSmall_lowerChar (c : Char) : IsSmall (lowerChar c) := by
  have again := lowerChar_lowerChar c
  refine ⟨again, fun sigma => ?_, fun dotted => ?_⟩
  · rw [sigma] at again
    exact absurd again (by decide)
  · rw [dotted] at again
    exact absurd again (by decide)

/-- What stands in the small form of a text is small, and white space only if it was before. -/
theorem of_mem_lowerBetween {before after : List Char} {c d : Char}
    (member : d ∈ lowerBetween before c after) :
    IsSmall d ∧ (isSpace c = false → isSpace d = false) := by
  have letters : ∀ letter ∈ ['\u03c2', '\u03c3', 'i', '\u0307'],
      IsSmall letter ∧ isSpace letter = false := by unfold IsSmall; decide
  rw [lowerBetween] at member
  split at member
  · have inside : d ∈ ['\u03c2', '\u03c3', 'i', '\u0307'] := by
      split at member <;> simp_all
    exact ⟨(letters d inside).1, fun _ => (letters d inside).2⟩
  · split at member
    · have inside : d ∈ ['\u03c2', '\u03c3', 'i', '\u0307'] := by simp_all
      exact ⟨(letters d inside).1, fun _ => (letters d inside).2⟩
    · obtain rfl := List.mem_singleton.1 member
      exact ⟨isSmall_lowerChar c, isSpace_lowerChar⟩

theorem of_mem_lowerBehind {before text : List Char} {d : Char}
    (member : d ∈ lowerBehind before text) :
    IsSmall d ∧ ((∀ c ∈ text, isSpace c = false) → isSpace d = false) := by
  induction text generalizing before with
  | nil => cases member
  | cons c rest ih =>
    rcases List.mem_append.1 member with here | later
    · obtain ⟨small, filled⟩ := of_mem_lowerBetween here
      exact ⟨small, fun all => filled (all c List.mem_cons_self)⟩
    · obtain ⟨small, filled⟩ := ih later
      exact ⟨small, fun all => filled fun e inside => all e (List.mem_cons_of_mem _ inside)⟩

theorem lowerBehind_of_small {text : List Char} (small : ∀ c ∈ text, IsSmall c)
    (before : List Char) : lowerBehind before text = text := by
  induction text generalizing before with
  | nil => rfl
  | cons c rest ih =>
    obtain ⟨⟨same, sigma, dotted⟩, later⟩ := List.forall_mem_cons.1 small
    have here : lowerBetween before c rest = [c] := by simp [lowerBetween, sigma, dotted, same]
    rw [lowerBehind, here, ih later]
    rfl

theorem lower_lower (text : List Char) : lower (lower text) = lower text :=
  lowerBehind_of_small (fun _ member => (of_mem_lowerBehind member).1) []

end Markdown.Unicode
