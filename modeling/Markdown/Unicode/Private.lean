import Markdown.Unicode.Caseless
import Markdown.Unicode.Digit
import Markdown.Unicode.Space
import Markdown.Unicode.Word

set_option autoImplicit false

namespace Markdown.Unicode

/-- The areas for private use. -/
def privateRanges : List (Nat × Nat) :=
  [(0xe000, 0xf8ff), (0xf0000, 0xffffd), (0x100000, 0x10fffd)]

def isPrivate (c : Char) : Bool :=
  inRanges privateRanges c

theorem isPrivate_bounds {c : Char} (here : isPrivate c = true) :
    0xe000 ≤ c.toNat ∧ (c.toNat ≤ 0xf8ff ∨ 0xf0000 ≤ c.toNat) := by
  obtain ⟨range, member, low, high⟩ := (inRanges_iff _ _).1 here
  simp only [privateRanges, List.mem_cons, List.not_mem_nil, or_false] at member
  rcases member with rfl | rfl | rfl <;> simp only at low high <;> omega

/-- The letters and digits of ASCII stand below the areas. -/
theorem toNat_lt_of_isAlphanum {c : Char} (here : c.isAlphanum = true) : c.toNat < 128 := by
  have below : ∀ {high : UInt32}, c.val ≤ high → high.toNat < 128 → c.toNat < 128 :=
    fun within small => Nat.lt_of_le_of_lt (UInt32.le_iff_toNat_le.1 within) small
  rcases Bool.or_eq_true_iff.1 here with letter | digit
  · rcases Bool.or_eq_true_iff.1 letter with upper | lower
    · exact below (of_decide_eq_true upper).2 (by decide)
    · exact below (of_decide_eq_true (Bool.and_eq_true_iff.1 lower).2) (by decide)
  · exact below (of_decide_eq_true (Bool.and_eq_true_iff.1 digit).2) (by decide)

theorem ne_of_isPrivate {c d : Char} (here : isPrivate c = true) (other : isPrivate d = false) :
    c ≠ d := by
  rintro rfl
  rw [here] at other
  cases other

/-- The range does not touch the areas for private use. -/
def isPublic (low high : Nat) : Bool :=
  decide (high < 0xe000) || (decide (0xf8ff < low) && decide (high < 0xf0000))

theorem not_within_of_isPublic {low high : Nat} (apart : isPublic low high = true) {c : Char}
    (here : isPrivate c = true) : ¬ (low ≤ c.toNat ∧ c.toNat ≤ high) := by
  have bounds := isPrivate_bounds here
  simp only [isPublic, Bool.or_eq_true, Bool.and_eq_true, decide_eq_true_eq] at apart
  omega

theorem inRanges_eq_false {ranges : List (Nat × Nat)}
    (apart : (ranges.all fun range => isPublic range.1 range.2) = true) {c : Char}
    (here : isPrivate c = true) : inRanges ranges c = false := by
  refine Bool.eq_false_iff.2 fun inside => ?_
  obtain ⟨range, member, low, high⟩ := (inRanges_iff _ _).1 inside
  exact not_within_of_isPublic (List.all_eq_true.1 apart range member) here ⟨low, high⟩

theorem isSpace_of_isPrivate {c : Char} (here : isPrivate c = true) : isSpace c = false :=
  inRanges_eq_false (by decide) here

theorem isDigit_of_isPrivate {c : Char} (here : isPrivate c = true) : isDigit c = false :=
  inRanges_eq_false (by decide) here

theorem isWord_of_isPrivate {c : Char} (here : isPrivate c = true) : isWord c = false := by
  have bounds := isPrivate_bounds here
  rw [isWord, if_neg (by omega)]
  exact inRanges_eq_false (by decide +kernel) here

theorem lowerChar_of_isPrivate {c : Char} (here : isPrivate c = true) : lowerChar c = c := by
  have bounds := isPrivate_bounds here
  have nowhere : capitalRuns.find? (·.holds c) = none := by
    refine List.find?_eq_none.2 fun run member => ?_
    have all : ∀ run ∈ capitalRuns, isPublic run.first run.last = true := by decide +kernel
    have outside := not_within_of_isPublic (all run member) here
    simp only [CapitalRun.holds, Bool.and_eq_true, decide_eq_true_eq]
    exact fun inside => outside inside.1
  rw [lowerChar, if_neg (by omega), nowhere]
  simp [ne_of_isPrivate here (d := '\u0130') (by decide)]

theorem toNat_ofNat (code : Nat) : (Char.ofNat code).toNat = code ∨ (Char.ofNat code).toNat = 0 := by
  by_cases valid : code.isValidChar
  · rw [Char.ofNat, dif_pos valid]
    exact .inl rfl
  · rw [Char.ofNat, dif_neg valid]
    exact .inr rfl

/-- No other character has a private one as its small form. -/
theorem isPrivate_of_lowerChar {c : Char} (small : isPrivate (lowerChar c) = true) :
    isPrivate c = true := by
  have smalls : ∀ run ∈ capitalRuns,
      isPublic run.small (run.small + (run.last - run.first)) = true := by decide +kernel
  rw [lowerChar] at small
  split at small
  · next ascii =>
    have lowers : ∀ code < 128, (Char.ofNat code).toLower.toNat < 128 := by decide
    have low := lowers c.toNat ascii
    rw [Char.ofNat_toNat] at low
    have high := (isPrivate_bounds small).1
    omega
  · split at small
    · exact absurd small (by decide)
    · split at small
      · next run found =>
        have held := List.find?_some found
        simp only [CapitalRun.holds, Bool.and_eq_true, decide_eq_true_eq] at held
        have clear := smalls run (List.mem_of_find?_eq_some found)
        refine absurd ?_ (not_within_of_isPublic clear small)
        have bounds := isPrivate_bounds small
        rcases toNat_ofNat (run.small + (c.toNat - run.first)) with same | zero
        · rw [same]
          omega
        · omega
      · exact small

theorem isFormOf_of_isPrivate {letter c : Char} (here : isPrivate c = true)
    (plain : isPrivate letter = false) : isFormOf letter c = false := by
  simp [isFormOf, lowerChar_of_isPrivate here, ne_of_isPrivate here plain,
    ne_of_isPrivate here (d := '\u0131') (by decide),
    ne_of_isPrivate here (d := '\u017f') (by decide)]

end Markdown.Unicode
