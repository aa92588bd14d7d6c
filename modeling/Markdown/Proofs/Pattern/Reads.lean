import Mathlib.Computability.Language
import Markdown.Proofs.Pattern.Leads

set_option autoImplicit false

namespace Markdown

namespace Pattern

variable {slot : Type} [DecidableEq slot]

/-- The pattern leads from a place to one that `ahead` stands ahead of exactly if `here` stands
ahead of the place. -/
def Reads (pattern : Pattern slot) (ahead here : Language Char) : Prop :=
  ∀ reading : Reading slot,
    (∃ later ∈ pattern.outcomes reading, later.cursor.after ∈ ahead) ↔ reading.cursor.after ∈ here

def single (accepts : Char → Bool) : Language Char :=
  {word | ∃ c, word = [c] ∧ accepts c = true}

def anyOver (accepts : Char → Bool) : Language Char :=
  {word | ∀ c ∈ word, accepts c = true}

def someOver (accepts : Char → Bool) : Language Char :=
  {word | word ≠ [] ∧ ∀ c ∈ word, accepts c = true}

/-- The words over a class with up to so many characters. -/
def fewOver (count : Nat) (accepts : Char → Bool) : Language Char :=
  {word | word.length ≤ count ∧ ∀ c ∈ word, accepts c = true}

theorem single_mul_anyOver (accepts : Char → Bool) :
    single accepts * anyOver accepts = someOver accepts := by
  ext word
  constructor
  · rintro ⟨_, ⟨c, rfl, first⟩, rest, inClass, rfl⟩
    exact ⟨List.cons_ne_nil c rest, List.forall_mem_cons.2 ⟨first, inClass⟩⟩
  · rintro ⟨some, inClass⟩
    cases word with
    | nil => cases some rfl
    | cons c rest =>
      obtain ⟨first, later⟩ := List.forall_mem_cons.1 inClass
      exact ⟨[c], ⟨c, rfl, first⟩, rest, later, rfl⟩

section

variable {first second body : Pattern slot} {ahead middle here other : Language Char}
  {accepts : Char → Bool}

theorem Reads.outcomes_ne_nil_iff (reads : body.Reads ⊤ here) (reading : Reading slot) :
    body.outcomes reading ≠ [] ↔ reading.cursor.after ∈ here := by
  rw [← reads reading]
  constructor
  · intro some
    obtain ⟨later, member⟩ := List.exists_mem_of_ne_nil _ some
    exact ⟨later, member, trivial⟩
  · rintro ⟨later, member, -⟩
    exact List.ne_nil_of_mem member

/-- What a pattern passes is of its language. -/
theorem exists_passes_of_reads {words : Language Char} {reading later : Reading slot}
    (reads : ∀ ahead, body.Reads ahead (words * ahead))
    (member : later ∈ body.outcomes reading) :
    ∃ passed ∈ words, reading.cursor.Passes passed later.cursor := by
  obtain ⟨passed, passes⟩ := exists_passes_of_mem_outcomes member
  have stands := (reads {later.cursor.after} reading).1 ⟨later, member, rfl⟩
  obtain ⟨word, inWords, _, rfl, same⟩ := stands
  obtain rfl : word = passed := List.append_cancel_right (same.trans passes.after)
  exact ⟨word, inWords, passes⟩

theorem reads_empty : (Pattern.empty : Pattern slot).Reads ahead ahead := by
  intro reading
  simp [outcomes]

theorem Reads.seq (early : first.Reads middle here) (late : second.Reads ahead middle) :
    (first.seq second).Reads ahead here := by
  intro reading
  rw [← early reading]
  constructor
  · rintro ⟨later, member, stands⟩
    obtain ⟨between, reached, onward⟩ := List.mem_flatMap.1 member
    exact ⟨between, reached, (late between).1 ⟨later, onward, stands⟩⟩
  · rintro ⟨between, reached, stands⟩
    obtain ⟨later, onward, stands⟩ := (late between).2 stands
    exact ⟨later, List.mem_flatMap.2 ⟨between, reached, onward⟩, stands⟩

theorem Reads.either (left : first.Reads ahead here) (right : second.Reads ahead other) :
    (first.either second).Reads ahead (here + other) := by
  intro reading
  rw [Language.mem_add, ← left reading, ← right reading]
  simp only [outcomes, List.mem_append, or_and_right, exists_or]

theorem Reads.optional (reads : body.Reads ahead here) :
    (Pattern.optional body).Reads ahead (here + ahead) :=
  reads.either reads_empty

theorem Reads.capture (name : slot) (reads : body.Reads ahead here) :
    (body.capture name).Reads ahead here := by
  intro reading
  rw [← reads reading, outcomes]
  constructor
  · rintro ⟨_, member, stands⟩
    obtain ⟨later, inside, rfl⟩ := List.mem_map.1 member
    exact ⟨later, inside, stands⟩
  · rintro ⟨later, inside, stands⟩
    exact ⟨_, List.mem_map.2 ⟨later, inside, rfl⟩, stands⟩

theorem reads_one : (Pattern.one accepts : Pattern slot).Reads ahead (single accepts * ahead) := by
  intro reading
  rw [outcomes]
  constructor
  · split
    · rintro ⟨_, impossible, -⟩
      cases impossible
    · next c rest next =>
      split
      · next accepted =>
        rintro ⟨later, member, stands⟩
        obtain rfl := List.mem_singleton.1 member
        exact ⟨[c], ⟨c, rfl, accepted⟩, rest, stands, next.symm⟩
      · rintro ⟨_, impossible, -⟩
        cases impossible
  · rintro ⟨_, ⟨c, rfl, accepted⟩, rest, stands, next⟩
    rw [← next]
    exact ⟨⟨reading.cursor.past c rest, reading.captures⟩, by simp [accepted], stands⟩

theorem reads_char (c : Char) : (Pattern.char c : Pattern slot).Reads ahead ({[c]} * ahead) := by
  have only : single (· == c) = {[c]} := by
    ext word
    constructor
    · rintro ⟨d, rfl, same⟩
      exact congrArg ([·]) (eq_of_beq same)
    · rintro rfl
      exact ⟨c, rfl, beq_self_eq_true c⟩
  rw [← only]
  exact reads_one

theorem reads_literal (text : Text) :
    (Pattern.literal text : Pattern slot).Reads ahead ({text} * ahead) := by
  rw [literal]
  induction text with
  | nil => exact (one_mul ahead).symm ▸ reads_empty
  | cons c rest ih =>
    cases rest with
    | nil => exact reads_char c
    | cons d rest =>
      have split : ({c :: d :: rest} : Language Char) = {[c]} * {d :: rest} := by
        ext word
        constructor
        · rintro rfl
          exact ⟨[c], rfl, _, rfl, rfl⟩
        · rintro ⟨_, rfl, _, rfl, rfl⟩
          rfl
      rw [split, mul_assoc]
      exact (reads_char c).seq ih

/-- A run stops behind each word over its class that stands here. -/
theorem mem_stops_of_passes {cursor stop : Cursor} {passed : Text}
    (passes : cursor.Passes passed stop) (inClass : ∀ c ∈ passed, accepts c = true) :
    stop ∈ cursor.stops accepts := by
  obtain ⟨offset, before, after⟩ := cursor
  rw [Cursor.stops]
  induction passed generalizing offset before after with
  | nil =>
    obtain rfl : stop = ⟨offset, before, after⟩ := by
      obtain ⟨stopOffset, stopBefore, stopAfter⟩ := stop
      obtain ⟨rfl, rfl, same⟩ := passes
      exact congrArg _ same.symm
    cases after with
    | nil => simp [Cursor.reached]
    | cons c rest =>
      simp only [Cursor.reached]
      split
      · rw [Cursor.reached_eq_append]
        simp
      · simp
  | cons c passed ih =>
    obtain ⟨first, later⟩ := List.forall_mem_cons.1 inClass
    obtain rfl : after = c :: (passed ++ stop.after) := passes.after
    have onward : Cursor.Passes ⟨offset + 1, c :: before, passed ++ stop.after⟩ passed stop :=
      ⟨by simpa [Nat.add_assoc, Nat.add_comm 1] using passes.offset, by simp [passes.before], rfl⟩
    simp only [Cursor.reached, first, if_true]
    rw [Cursor.reached_eq_append]
    exact List.mem_append_left _ (ih later _ _ _ onward)

/-- The place behind a text that stands here. -/
theorem exists_passes_of_after {cursor : Cursor} {passed rest : Text}
    (stands : cursor.after = passed ++ rest) :
    ∃ stop : Cursor, cursor.Passes passed stop ∧ stop.after = rest :=
  ⟨⟨cursor.offset + passed.length, passed.reverse ++ cursor.before, rest⟩, ⟨rfl, rfl, stands⟩, rfl⟩

theorem exists_mem_stops_iff {cursor : Cursor} :
    (∃ stop ∈ cursor.stops accepts, stop.after ∈ ahead) ↔
      cursor.after ∈ anyOver accepts * ahead := by
  constructor
  · rintro ⟨stop, member, stands⟩
    obtain ⟨passed, passes, inClass⟩ := Cursor.exists_passes_of_mem_stops member
    exact ⟨passed, inClass, stop.after, stands, passes.after.symm⟩
  · rintro ⟨passed, inClass, rest, stands, whole⟩
    obtain ⟨stop, passes, rfl⟩ := exists_passes_of_after whole.symm
    exact ⟨stop, mem_stops_of_passes passes inClass, stands⟩

theorem reads_many :
    (Pattern.many accepts : Pattern slot).Reads ahead (anyOver accepts * ahead) := by
  intro reading
  rw [outcomes, ← exists_mem_stops_iff]
  simp

theorem reads_few :
    (Pattern.few accepts : Pattern slot).Reads ahead (anyOver accepts * ahead) := by
  intro reading
  rw [outcomes, ← exists_mem_stops_iff]
  simp

theorem reads_many1 :
    (Pattern.many1 accepts : Pattern slot).Reads ahead (someOver accepts * ahead) := by
  rw [← single_mul_anyOver, mul_assoc]
  exact reads_one.seq reads_many

theorem reads_few1 :
    (Pattern.few1 accepts : Pattern slot).Reads ahead (someOver accepts * ahead) := by
  rw [← single_mul_anyOver, mul_assoc]
  exact reads_one.seq reads_few

theorem fewOver_zero : fewOver 0 accepts = 1 := by
  ext word
  rw [Language.mem_one]
  constructor
  · rintro ⟨short, -⟩
    exact List.length_eq_zero_iff.1 (Nat.le_zero.1 short)
  · rintro rfl
    exact ⟨Nat.le_refl 0, by simp⟩

theorem fewOver_succ (count : Nat) :
    fewOver (count + 1) accepts = single accepts * fewOver count accepts + 1 := by
  ext word
  constructor
  · rintro ⟨short, inClass⟩
    cases word with
    | nil => exact .inr rfl
    | cons c rest =>
      obtain ⟨first, later⟩ := List.forall_mem_cons.1 inClass
      exact .inl ⟨[c], ⟨c, rfl, first⟩, rest, ⟨Nat.le_of_succ_le_succ short, later⟩, rfl⟩
  · rintro (⟨_, ⟨c, rfl, first⟩, rest, ⟨short, later⟩, rfl⟩ | rfl)
    · exact ⟨Nat.succ_le_succ short, List.forall_mem_cons.2 ⟨first, later⟩⟩
    · exact ⟨Nat.zero_le _, by simp⟩

theorem reads_upTo (count : Nat) : (Pattern.upTo count (.one accepts) : Pattern slot).Reads ahead
    (fewOver count accepts * ahead) := by
  induction count with
  | zero =>
    rw [fewOver_zero, one_mul]
    exact reads_empty
  | succ count ih =>
    rw [fewOver_succ, add_mul, one_mul, mul_assoc]
    exact (reads_one.seq ih).optional

/-- What stands at the end of a line. -/
def lineEnds : Language Char :=
  {text | text = [] ∨ ∃ rest, text = '\n' :: rest}

theorem reads_lineEnd : (Pattern.lineEnd : Pattern slot).Reads ⊤ lineEnds := by
  intro reading
  have ends : reading.cursor.atLineEnd = true ↔ reading.cursor.after ∈ lineEnds := by
    rw [Cursor.atLineEnd, Cursor.atTextEnd, Cursor.precedes]
    cases reading.cursor.after with
    | nil => exact ⟨fun _ => .inl rfl, fun _ => rfl⟩
    | cons c rest =>
      constructor
      · intro newline
        exact .inr ⟨rest, by rw [eq_of_beq newline]⟩
      · rintro (impossible | ⟨_, same⟩)
        · cases impossible
        · rw [(List.cons.inj same).1]
          rfl
  rw [lineEnd, outcomes, ← ends]
  split
  · next here => exact ⟨fun _ => here, fun _ => ⟨reading, List.mem_singleton_self _, trivial⟩⟩
  · next here =>
    refine ⟨?_, fun there => absurd there here⟩
    rintro ⟨_, impossible, _⟩
    cases impossible

end

end Pattern

end Markdown
