import Markdown.Proofs.Glyph.Search

set_option autoImplicit false

namespace Markdown

namespace Pattern

variable {slot : Type} [DecidableEq slot]

/-- The way that is tried first leads to the later reading. -/
def Leads (pattern : Pattern slot) (reading later : Reading slot) : Prop :=
  (pattern.outcomes reading).head? = some later

section

variable {first second body : Pattern slot} {reading middle later : Reading slot}
  {captures : List (slot × Thunk Text)} {offset : Nat} {before rest : Text}

theorem Leads.seq (early : first.Leads reading middle) (late : second.Leads middle later) :
    (first.seq second).Leads reading later := by
  obtain ⟨others, tried⟩ := List.head?_eq_some_iff.1 early
  obtain ⟨more, reached⟩ := List.head?_eq_some_iff.1 late
  rw [Leads, outcomes, tried, List.flatMap_cons, reached]
  rfl

theorem exists_head?_of_flatMap {α β : Type} {items : List α} {f : α → List β} {result : β}
    (found : (items.flatMap f).head? = some result) :
    ∃ item ∈ items, (f item).head? = some result := by
  induction items with
  | nil => cases found
  | cons item items ih =>
    rw [List.flatMap_cons, List.head?_append, Option.or_eq_some_iff] at found
    rcases found with here | ⟨-, behind⟩
    · exact ⟨item, List.mem_cons_self, here⟩
    · obtain ⟨other, member, tried⟩ := ih behind
      exact ⟨other, List.mem_cons_of_mem _ member, tried⟩

/-- The way that leads through two patterns begins with an outcome of the first. -/
theorem Leads.exists_of_seq (leads : (first.seq second).Leads reading later) :
    ∃ middle ∈ first.outcomes reading, second.Leads middle later :=
  exists_head?_of_flatMap leads

theorem Leads.exists_of_capture {name : slot} (leads : (body.capture name).Leads reading later) :
    ∃ inner, body.Leads reading inner ∧ later = ⟨inner.cursor,
      (name, Thunk.mk fun _ => reading.cursor.upTo inner.cursor) :: inner.captures⟩ := by
  rw [Leads, outcomes, List.head?_map] at leads
  obtain ⟨inner, tried, rfl⟩ := Option.map_eq_some_iff.1 leads
  exact ⟨inner, tried, rfl⟩

theorem Leads.capture (name : slot) (leads : body.Leads reading later) :
    (body.capture name).Leads reading
      ⟨later.cursor, (name, Thunk.mk fun _ => reading.cursor.upTo later.cursor) ::
        later.captures⟩ := by
  rw [Leads, outcomes, List.head?_map, leads]
  rfl

theorem leads_one {accepts : Char → Bool} {c : Char} (here : accepts c = true) :
    (Pattern.one accepts : Pattern slot).Leads ⟨⟨offset, before, c :: rest⟩, captures⟩
      ⟨⟨offset + 1, c :: before, rest⟩, captures⟩ := by
  simp [Leads, outcomes, Cursor.past, here]

theorem leads_char (c : Char) :
    (Pattern.char c : Pattern slot).Leads ⟨⟨offset, before, c :: rest⟩, captures⟩
      ⟨⟨offset + 1, c :: before, rest⟩, captures⟩ :=
  leads_one (beq_self_eq_true c)

/-- An eager run takes all it can. -/
theorem leads_many_of_head? {accepts : Char → Bool} {passed : Text}
    (inClass : ∀ c ∈ passed, accepts c = true) (outside : ∀ d ∈ rest.head?, accepts d = false) :
    (Pattern.many accepts : Pattern slot).Leads ⟨⟨offset, before, passed ++ rest⟩, captures⟩
      ⟨⟨offset + passed.length, passed.reverse ++ before, rest⟩, captures⟩ := by
  have farthest : (Cursor.stops ⟨offset, before, passed ++ rest⟩ accepts).head? =
      some ⟨offset + passed.length, passed.reverse ++ before, rest⟩ := by
    rw [Cursor.stops]
    induction passed generalizing offset before with
    | nil =>
      cases rest with
      | nil => rfl
      | cons d rest => simp [Cursor.reached, outside d rfl]
    | cons c passed ih =>
      obtain ⟨here, later⟩ := List.forall_mem_cons.1 inClass
      have next := @ih (offset + 1) (c :: before) later
      simp only [List.cons_append, Cursor.reached, here, if_true] at next ⊢
      rw [Cursor.reached_eq_append, List.head?_append, next]
      simp [Nat.add_assoc, Nat.add_comm 1]
  rw [Leads, outcomes, List.head?_map, farthest]
  rfl

theorem leads_many {accepts : Char → Bool} {passed : Text}
    (inClass : ∀ c ∈ passed, accepts c = true) {d : Char} (outside : accepts d = false) :
    (Pattern.many accepts : Pattern slot).Leads ⟨⟨offset, before, passed ++ d :: rest⟩, captures⟩
      ⟨⟨offset + passed.length, passed.reverse ++ before, d :: rest⟩, captures⟩ :=
  leads_many_of_head? inClass (by simpa using outside)

theorem leads_many1 {accepts : Char → Bool} {passed : Text} (some : passed ≠ [])
    (inClass : ∀ c ∈ passed, accepts c = true) {d : Char} (outside : accepts d = false) :
    (Pattern.many1 accepts : Pattern slot).Leads ⟨⟨offset, before, passed ++ d :: rest⟩, captures⟩
      ⟨⟨offset + passed.length, passed.reverse ++ before, d :: rest⟩, captures⟩ := by
  obtain ⟨c, passed, rfl⟩ := List.exists_cons_of_ne_nil some
  obtain ⟨here, others⟩ := List.forall_mem_cons.1 inClass
  have leads := (leads_one here).seq (@leads_many slot _ captures (offset + 1) (c :: before) rest
    accepts passed others d outside)
  rw [many1]
  simpa [Nat.add_assoc, Nat.add_comm 1] using leads

theorem leads_optional (impossible : body.outcomes reading = []) :
    (Pattern.optional body).Leads reading reading := by
  rw [Leads, optional, outcomes, impossible]
  rfl

theorem Leads.optional (leads : body.Leads reading later) :
    (Pattern.optional body).Leads reading later := by
  rw [Leads, Pattern.optional, outcomes, List.head?_append, leads]
  rfl

theorem leads_rounds (impossible : body.outcomes reading = []) :
    (Pattern.rounds body).Leads reading reading := by
  rw [Leads, outcomes]
  cases reading.cursor.after.length with
  | zero => rfl
  | succ budget =>
    rw [repetitions, impossible]
    rfl

theorem leads_place {holds : Cursor → Bool} (here : holds reading.cursor = true) :
    (Pattern.place holds : Pattern slot).Leads reading reading := by
  rw [Leads, outcomes, if_pos here]
  rfl

end

/-- A match that goes through to the end of the text is the only one. -/
theorem segments_of_leads {pattern : Pattern slot} {c : Char} {text : Text} {later : Reading slot}
    (leads : pattern.Leads ⟨.first (c :: text), []⟩ later) (ended : later.cursor.after = []) :
    pattern.segments (c :: text) = [.found ⟨.first (c :: text), later⟩] := by
  have found : pattern.run ⟨.first (c :: text), []⟩ some = some later := by
    rw [run_eq_head?]
    exact leads
  have nothing : ∀ budget, pattern.segmentsFrom budget later.cursor = [] := by
    intro budget
    cases budget <;> simp [segmentsFrom, ended]
  simp only [segments, List.length_cons, segmentsFrom, Cursor.first] at found ⊢
  rw [found]
  exact congrArg (_ :: ·) (nothing _)

theorem text_of_leads {pattern : Pattern slot} {c : Char} {text : Text} {later : Reading slot}
    (leads : pattern.Leads ⟨.first (c :: text), []⟩ later) (ended : later.cursor.after = []) :
    Match.text ⟨.first (c :: text), later⟩ = c :: text := by
  have whole := pattern.flatMap_text_segments (c :: text)
  rw [segments_of_leads leads ended] at whole
  exact (List.append_nil _).symm.trans whole

/-- Where no character of the text begins a match the text stays as it is. -/
theorem replace_of_run_eq_none {pattern : Pattern slot} {text : Text}
    (nowhere : ∀ (cursor : Cursor) (c : Char) (rest : Text), cursor.after = c :: rest → c ∈ text →
      pattern.run ⟨cursor, []⟩ some = none) (replacement : Match slot → Text) :
    pattern.replace replacement text = text := by
  have plain : ∀ (budget : Nat) (cursor : Cursor), cursor.after ⊆ text →
      pattern.segmentsFrom budget cursor = cursor.after.map .plain := by
    intro budget
    induction budget with
    | zero => exact fun _ _ => rfl
    | succ budget ih =>
      intro cursor within
      rw [segmentsFrom]
      cases next : cursor.after with
      | nil => rfl
      | cons c rest =>
        rw [next] at within
        obtain ⟨here, later⟩ := List.cons_subset.1 within
        rw [nowhere cursor c rest next here, List.map_cons]
        exact congrArg (_ :: ·) (ih (cursor.past c rest) later)
  rw [replace, segments, plain _ _ (List.Subset.refl _), List.flatMap_map]
  exact List.flatMap_singleton' text

/-- Without a match every character is a piece of its own. -/
theorem segments_of_matches?_eq_nil {pattern : Pattern slot} {text : Text}
    (unmatched : pattern.matches? text = []) :
    pattern.segments text = text.map .plain := by
  have alone : ∀ pieces : List (Segment slot), pieces.filterMap Segment.match? = [] →
      pieces = (pieces.flatMap Segment.text).map .plain := by
    intro pieces
    induction pieces with
    | nil => exact fun _ => rfl
    | cons piece rest ih =>
      cases piece with
      | plain c => exact fun later => congrArg (.plain c :: ·) (ih later)
      | found f => exact fun impossible => absurd impossible (List.cons_ne_nil f _)
  have cut := alone _ unmatched
  rwa [flatMap_text_segments] at cut

theorem replace_of_matches?_eq_nil {pattern : Pattern slot} {text : Text}
    (unmatched : pattern.matches? text = []) (replacement : Match slot → Text) :
    pattern.replace replacement text = text := by
  rw [replace, segments_of_matches?_eq_nil unmatched, List.flatMap_map]
  exact List.flatMap_singleton' text

theorem replaceM_of_matches?_eq_nil {m : Type → Type} [Monad m] [LawfulMonad m]
    {pattern : Pattern slot} {text : Text} (unmatched : pattern.matches? text = [])
    (replacement : Match slot → m Text) :
    pattern.replaceM replacement text = pure text := by
  rw [replaceM, segments_of_matches?_eq_nil unmatched, mapM_replacedM_plain, pure_bind,
    flatten_map_singleton]

/-- What stands in front and lacks an item stands in front of the item. -/
theorem exists_of_append_cons {α : Type} {item : α} {early late front back : List α}
    (cut : early ++ item :: late = front ++ back) (apart : item ∉ front) :
    ∃ more, early = front ++ more ∧ back = more ++ item :: late := by
  rcases List.append_eq_append_iff.1 cut with ⟨longer, rfl, same⟩ | within
  · cases longer with
    | nil => exact ⟨[], by simp, same.symm⟩
    | cons first longer =>
      obtain ⟨rfl, -⟩ := List.cons.inj same
      exact absurd (by simp) apart
  · exact within

theorem outcomes_seq_eq_nil {first second : Pattern slot} {reading : Reading slot}
    (nowhere : ∀ later ∈ first.outcomes reading, second.outcomes later = []) :
    (first.seq second).outcomes reading = [] :=
  List.flatMap_eq_nil_iff.2 nowhere

theorem exists_passes_of_mem_many1 {accepts : Char → Bool} {reading later : Reading slot}
    (member : later ∈ (Pattern.many1 accepts).outcomes reading) :
    ∃ passed, reading.cursor.Passes passed later.cursor ∧ ∀ c ∈ passed, accepts c = true := by
  obtain ⟨begun, first, farther⟩ := List.mem_flatMap.1 member
  obtain ⟨stop, reached, rfl⟩ := List.mem_map.1 farther
  obtain ⟨passed, passes, inClass⟩ := Cursor.exists_passes_of_mem_stops reached
  rw [outcomes] at first
  split at first
  · cases first
  · next c rest next =>
    split at first
    · next accepted =>
      obtain rfl := List.mem_singleton.1 first
      exact ⟨c :: passed, .cons next passes, List.forall_mem_cons.2 ⟨accepted, inClass⟩⟩
    · cases first

theorem of_mem_char {c : Char} {reading later : Reading slot}
    (member : later ∈ (Pattern.char c).outcomes reading) : ∃ rest,
      reading.cursor.after = c :: rest ∧ later = ⟨reading.cursor.past c rest, reading.captures⟩ := by
  rw [char, outcomes] at member
  split at member
  · cases member
  · next d rest next =>
    split at member
    · next same =>
      obtain rfl := eq_of_beq same
      exact ⟨rest, next, List.mem_singleton.1 member⟩
    · cases member

theorem mem_outcomes_place_iff {holds : Cursor → Bool} {reading later : Reading slot} :
    later ∈ (Pattern.place holds).outcomes reading ↔
      later = reading ∧ holds reading.cursor = true := by
  rw [outcomes]
  split <;> simp [*]

theorem mem_outcomes_ahead_iff {body : Pattern slot} {reading later : Reading slot} :
    later ∈ (Pattern.ahead true body).outcomes reading ↔
      later = reading ∧ body.outcomes reading ≠ [] := by
  rw [outcomes]
  cases body.outcomes reading <;> simp

theorem mem_outcomes_notAhead_iff {body : Pattern slot} {reading later : Reading slot} :
    later ∈ (Pattern.ahead false body).outcomes reading ↔
      later = reading ∧ body.outcomes reading = [] := by
  rw [outcomes]
  cases body.outcomes reading <;> simp

end Pattern

end Markdown
