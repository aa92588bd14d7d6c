import Markdown.Proofs.Sheet.Escape

set_option autoImplicit false

namespace Markdown.Renaming

variable {r : Renaming} {known : List Text}

theorem Side.eq_of_char_eq {a b : Side} (same : r.char a = r.char b) : a = b := by
  cases a <;> cases b
  · rfl
  · exact absurd same r.distinct
  · exact absurd same.symm r.distinct
  · rfl

theorem token_inj {c d : Char} (left : c ∈ Escape.alphabet ++ Escape.markers)
    (right : d ∈ Escape.alphabet ++ Escape.markers) (same : Escape.token c = Escape.token d) :
    c = d := by
  have here := Codec.char?_token c left
  rw [same, Codec.char?_token d right] at here
  exact (Option.some.inj here).symm

/-- A hidden marker is a token or a character that is no marker. -/
theorem hide_eq (side : Side) :
    (Escape.isMarker (r.char side) = true ∧ r.hide side = Escape.token (r.char side)) ∨
      (r.char side ≠ Escape.opening ∧ r.hide side = [r.char side]) := by
  rw [hide]
  split
  · next marker => exact .inl ⟨marker, rfl⟩
  · next plain =>
    refine .inr ⟨fun same => plain ?_, rfl⟩
    rw [same]
    decide

theorem head_token (c : Char) (rest : Text) :
    Escape.token c ++ rest = Escape.opening :: 'e' :: (Digest.md5 [c] ++ [Escape.closing] ++ rest) :=
  rfl

theorem head_key (fragment rest : Text) :
    Fragments.key fragment ++ rest =
      Escape.opening :: 'b' :: (Digest.sha256 fragment ++ [Escape.closing] ++ rest) :=
  rfl

/-- A free character is not the first character of a seal. -/
theorem Free.not_head {c : Char} (free : r.Free c) {s : Seal} {rest more : Text} :
    c :: rest ≠ r.face s ++ more := by
  intro same
  have differs := free.ne_opening
  cases s with
  | token d =>
    rw [face_token, head_token] at same
    exact differs (List.cons.inj same).1
  | key fragment =>
    rw [face_key, head_key] at same
    exact differs (List.cons.inj same).1
  | marker side =>
    rw [face_marker] at same
    rcases hide_eq (r := r) side with ⟨_, token⟩ | ⟨_, plain⟩
    · rw [token, head_token] at same
      exact differs (List.cons.inj same).1
    · rw [plain] at same
      exact free.2 side (List.cons.inj same).1

theorem token_append_inj {c d : Char} {rest more : Text}
    (same : Escape.token c ++ rest = Escape.token d ++ more) :
    Escape.token c = Escape.token d ∧ rest = more :=
  List.append_inj same (by simp)

theorem key_append_inj {first second rest more : Text}
    (same : Fragments.key first ++ rest = Fragments.key second ++ more) :
    Fragments.key first = Fragments.key second ∧ rest = more :=
  List.append_inj same (by simp)

theorem token_append_ne_key_append {c : Char} {fragment rest more : Text} :
    Escape.token c ++ rest ≠ Fragments.key fragment ++ more := by
  intro same
  rw [head_token, head_key] at same
  exact absurd (List.cons.inj (List.cons.inj same).2).1 (by decide)

theorem hide_append_ne_key_append {side : Side} {fragment rest more : Text} :
    r.hide side ++ rest ≠ Fragments.key fragment ++ more := by
  intro same
  rcases hide_eq (r := r) side with ⟨_, token⟩ | ⟨differs, plain⟩
  · rw [token] at same
    exact token_append_ne_key_append same
  · rw [plain, head_key] at same
    exact differs (List.cons.inj same).1

theorem token_append_ne_hide_append {c : Char} (escapable : c ∈ Escape.alphabet) {side : Side}
    {rest more : Text} : Escape.token c ++ rest ≠ r.hide side ++ more := by
  intro same
  rcases hide_eq (r := r) side with ⟨marker, token⟩ | ⟨differs, plain⟩
  · rw [token] at same
    have here := token_inj (List.mem_append_left _ escapable)
      (Codec.mem_markers_of_isMarker marker) (token_append_inj same).1
    rw [← here, Codec.isMarker_of_mem_alphabet c escapable] at marker
    cases marker
  · rw [plain, head_token] at same
    exact differs (List.cons.inj same).1.symm

theorem hide_append_inj {a b : Side} {rest more : Text}
    (same : r.hide a ++ rest = r.hide b ++ more) : a = b ∧ rest = more := by
  rcases hide_eq (r := r) a with ⟨left, token⟩ | ⟨differs, plain⟩
  · rcases hide_eq (r := r) b with ⟨right, other⟩ | ⟨differs, plain⟩
    · rw [token, other] at same
      obtain ⟨tokens, rests⟩ := token_append_inj same
      exact ⟨Side.eq_of_char_eq (token_inj (Codec.mem_markers_of_isMarker left)
        (Codec.mem_markers_of_isMarker right) tokens), rests⟩
    · rw [token, plain, head_token] at same
      exact absurd (List.cons.inj same).1.symm differs
  · rcases hide_eq (r := r) b with ⟨right, other⟩ | ⟨_, other⟩
    · rw [plain, other, head_token] at same
      exact absurd (List.cons.inj same).1 differs
    · rw [plain, other] at same
      obtain ⟨chars, rests⟩ := List.cons.inj same
      exact ⟨Side.eq_of_char_eq chars, rests⟩

/-- Two sheets that can come up are the same if their texts are. -/
theorem spell_inj (apart : Fragments.Collisionless known) :
    ∀ {first second : Sheet}, (∀ g ∈ first, r.Valid known g) → (∀ g ∈ second, r.Valid known g) →
      spell r.face first = spell r.face second → first = second
  | [], second, _, _, same => (r.quiet.filled.spell_eq_nil.1 same.symm).symm
  | first, [], _, _, same => r.quiet.filled.spell_eq_nil.1 same
  | g :: rest, h :: more, left, right, same => by
    have next : spell r.face rest = spell r.face more → rest = more :=
      spell_inj apart (fun k member => left k (List.mem_cons_of_mem _ member))
        fun k member => right k (List.mem_cons_of_mem _ member)
    rw [spell_cons, spell_cons] at same
    have here := left g List.mem_cons_self
    have there := right h List.mem_cons_self
    cases here with
    | @char c free =>
      cases there with
      | @char d _ =>
        obtain ⟨rfl, rests⟩ := List.cons.inj same
        rw [next rests]
      | token _ => exact absurd same free.not_head
      | marker _ => exact absurd same free.not_head
      | key _ _ => exact absurd same free.not_head
    | @token c escapable =>
      cases there with
      | char free => exact absurd same.symm free.not_head
      | @token d other =>
        obtain ⟨tokens, rests⟩ := token_append_inj same
        rw [next rests, token_inj (List.mem_append_left _ escapable)
          (List.mem_append_left _ other) tokens]
      | marker side => exact absurd same (token_append_ne_hide_append escapable)
      | @key fragment _ _ =>
        simp only [Glyph.spell, face_key] at same
        exact absurd same token_append_ne_key_append
    | marker side =>
      cases there with
      | char free => exact absurd same.symm free.not_head
      | token other => exact absurd same.symm (token_append_ne_hide_append other)
      | marker side' =>
        obtain ⟨rfl, rests⟩ := hide_append_inj same
        rw [next rests]
      | @key fragment _ _ =>
        simp only [Glyph.spell, face_key] at same
        exact absurd same hide_append_ne_key_append
    | @key fragment kept valid =>
      cases there with
      | char free => exact absurd same.symm free.not_head
      | token other =>
        simp only [Glyph.spell, face_key] at same
        exact absurd same.symm token_append_ne_key_append
      | marker side =>
        simp only [Glyph.spell, face_key] at same
        exact absurd same.symm hide_append_ne_key_append
      | @key fragment' kept' valid' =>
        simp only [Glyph.spell, face_key] at same
        obtain ⟨keys, rests⟩ := key_append_inj same
        have texts := apart _ kept _ kept' (Fragments.key_inj.1 keys)
        have inner : fragment = fragment' := spell_inj apart valid valid' texts
        rw [next rests, inner]
termination_by first => sizeOf first

/-- Two printed texts are the same exactly if their sheets are. -/
theorem Prints.text_inj (apart : Fragments.Collisionless known) {first second : Sheet}
    {early late : Text} (left : r.Prints known first early) (right : r.Prints known second late) :
    early = late ↔ first = second := by
  constructor
  · intro same
    refine spell_inj apart left.valid right.valid ?_
    rw [left.spelled, right.spelled, same]
  · rintro rfl
    exact left.spelled.symm.trans right.spelled

/-- Only a fragment put aside is written as a key. -/
theorem Prints.exists_key {sheet : Sheet} {fragment : Text}
    (prints : r.Prints known sheet (Fragments.key fragment)) :
    ∃ inside, sheet = [.sealed (.key inside)] := by
  obtain ⟨written, valid⟩ := prints
  have same : spell r.face sheet = Fragments.key fragment ++ [] := by rw [written, List.append_nil]
  cases sheet with
  | nil => cases same
  | cons g rest =>
    rw [spell_cons] at same
    cases valid g List.mem_cons_self with
    | @char c free =>
      rw [head_key] at same
      exact absurd (List.cons.inj same).1 free.ne_opening
    | token _ => exact absurd same token_append_ne_key_append
    | marker _ => exact absurd same hide_append_ne_key_append
    | @key inside _ _ =>
      simp only [Glyph.spell, face_key] at same
      have nothing := (key_append_inj same).2
      exact ⟨inside, by rw [r.quiet.filled.spell_eq_nil.1 nothing]⟩

end Markdown.Renaming
