import Markdown.Proofs.Sheet.Escape

set_option autoImplicit false

namespace Markdown

/-- Markers stand in the text only in whole tokens and in whole keys of the kind. -/
inductive Whole (kind : Text → Prop) : Text → Prop where
  | nil : Whole kind []
  | char {c : Char} {rest : Text} (plain : Escape.isMarker c = false) (later : Whole kind rest) :
    Whole kind (c :: rest)
  | token {token rest : Text} (stamped : IsStamp 'e' 32 token) (later : Whole kind rest) :
    Whole kind (token ++ rest)
  | key {key rest : Text} (stamped : IsStamp 'b' 64 key) (fits : kind key)
    (later : Whole kind rest) : Whole kind (key ++ rest)

theorem isStamp_token (c : Char) : IsStamp 'e' 32 (Escape.token c) :=
  ⟨_, rfl, by simp, fun _ => Escape.isDigestDigit_of_mem_hex⟩

theorem isStamp_key (fragment : Text) : IsStamp 'b' 64 (Fragments.key fragment) :=
  ⟨_, rfl, by simp, fun _ => Escape.isDigestDigit_of_mem_hex⟩

theorem ne_opening_of_not_isMarker {c : Char} (plain : Escape.isMarker c = false) :
    c ≠ Escape.opening := by
  rintro rfl
  cases plain

/-- A stamp begins with the opening marker and holds no other. -/
theorem IsStamp.exists_eq_cons {letter : Char} {count : Nat} {word : Text}
    (stamped : IsStamp letter count word) (other : letter ≠ Escape.opening) :
    ∃ inside, word = Escape.opening :: letter :: inside ∧ Escape.opening ∉ letter :: inside := by
  obtain ⟨digits, rfl, -, inClass⟩ := stamped
  refine ⟨_, rfl, fun member => ?_⟩
  rcases List.mem_cons.1 member with same | inside
  · exact other same.symm
  · exact Renaming.Prints.opening_not_mem_of_digits inClass inside

namespace Whole

variable {kind : Text → Prop} {first second text : Text}

theorem append (left : Whole kind first) (right : Whole kind second) :
    Whole kind (first ++ second) := by
  induction left with
  | nil => exact right
  | char plain _ ih => exact .char plain ih
  | token stamped _ ih =>
    rw [List.append_assoc]
    exact .token stamped ih
  | key stamped fits _ ih =>
    rw [List.append_assoc]
    exact .key stamped fits ih

theorem mono {wider : Text → Prop} (implies : ∀ key, kind key → wider key)
    (whole : Whole kind text) : Whole wider text := by
  induction whole with
  | nil => exact .nil
  | char plain _ ih => exact .char plain ih
  | token stamped _ ih => exact .token stamped ih
  | key stamped fits _ ih => exact .key stamped (implies _ fits) ih

/-- Text without markers is whole whatever the kind. -/
theorem of_plain (plain : ∀ c ∈ text, Escape.isMarker c = false) : Whole kind text := by
  induction text with
  | nil => exact .nil
  | cons c rest ih =>
    obtain ⟨here, later⟩ := List.forall_mem_cons.1 plain
    exact .char here (ih later)

theorem of_stamp (stamped : IsStamp 'b' 64 text) (fits : kind text) : Whole kind text := by
  have whole := Whole.key stamped fits .nil
  rwa [List.append_nil] at whole

end Whole

theorem infix_of_opening_append {word front rest : Text} (apart : Escape.opening ∉ front)
    (standing : (Escape.opening :: word) <:+: front ++ rest) :
    (Escape.opening :: word) <:+: rest := by
  induction front with
  | nil => exact standing
  | cons c front ih =>
    obtain ⟨differs, apart⟩ := List.ne_and_not_mem_of_not_mem_cons apart
    rcases List.infix_cons_iff.1 standing with here | later
    · exact absurd (List.cons_prefix_cons.1 here).1 differs
    · exact ih apart later

/-- What has the shape of a key and stands in a whole text is one of its keys. -/
theorem Whole.kind_of_standing {kind : Text → Prop} {text key : Text} (whole : Whole kind text)
    (stamped : IsStamp 'b' 64 key) (standing : key <:+: text) : kind key := by
  obtain ⟨inside, rfl, -⟩ := stamped.exists_eq_cons (by decide)
  induction whole with
  | nil => exact absurd (List.infix_nil.1 standing) (List.cons_ne_nil _ _)
  | char plain _ ih =>
    refine ih (@infix_of_opening_append _ [_] _ ?_ standing)
    simpa using (ne_opening_of_not_isMarker plain).symm
  | token other _ ih =>
    obtain ⟨more, rfl, apart⟩ := other.exists_eq_cons (by decide)
    rcases List.infix_cons_iff.1 standing with here | later
    · have letters := (List.cons_prefix_cons.1 (List.cons_prefix_cons.1 here).2).1
      exact absurd letters (by decide)
    · exact ih (infix_of_opening_append apart later)
  | key other fits _ ih =>
    obtain ⟨more, rfl, apart⟩ := other.exists_eq_cons (by decide)
    rcases List.infix_cons_iff.1 standing with here | later
    · have sizes : (Escape.opening :: 'b' :: inside).length =
          (Escape.opening :: 'b' :: more).length := by
        obtain ⟨_, same, length, -⟩ := stamped
        obtain ⟨_, other, count, -⟩ := other
        simp only [same, other, List.length_cons, List.length_append, length, count]
      have same := List.IsPrefix.eq_of_length
        (List.prefix_of_prefix_length_le here (List.prefix_append _ _) (Nat.le_of_eq sizes)) sizes
      rwa [same]
    · exact ih (infix_of_opening_append apart later)

namespace Fragments

variable (fragments : Fragments)

theorem expandOnce_chunk_append {chunk changed : Text}
    (whole : Chunk 'b' 64 (fun key => (fragments.get? key).getD key) chunk changed) (rest : Text) :
    fragments.expandOnce (chunk ++ rest) = changed ++ fragments.expandOnce rest :=
  (whole.scan_append (Scan.scan_replace 'b' 64 _ rest)).replace_eq

theorem expandOnce_cons {c : Char} (plain : Escape.isMarker c = false) (rest : Text) :
    fragments.expandOnce (c :: rest) = c :: fragments.expandOnce rest :=
  fragments.expandOnce_chunk_append
    (Renaming.Prints.chunk_char _ (ne_opening_of_not_isMarker plain)) rest

theorem expandOnce_token_append {token : Text} (stamped : IsStamp 'e' 32 token) (rest : Text) :
    fragments.expandOnce (token ++ rest) = token ++ fragments.expandOnce rest := by
  obtain ⟨inside, rfl, apart⟩ := stamped.exists_eq_cons (by decide)
  exact fragments.expandOnce_chunk_append (.other (by decide) apart) rest

theorem expandOnce_key_append {key : Text} (stamped : IsStamp 'b' 64 key) (rest : Text) :
    fragments.expandOnce (key ++ rest) =
      (fragments.get? key).getD key ++ fragments.expandOnce rest := by
  obtain ⟨digits, rfl, length, inClass⟩ := stamped
  exact fragments.expandOnce_chunk_append (.stamp length inClass) rest

theorem expandOnce_append {kind : Text → Prop} {first : Text} (whole : Whole kind first)
    (second : Text) :
    fragments.expandOnce (first ++ second) =
      fragments.expandOnce first ++ fragments.expandOnce second := by
  induction whole with
  | nil => rfl
  | char plain _ ih =>
    rw [List.cons_append, expandOnce_cons _ plain, expandOnce_cons _ plain, ih, List.cons_append]
  | token stamped _ ih =>
    rw [List.append_assoc, expandOnce_token_append _ stamped, expandOnce_token_append _ stamped, ih,
      List.append_assoc]
  | key stamped _ _ ih =>
    rw [List.append_assoc, expandOnce_key_append _ stamped, expandOnce_key_append _ stamped, ih,
      List.append_assoc]

end Fragments

end Markdown
