import Markdown.Proofs.Expansion.Whole
import Markdown.Proofs.Sheet.Expansion

set_option autoImplicit false

namespace Markdown

namespace Fragments

/-- The text with every known key replaced by its fragment, in which the same has been done, is the
result. Tokens and unknown keys stand in it as they are. -/
inductive Expands (fragments : Fragments) : Text → Text → Prop where
  | nil : Expands fragments [] []
  | char {c : Char} {rest result : Text} (plain : Escape.isMarker c = false)
    (later : Expands fragments rest result) : Expands fragments (c :: rest) (c :: result)
  | token {token rest result : Text} (stamped : IsStamp 'e' 32 token)
    (later : Expands fragments rest result) : Expands fragments (token ++ rest) (token ++ result)
  | unknown {key rest result : Text} (stamped : IsStamp 'b' 64 key)
    (absent : fragments.get? key = none) (later : Expands fragments rest result) :
    Expands fragments (key ++ rest) (key ++ result)
  | known {key fragment inner rest result : Text} (stamped : IsStamp 'b' 64 key)
    (found : fragments.get? key = some fragment) (inside : Expands fragments fragment inner)
    (later : Expands fragments rest result) : Expands fragments (key ++ rest) (inner ++ result)

/-- The place of a key among the entries. -/
def rank (fragments : Fragments) (key : Text) : Nat :=
  (fragments.entries.map Prod.fst).idxOf key

/-- A fragment names no keys but those of entries before its own. -/
def Ordered (fragments : Fragments) : Prop :=
  ∀ key fragment, fragments.get? key = some fragment →
    Whole (fun inner => fragments.rank inner < fragments.rank key) fragment

/-- If the key is known, it has its place among the first entries. -/
def Below (fragments : Fragments) (bound : Nat) (key : Text) : Prop :=
  ∀ fragment, fragments.get? key = some fragment → fragments.rank key < bound

variable {fragments : Fragments} {bound : Nat} {key fragment text result : Text}

theorem get?_eq_none_of_below_zero (below : fragments.Below 0 key) : fragments.get? key = none :=
  Option.eq_none_iff_forall_ne_some.2 fun fragment found => Nat.not_lt_zero _ (below fragment found)

theorem mem_keys_of_get? (found : fragments.get? key = some fragment) :
    key ∈ fragments.entries.map Prod.fst := by
  obtain ⟨entry, inside, same⟩ := contains_iff.1 (Option.isSome_of_eq_some found)
  exact List.mem_map.2 ⟨entry, inside, same⟩

theorem below_size (fragments : Fragments) (key : Text) : fragments.Below fragments.size key := by
  intro fragment found
  simpa [rank, size] using List.idxOf_lt_length_of_mem (mem_keys_of_get? found)

theorem below_size_of_whole (fragments : Fragments) {kind : Text → Prop} (whole : Whole kind text) :
    Whole (fragments.Below fragments.size) text :=
  whole.mono fun key _ => fragments.below_size key

/-- Where no key is known, a round changes nothing. -/
theorem expandOnce_of_below_zero (whole : Whole (fragments.Below 0) text) :
    fragments.expandOnce text = text := by
  induction whole with
  | nil => rfl
  | char plain _ ih => rw [expandOnce_cons _ plain, ih]
  | token stamped _ ih => rw [expandOnce_token_append _ stamped, ih]
  | key stamped below _ ih =>
    rw [expandOnce_key_append _ stamped, get?_eq_none_of_below_zero below, Option.getD_none, ih]

theorem expand_of_fixed (still : fragments.expandOnce text = text) :
    fragments.expand text = text := by
  rw [expand, expandWithin_eq_iterate]
  exact Function.iterate_fixed still _

namespace Ordered

variable (ordered : fragments.Ordered)

include ordered

theorem below_of_get? (below : fragments.Below bound key)
    (found : fragments.get? key = some fragment) : Whole (fragments.Below (bound - 1)) fragment :=
  (ordered key fragment found).mono fun _ smaller _ _ => by
    have place := below fragment found
    omega

/-- A round lowers the rank of the last key that can stand in the text. -/
theorem below_expandOnce (whole : Whole (fragments.Below bound) text) :
    Whole (fragments.Below (bound - 1)) (fragments.expandOnce text) := by
  induction whole with
  | nil => exact .nil
  | char plain _ ih =>
    rw [expandOnce_cons _ plain]
    exact .char plain ih
  | token stamped _ ih =>
    rw [expandOnce_token_append _ stamped]
    exact .token stamped ih
  | @key key rest stamped below _ ih =>
    rw [expandOnce_key_append _ stamped]
    cases found : fragments.get? key with
    | none => exact .key stamped (fun _ other => absurd (found.symm.trans other) nofun) ih
    | some fragment => exact (ordered.below_of_get? below found).append ih

theorem below_iterate (rounds : Nat) (whole : Whole (fragments.Below bound) text) :
    Whole (fragments.Below (bound - rounds)) (fragments.expandOnce^[rounds] text) := by
  induction rounds generalizing text bound with
  | zero => exact whole
  | succ rounds ih =>
    rw [Function.iterate_succ_apply, Nat.add_comm, Nat.sub_add_eq]
    exact ih (ordered.below_expandOnce whole)

theorem iterate_append {kind : Text → Prop} {first : Text} (whole : Whole kind first)
    (rounds : Nat) (second : Text) :
    fragments.expandOnce^[rounds] (first ++ second) =
      fragments.expandOnce^[rounds] first ++ fragments.expandOnce^[rounds] second := by
  induction rounds generalizing kind first second with
  | zero => rfl
  | succ rounds ih =>
    have next := ordered.below_expandOnce (below_size_of_whole fragments whole)
    simp only [Function.iterate_succ_apply, expandOnce_append _ whole, ih next]

section Whole

variable {kind : Text → Prop} (whole : Whole kind text)

include whole

theorem below_zero_iterate :
    Whole (fragments.Below 0) (fragments.expandOnce^[fragments.size] text) := by
  simpa using ordered.below_iterate fragments.size (below_size_of_whole fragments whole)

/-- As many rounds as there are entries are enough, and the bound on rounds allows for them. -/
theorem expand_eq_iterate :
    fragments.expand text = fragments.expandOnce^[fragments.size] text := by
  obtain ⟨more, room⟩ := Nat.exists_eq_add_of_le' (fragments.size_le_expansionBudget text)
  rw [expand, expandWithin_eq_iterate, room, Function.iterate_add_apply]
  exact Function.iterate_fixed
    (expandOnce_of_below_zero (ordered.below_zero_iterate whole)) more

theorem below_zero_expand : Whole (fragments.Below 0) (fragments.expand text) := by
  rw [ordered.expand_eq_iterate whole]
  exact ordered.below_zero_iterate whole

theorem expandOnce_expand : fragments.expandOnce (fragments.expand text) = fragments.expand text :=
  expandOnce_of_below_zero (ordered.below_zero_expand whole)

theorem expand_expand : fragments.expand (fragments.expand text) = fragments.expand text :=
  expand_of_fixed (ordered.expandOnce_expand whole)

theorem expand_expandOnce :
    fragments.expand (fragments.expandOnce text) = fragments.expand text := by
  have next := ordered.below_expandOnce (below_size_of_whole fragments whole)
  have still := ordered.expandOnce_expand whole
  rw [ordered.expand_eq_iterate whole] at still ⊢
  rw [ordered.expand_eq_iterate next, ← Function.iterate_succ_apply, Function.iterate_succ_apply',
    still]

theorem expand_append {other : Text → Prop} {second : Text} (also : Whole other second) :
    fragments.expand (text ++ second) = fragments.expand text ++ fragments.expand second := by
  have both := (below_size_of_whole fragments whole).append (below_size_of_whole fragments also)
  rw [ordered.expand_eq_iterate both, ordered.iterate_append whole, ordered.expand_eq_iterate whole,
    ordered.expand_eq_iterate also]

/-- No known key stands in an expansion. -/
theorem not_infix_expand (known : fragments.contains key = true) :
    ¬ key <:+: fragments.expand text := by
  intro standing
  obtain ⟨entry, inside, rfl⟩ := contains_iff.1 known
  have stamped : IsStamp 'b' 64 entry.1 := by
    rw [(fragments.keyed entry inside).1]
    exact isStamp_key _
  have absent := get?_eq_none_of_below_zero
    ((ordered.below_zero_expand whole).kind_of_standing stamped standing)
  rw [contains, absent] at known
  cases known

end Whole

end Ordered

theorem Expands.whole (expands : fragments.Expands text result) : Whole (fun _ => True) text := by
  induction expands with
  | nil => exact .nil
  | char plain _ ih => exact .char plain ih
  | token stamped _ ih => exact .token stamped ih
  | unknown stamped _ _ ih => exact .key stamped trivial ih
  | known stamped _ _ _ _ ih => exact .key stamped trivial ih

theorem Expands.plain_append {front rest : Text} (plain : ∀ c ∈ front, Escape.isMarker c = false)
    (expands : fragments.Expands rest result) :
    fragments.Expands (front ++ rest) (front ++ result) := by
  induction front with
  | nil => exact expands
  | cons c front ih =>
    obtain ⟨here, later⟩ := List.forall_mem_cons.1 plain
    exact .char here (ih later)

namespace Ordered

variable (ordered : fragments.Ordered)

include ordered

section Pieces

variable {kind : Text → Prop} {rest : Text} (later : Whole kind rest)

include later

theorem expand_cons {c : Char} (plain : Escape.isMarker c = false) :
    fragments.expand (c :: rest) = c :: fragments.expand rest := by
  have here : Whole (fun _ => True) [c] := .of_plain (by simpa using plain)
  have still : fragments.expandOnce [c] = [c] := fragments.expandOnce_cons plain []
  rw [← List.singleton_append, ordered.expand_append here later, expand_of_fixed still,
    List.singleton_append]

theorem expand_token_append {token : Text} (stamped : IsStamp 'e' 32 token) :
    fragments.expand (token ++ rest) = token ++ fragments.expand rest := by
  have here : Whole (fun _ => True) (token ++ []) := .token stamped .nil
  have still := fragments.expandOnce_token_append stamped []
  rw [List.append_nil] at here
  rw [show fragments.expandOnce [] = [] from rfl, List.append_nil] at still
  rw [ordered.expand_append here later, expand_of_fixed still]

theorem expand_key_append (stamped : IsStamp 'b' 64 key) :
    fragments.expand (key ++ rest) =
      ((fragments.get? key).map fragments.expand).getD key ++ fragments.expand rest := by
  have here : Whole (fun _ => True) key := .of_stamp stamped trivial
  have once := fragments.expandOnce_key_append stamped []
  rw [show fragments.expandOnce [] = [] from rfl, List.append_nil, List.append_nil] at once
  rw [ordered.expand_append here later]
  cases found : fragments.get? key with
  | none =>
    rw [found] at once
    rw [expand_of_fixed once, Option.map_none, Option.getD_none]
  | some fragment =>
    rw [found, Option.getD_some] at once
    rw [← ordered.expand_expandOnce here, once, Option.map_some, Option.getD_some]

end Pieces

theorem eq_expand (expands : fragments.Expands text result) : result = fragments.expand text := by
  induction expands with
  | nil => exact (expand_of_fixed rfl).symm
  | char plain later ih => rw [ordered.expand_cons later.whole plain, ih]
  | token stamped later ih => rw [ordered.expand_token_append later.whole stamped, ih]
  | unknown stamped absent later ih =>
    rw [ordered.expand_key_append later.whole stamped, absent, Option.map_none, Option.getD_none,
      ih]
  | known stamped found _ later inner outer =>
    rw [ordered.expand_key_append later.whole stamped, found, Option.map_some, Option.getD_some,
      inner, outer]

/-- By induction on the rank of the last key in the text, and for each rank on the text. -/
theorem expands_expand (whole : Whole (fragments.Below bound) text) :
    fragments.Expands text (fragments.expand text) := by
  induction bound using Nat.strongRecOn generalizing text with
  | ind bound deeper =>
    induction whole with
    | nil =>
      rw [expand_of_fixed rfl]
      exact .nil
    | char plain later ih =>
      rw [ordered.expand_cons later plain]
      exact .char plain ih
    | token stamped later ih =>
      rw [ordered.expand_token_append later stamped]
      exact .token stamped ih
    | @key key rest stamped below later ih =>
      rw [ordered.expand_key_append later stamped]
      cases found : fragments.get? key with
      | none => exact .unknown stamped found ih
      | some fragment =>
        have place := below fragment found
        exact .known stamped found
          (deeper (bound - 1) (by omega) (ordered.below_of_get? below found)) ih

/-- Expansion is full substitution, and there is no other. -/
theorem expands_iff {kind : Text → Prop} (whole : Whole kind text) :
    fragments.Expands text result ↔ result = fragments.expand text := by
  refine ⟨ordered.eq_expand, ?_⟩
  rintro rfl
  exact ordered.expands_expand (below_size_of_whole fragments whole)

end Ordered

end Fragments

end Markdown
