import Mathlib.Data.List.Perm.Subperm
import Mathlib.Logic.Function.Iterate
import Markdown.Proofs.Sheet.Decoding

set_option autoImplicit false

namespace Markdown

mutual

def Seal.depth : Seal → Nat
  | .token _ => 0
  | .marker _ => 0
  | .key fragment => Sheet.depth fragment + 1

def Glyph.depth : Glyph Seal → Nat
  | .char _ => 0
  | .sealed s => Seal.depth s

def Sheet.depth : List (Glyph Seal) → Nat
  | [] => 0
  | g :: rest => max (Glyph.depth g) (Sheet.depth rest)

end

mutual

/-- A seal with nothing put aside. -/
def Seal.expand : Seal → List (Glyph Seal)
  | .token c => [.sealed (.token c)]
  | .marker side => [.sealed (.marker side)]
  | .key fragment => Sheet.expand fragment

def Glyph.expand : Glyph Seal → List (Glyph Seal)
  | .char c => [.char c]
  | .sealed s => Seal.expand s

/-- A sheet with every key replaced by its fragment, and the keys in it by theirs. -/
def Sheet.expand : List (Glyph Seal) → List (Glyph Seal)
  | [] => []
  | g :: rest => Glyph.expand g ++ Sheet.expand rest

end

namespace Sheet

/-- A sheet with every key replaced by its fragment, once. -/
def expandOnce (sheet : Sheet) : Sheet :=
  sheet.flatMap fun
    | .sealed (.key fragment) => fragment
    | g => [g]

/-- A sheet with nothing put aside and with its tokens turned into characters. -/
def finish (sheet : Sheet) : Sheet :=
  unescape (expand sheet)

theorem expand_eq_flatMap (sheet : Sheet) : expand sheet = sheet.flatMap Glyph.expand := by
  induction sheet with
  | nil => rfl
  | cons g rest ih => rw [expand, ih, List.flatMap_cons]

@[simp] theorem expand_nil : expand [] = [] := rfl

@[simp] theorem expand_append (first second : Sheet) :
    expand (first ++ second) = expand first ++ expand second := by
  simp [expand_eq_flatMap]

/-- Each glyph is finished on its own. -/
theorem finish_eq_flatMap (sheet : Sheet) : finish sheet = sheet.flatMap fun g => finish [g] := by
  simp [finish, unescape, reveal, expand_eq_flatMap, List.flatMap_assoc]

theorem finish_append (first second : Sheet) :
    finish (first ++ second) = finish first ++ finish second := by
  rw [finish, expand_append, unescape_append, finish, finish]

theorem finish_chars (text : Text) : finish (Glyph.chars text) = Glyph.chars text := by
  rw [finish_eq_flatMap, Glyph.chars, List.flatMap_map]
  exact List.flatMap_pure_eq_map _ _

theorem finish_key (fragment : Sheet) : finish [.sealed (.key fragment)] = finish fragment := by
  simp [finish, expand, Glyph.expand, Seal.expand]

theorem expand_expandOnce (sheet : Sheet) : expand (expandOnce sheet) = expand sheet := by
  induction sheet with
  | nil => rfl
  | cons g rest ih =>
    rw [expandOnce, List.flatMap_cons, expand_append, ← expandOnce, ih, expand]
    congr 1
    cases g with
    | char c => rfl
    | sealed s => cases s <;> simp [expand, Glyph.expand, Seal.expand]

theorem depth_append (first second : Sheet) :
    depth (first ++ second) = max (depth first) (depth second) := by
  induction first with
  | nil => simp [depth]
  | cons g rest ih => simp [depth, ih, Nat.max_assoc]

theorem depth_expandOnce (sheet : Sheet) : depth (expandOnce sheet) ≤ depth sheet - 1 := by
  induction sheet with
  | nil => simp [expandOnce, depth]
  | cons g rest ih =>
    rw [expandOnce, List.flatMap_cons, depth_append, ← expandOnce, depth]
    have here : depth (match g with
        | .sealed (.key fragment) => fragment
        | g => [g]) ≤ g.depth - 1 := by
      cases g with
      | char c => simp [depth, Glyph.depth]
      | sealed s => cases s <;> simp [depth, Glyph.depth, Seal.depth]
    omega

theorem expand_of_depth_eq_zero {sheet : Sheet} (flat : depth sheet = 0) : expand sheet = sheet := by
  induction sheet with
  | nil => rfl
  | cons g rest ih =>
    rw [depth] at flat
    rw [expand, ih (by omega)]
    cases g with
    | char c => rfl
    | sealed s =>
      cases s with
      | token c => rfl
      | marker side => rfl
      | key fragment =>
        simp only [Glyph.depth, Seal.depth] at flat
        omega

/-- As many rounds as keys are nested are enough. -/
theorem iterate_expandOnce {rounds : Nat} {sheet : Sheet} (enough : depth sheet ≤ rounds) :
    expandOnce^[rounds] sheet = expand sheet := by
  induction rounds generalizing sheet with
  | zero => exact (expand_of_depth_eq_zero (Nat.le_zero.1 enough)).symm
  | succ rounds ih =>
    have shallower := depth_expandOnce sheet
    rw [Function.iterate_succ_apply, ih (by omega), expand_expandOnce]

theorem exists_key_of_depth {sheet : Sheet} {count : Nat} (deep : depth sheet = count + 1) :
    ∃ fragment, Glyph.sealed (.key fragment) ∈ sheet ∧ depth fragment = count := by
  induction sheet with
  | nil => simp [depth] at deep
  | cons g rest ih =>
    rw [depth] at deep
    by_cases later : depth rest = count + 1
    · obtain ⟨fragment, member, same⟩ := ih later
      exact ⟨fragment, List.mem_cons_of_mem _ member, same⟩
    · have here : g.depth = count + 1 := by omega
      cases g with
      | char c => simp [Glyph.depth] at here
      | sealed s =>
        cases s with
        | token c => simp [Glyph.depth, Seal.depth] at here
        | marker side => simp [Glyph.depth, Seal.depth] at here
        | key fragment =>
          simp only [Glyph.depth, Seal.depth] at here
          exact ⟨fragment, List.mem_cons_self, by omega⟩

end Sheet

namespace Fragments

/-- Rounds that change nothing can be left out. -/
theorem expandWithin_eq_iterate (fragments : Fragments) (budget : Nat) (text : Text) :
    fragments.expandWithin budget text = fragments.expandOnce^[budget] text := by
  induction budget generalizing text with
  | zero => rfl
  | succ budget ih =>
    rw [expandWithin, Function.iterate_succ_apply]
    by_cases still : fragments.expandOnce text = text
    · simp only [still, ↓reduceIte]
      exact (Function.iterate_fixed still budget).symm
    · simp only [still, ↓reduceIte]
      exact ih _

theorem size_le_expansionBudget (fragments : Fragments) (text : Text) :
    fragments.size ≤ fragments.expansionBudget text := by
  have entries : ∀ entries : List (Text × Text),
      entries.length ≤ entries.foldr (fun entry total => entry.2.length + 1 + total) 0 := by
    intro entries
    induction entries with
    | nil => simp
    | cons entry rest ih =>
      simp only [List.length_cons, List.foldr_cons]
      omega
  have here := entries fragments.entries
  rw [size, expansionBudget]
  omega

end Fragments

namespace Renaming

variable {r : Renaming} {known : List Text}

theorem Valid.of_mem_key {fragment : Sheet} (valid : r.Valid known (.sealed (.key fragment))) :
    spell r.face fragment ∈ known ∧ ∀ g ∈ fragment, r.Valid known g := by
  cases valid with
  | key kept inner => exact ⟨kept, inner⟩

/-- Under keys nested one in the other stand fragments that get smaller and smaller. -/
theorem exists_chain (count : Nat) {sheet : Sheet} (valid : ∀ g ∈ sheet, r.Valid known g)
    (deep : Sheet.depth sheet = count) :
    ∃ chain : List Sheet, chain.length = count ∧
      chain.Pairwise (fun outer inner => sizeOf inner < sizeOf outer) ∧
      ∀ fragment ∈ chain, sizeOf fragment < sizeOf sheet ∧ spell r.face fragment ∈ known ∧
        ∀ g ∈ fragment, r.Valid known g := by
  induction count generalizing sheet with
  | zero => exact ⟨[], rfl, .nil, by simp⟩
  | succ count ih =>
    obtain ⟨fragment, member, same⟩ := Sheet.exists_key_of_depth deep
    obtain ⟨kept, inner⟩ := (valid _ member).of_mem_key
    obtain ⟨chain, length, sorted, all⟩ := ih inner same
    have smaller : sizeOf fragment < sizeOf sheet := by
      have inside := List.sizeOf_lt_of_mem member
      simp only [Glyph.sealed.sizeOf_spec, Seal.key.sizeOf_spec] at inside
      omega
    refine ⟨fragment :: chain, by rw [List.length_cons, length], ?_, ?_⟩
    · exact List.pairwise_cons.2 ⟨fun other inChain => (all other inChain).1, sorted⟩
    · refine List.forall_mem_cons.2 ⟨⟨smaller, kept, inner⟩, fun other inChain => ?_⟩
      obtain ⟨less, rest⟩ := all other inChain
      exact ⟨by omega, rest⟩

/-- Keys are nested no deeper than there are fragments. -/
theorem depth_le {fragments : Fragments} (apart : fragments.NoCollision) {sheet : Sheet}
    (valid : ∀ g ∈ sheet, r.Valid fragments.history g) :
    Sheet.depth sheet ≤ fragments.entries.length := by
  obtain ⟨chain, length, sorted, all⟩ := exists_chain _ valid rfl
  have distinct : (chain.map (spell r.face)).Nodup := by
    refine List.pairwise_map.2 (List.Pairwise.imp_of_mem ?_ sorted)
    intro outer inner out within smaller same
    have equal := spell_inj apart (all outer out).2.2 (all inner within).2.2 same
    rw [equal] at smaller
    exact Nat.lt_irrefl _ smaller
  have within : chain.map (spell r.face) ⊆ fragments.entries.map Prod.snd := by
    intro text member
    obtain ⟨fragment, inChain, rfl⟩ := List.mem_map.1 member
    have found := Fragments.get?_key apart (all fragment inChain).2.1
    obtain ⟨entry, first, same⟩ := Option.map_eq_some_iff.1 found
    exact List.mem_map.2 ⟨entry, List.mem_of_find?_eq_some first, same⟩
  have bound := (List.subperm_of_subset distinct within).length_le
  rwa [List.length_map, List.length_map, length] at bound

namespace Prints

variable {fragments : Fragments} {sheet : Sheet} {text : Text}

theorem chunk_hide_for_keys (written : Text → Text) (side : Side) :
    Chunk 'b' 64 written (r.hide side) (r.hide side) := by
  rcases hide_eq (r := r) side with ⟨_, token⟩ | ⟨differs, plain⟩
  · rw [token]
    exact chunk_token_for_keys written _
  · rw [plain]
    exact chunk_char written differs

theorem expandOnce (apart : fragments.NoCollision)
    (prints : r.Prints fragments.history sheet text) :
    r.Prints fragments.history (Sheet.expandOnce sheet) (fragments.expandOnce text) := by
  refine prints.replace_stamp 'b' 64 (fun key => (fragments.get? key).getD key) fun g member => ?_
  cases prints.valid g member with
  | char free => exact ⟨_, chunk_char _ free.ne_opening, .glyph (.char free)⟩
  | @token c escapable => exact ⟨_, chunk_token_for_keys _ c, .glyph (.token escapable)⟩
  | marker side => exact ⟨_, chunk_hide_for_keys _ side, .glyph (.marker side)⟩
  | @key fragment kept valid =>
    have chunk : Chunk 'b' 64 (fun key => (fragments.get? key).getD key)
        (Fragments.key (spell r.face fragment)) _ :=
      .stamp (by simp) fun _ => Escape.isDigestDigit_of_mem_hex
    refine ⟨_, by rw [Glyph.spell, face_key]; exact chunk, ?_⟩
    change r.Prints _ fragment ((fragments.get? (Fragments.key (spell r.face fragment))).getD _)
    rw [Fragments.get?_key apart kept]
    exact ⟨rfl, valid⟩

theorem iterate_expandOnce (apart : fragments.NoCollision) (rounds : Nat)
    (prints : r.Prints fragments.history sheet text) :
    r.Prints fragments.history (Sheet.expandOnce^[rounds] sheet)
      (fragments.expandOnce^[rounds] text) := by
  induction rounds generalizing sheet text with
  | zero => exact prints
  | succ rounds ih =>
    rw [Function.iterate_succ_apply, Function.iterate_succ_apply]
    exact ih (prints.expandOnce apart)

/-- The rounds that an expansion is granted are enough for it. -/
theorem expand (apart : fragments.NoCollision)
    (prints : r.Prints fragments.history sheet text) :
    r.Prints fragments.history (Sheet.expand sheet) (fragments.expand text) := by
  have bound := depth_le apart prints.valid
  have room : fragments.entries.length ≤ _ := fragments.size_le_expansionBudget text
  have rounds := prints.iterate_expandOnce apart (fragments.expansionBudget text)
  rw [Sheet.iterate_expandOnce (by omega)] at rounds
  rwa [Fragments.expand, Fragments.expandWithin_eq_iterate]

end Prints

end Renaming

end Markdown
