import Markdown.Digest.Sha256
import Markdown.Escape

set_option autoImplicit false

namespace Markdown

namespace Fragments

def key (fragment : Text) : Text :=
  Escape.opening :: 'b' :: (Digest.sha256 fragment ++ [Escape.closing])

@[simp] theorem length_key (fragment : Text) : (key fragment).length = 67 := by
  simp [key]

/-- Keys are as distinct as digests. -/
theorem key_inj {first second : Text} :
    key first = key second ↔ Digest.sha256 first = Digest.sha256 second := by
  simp [key]

def keyShape : Pattern Empty :=
  .sequence
    [.char Escape.opening, .char 'b', .exactly 64 (.one Escape.isDigestDigit),
      .char Escape.closing]

end Fragments

/-- The fragments put aside, with their keys, in the order in which they were first stored. -/
structure Fragments where
  entries : List (Text × Text)
  /-- Every fragment that was put aside, the latest first, those among them whose place in the
  entries another fragment has taken. -/
  history : List Text
  keyed : ∀ entry ∈ entries, entry.1 = Fragments.key entry.2 ∧ entry.2 ∈ history
  held : ∀ fragment ∈ history, ∃ entry ∈ entries, entry.1 = Fragments.key fragment

namespace Fragments

def empty : Fragments :=
  ⟨[], [], by simp, by simp⟩

def size (fragments : Fragments) : Nat :=
  fragments.entries.length

def get? (fragments : Fragments) (key : Text) : Option Text :=
  (fragments.entries.find? fun entry => entry.1 == key).map (·.2)

def contains (fragments : Fragments) (key : Text) : Bool :=
  (fragments.get? key).isSome

/-- The entries with one more fragment, at the end if its key is new. -/
def updated (fragments : Fragments) (fragment : Text) : List (Text × Text) :=
  if fragments.contains (key fragment) then
    fragments.entries.map fun entry =>
      if entry.1 == key fragment then (entry.1, fragment) else entry
  else fragments.entries ++ [(key fragment, fragment)]

theorem contains_iff {fragments : Fragments} {wanted : Text} :
    fragments.contains wanted = true ↔ ∃ entry ∈ fragments.entries, entry.1 = wanted := by
  simp [contains, get?, List.find?_isSome]

theorem keyed_updated (fragments : Fragments) (fragment : Text) :
    ∀ entry ∈ fragments.updated fragment,
      entry.1 = key entry.2 ∧ entry.2 ∈ fragment :: fragments.history := by
  intro entry member
  rw [updated] at member
  split at member
  · obtain ⟨old, inside, rfl⟩ := List.mem_map.1 member
    obtain ⟨named, kept⟩ := fragments.keyed old inside
    split
    · next same => exact ⟨by simpa using same, List.mem_cons_self⟩
    · exact ⟨named, List.mem_cons_of_mem _ kept⟩
  · rcases List.mem_append.1 member with old | new
    · obtain ⟨named, kept⟩ := fragments.keyed entry old
      exact ⟨named, List.mem_cons_of_mem _ kept⟩
    · obtain rfl := List.mem_singleton.1 new
      exact ⟨rfl, List.mem_cons_self⟩

theorem held_updated (fragments : Fragments) (fragment : Text) :
    ∀ other ∈ fragment :: fragments.history,
      ∃ entry ∈ fragments.updated fragment, entry.1 = key other := by
  have kept : ∀ entry ∈ fragments.entries, ∃ later ∈ fragments.updated fragment,
      later.1 = entry.1 := by
    intro entry member
    rw [updated]
    split
    · refine ⟨_, List.mem_map.2 ⟨entry, member, rfl⟩, ?_⟩
      split <;> rfl
    · exact ⟨entry, List.mem_append_left _ member, rfl⟩
  intro other member
  rcases List.mem_cons.1 member with rfl | old
  · by_cases known : fragments.contains (key other)
    · obtain ⟨entry, inside, named⟩ := contains_iff.1 known
      obtain ⟨later, present, same⟩ := kept entry inside
      exact ⟨later, present, same.trans named⟩
    · refine ⟨(key other, other), ?_, rfl⟩
      simp [updated, known]
  · obtain ⟨entry, inside, named⟩ := fragments.held other old
    obtain ⟨later, present, same⟩ := kept entry inside
    exact ⟨later, present, same.trans named⟩

def insert (fragments : Fragments) (fragment : Text) : Fragments where
  entries := fragments.updated fragment
  history := fragment :: fragments.history
  keyed := fragments.keyed_updated fragment
  held := fragments.held_updated fragment

/-- No two of the texts have the same digest. -/
def Collisionless (texts : List Text) : Prop :=
  ∀ first ∈ texts, ∀ second ∈ texts, Digest.sha256 first = Digest.sha256 second → first = second

instance (texts : List Text) : Decidable (Collisionless texts) :=
  inferInstanceAs (Decidable (∀ first ∈ texts, ∀ second ∈ texts,
    Digest.sha256 first = Digest.sha256 second → first = second))

theorem Collisionless.mono {texts more : List Text} (within : texts ⊆ more)
    (apart : Collisionless more) : Collisionless texts :=
  fun first here second there => apart first (within here) second (within there)

/-- No two fragments that were put aside have the same digest. -/
abbrev NoCollision (fragments : Fragments) : Prop :=
  Collisionless fragments.history

/-- Without collisions every fragment that was put aside is found under its key. -/
theorem get?_key {fragments : Fragments} (apart : fragments.NoCollision) {fragment : Text}
    (known : fragment ∈ fragments.history) : fragments.get? (key fragment) = some fragment := by
  obtain ⟨entry, inside, named⟩ := fragments.held fragment known
  have present : fragments.contains (key fragment) := contains_iff.2 ⟨entry, inside, named⟩
  obtain ⟨found, here⟩ := Option.isSome_iff_exists.1 present
  obtain ⟨other, first, rfl⟩ := Option.map_eq_some_iff.1 here
  have same : other.1 = key fragment := by simpa using List.find?_some first
  obtain ⟨keyed, kept⟩ := fragments.keyed other (List.mem_of_find?_eq_some first)
  rw [here, apart _ kept _ known (key_inj.1 (keyed.symm.trans same))]

/-- The key of a fragment as a block of its own. -/
def keyBlock (fragment : Text) : Text :=
  "\n\n".toList ++ key fragment ++ "\n\n".toList

/-- A text with every known key replaced by its fragment, once. -/
def expandOnce (fragments : Fragments) (text : Text) : Text :=
  keyShape.replace (fun found => (fragments.get? found.text).getD found.text) text

/-- Expansion again and again until nothing changes, at most `budget` times. -/
def expandWithin (fragments : Fragments) : Nat → Text → Text
  | 0, text => text
  | budget + 1, text =>
    let expanded := fragments.expandOnce text
    if expanded = text then text else expandWithin fragments budget expanded

/-- A bound on the rounds of an expansion. Where fragments hold only whole keys of fragments stored
before them, each round uses up one level of nesting, and there are no more levels than fragments;
the lengths leave room for keys that come together from pieces. -/
def expansionBudget (fragments : Fragments) (text : Text) : Nat :=
  text.length + fragments.entries.foldr (fun entry total => entry.2.length + 1 + total) 0 + 1

/-- A text with every known key replaced by its fragment, and the keys in it by theirs. Unknown keys
stay as they are. -/
def expand (fragments : Fragments) (text : Text) : Text :=
  fragments.expandWithin (fragments.expansionBudget text) text

end Fragments

end Markdown
