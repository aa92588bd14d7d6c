import Markdown.Proofs.Sheet.Weight

set_option autoImplicit false

namespace Markdown.Structure

def leafNames : List Text :=
  ["p", "h1", "h2", "h3", "h4", "h5", "h6", "pre"].map String.toList

def listNames : List Text :=
  ["ul", "ol"].map String.toList

/-- The names of the tags of blocks, closing tags with their slash. -/
def tagNames : List Text :=
  let names := leafNames ++ listNames ++ ["li", "blockquote"].map String.toList
  "hr".toList :: (names ++ names.map ('/' :: ·))

def tag (name : Text) : Text :=
  '<' :: (name ++ ['>'])

def tagAt? (html : Text) : Option Text :=
  tagNames.find? fun name => (tag name).isPrefixOf html

/-- The names of the tags of blocks in HTML, in their order. -/
def blockTags : Text → List Text
  | [] => []
  | c :: rest => (tagAt? (c :: rest)).toList ++ blockTags rest

/-- What stands in a block: blocks, or the items of a list. -/
inductive Content where
  | blocks
  | items

/-- Tags that are nested as blocks are: leaves and rules are empty, quotes and items hold blocks,
and lists hold items. -/
inductive Nest : Content → List Text → Prop where
  | nil {content : Content} : Nest content []
  | leaf {name : Text} {rest : List Text} (named : name ∈ leafNames) (later : Nest .blocks rest) :
    Nest .blocks (name :: ('/' :: name) :: rest)
  | rule {rest : List Text} (later : Nest .blocks rest) : Nest .blocks ("hr".toList :: rest)
  | quote {inner rest : List Text} (within : Nest .blocks inner) (later : Nest .blocks rest) :
    Nest .blocks ("blockquote".toList :: (inner ++ "/blockquote".toList :: rest))
  | list {name : Text} {inner rest : List Text} (named : name ∈ listNames)
    (within : Nest .items inner) (later : Nest .blocks rest) :
    Nest .blocks (name :: (inner ++ ('/' :: name) :: rest))
  | item {inner rest : List Text} (within : Nest .blocks inner) (later : Nest .items rest) :
    Nest .items ("li".toList :: (inner ++ "/li".toList :: rest))

theorem Nest.append {content : Content} {first second : List Text} (early : Nest content first)
    (late : Nest content second) : Nest content (first ++ second) := by
  induction early with
  | nil => exact late
  | leaf named _ ih => exact .leaf named (ih late)
  | rule _ ih => exact .rule (ih late)
  | quote within _ _ ih =>
    rw [List.cons_append, List.append_assoc, List.cons_append]
    exact .quote within (ih late)
  | list named within _ _ ih =>
    rw [List.cons_append, List.append_assoc, List.cons_append]
    exact .list named within (ih late)
  | item within _ _ ih =>
    rw [List.cons_append, List.append_assoc, List.cons_append]
    exact .item within (ih late)

/-- The beginnings of the tags of inline markup, as far as they tell them from the tags of
blocks. -/
def inlineOpenings : List Text :=
  ["<c", "</c", "<a", "</a", "<i", "<s", "</s", "<e", "</e", "<br"].map String.toList

/-- A text that takes no part in the nesting of blocks. -/
inductive Inert : Text → Prop where
  | char {c : Char} (plain : c ≠ '<') : Inert [c]
  | opening {written : Text} (named : written ∈ inlineOpenings) : Inert written

/-- The texts of which finished sheets are made. -/
inductive Atom : Text → List Text → Prop where
  | inert {written : Text} (inert : Inert written) : Atom written []
  | tag {name : Text} (named : name ∈ tagNames) : Atom (tag name) [name]

/-- In finished sheets only the markers of the document are sealed. -/
inductive Shown : Seal → List Text → Prop where
  | marker (side : Side) : Shown (.marker side) []

/-- The scale for finished sheets. -/
def finished : Scale Text := ⟨Atom, Shown⟩

theorem tagAt?_of_ne {c : Char} (plain : c ≠ '<') (rest : Text) : tagAt? (c :: rest) = none := by
  refine List.find?_eq_none.2 fun name _ => ?_
  simp [tag, List.isPrefixOf, Ne.symm plain]

theorem blockTags_append {plain : Text} (opens : '<' ∉ plain) (rest : Text) :
    blockTags (plain ++ rest) = blockTags rest := by
  induction plain with
  | nil => rfl
  | cons c more ih =>
    have differs : c ≠ '<' := fun same => opens (same ▸ List.mem_cons_self)
    rw [List.cons_append, blockTags, tagAt?_of_ne differs,
      ih fun member => opens (List.mem_cons_of_mem _ member)]
    rfl

/-- No tag of a block begins like a tag of inline markup. -/
theorem tagAt?_opening {written : Text} (named : written ∈ inlineOpenings) (rest : Text) :
    tagAt? (written ++ rest) = none := by
  have apart : ∀ written ∈ inlineOpenings, ∀ name ∈ tagNames,
      ¬ tag name <+: written ∧ ¬ written <+: tag name := by decide
  refine List.find?_eq_none.2 fun name member front => ?_
  obtain ⟨longer, shorter⟩ := apart written named name member
  rcases List.prefix_or_prefix_of_prefix (List.isPrefixOf_iff_prefix.1 front)
    (List.prefix_append written rest) with within | beyond
  · exact longer within
  · exact shorter beyond

/-- The tag at the front of a text is the one that was written there. -/
theorem tagAt?_tag {name : Text} (named : name ∈ tagNames) (rest : Text) :
    tagAt? (tag name ++ rest) = some name := by
  have apart : ∀ name ∈ tagNames, ∀ other ∈ tagNames, tag other <+: tag name → other = name := by
    decide
  have front : (tag name).isPrefixOf (tag name ++ rest) = true :=
    List.isPrefixOf_iff_prefix.2 (List.prefix_append _ _)
  have some : (tagAt? (tag name ++ rest)).isSome = true :=
    List.find?_isSome.2 ⟨name, named, front⟩
  obtain ⟨other, found⟩ := Option.isSome_iff_exists.1 some
  have member := List.mem_of_find?_eq_some found
  rw [tagAt?] at found ⊢
  have accepted := List.find?_some found
  have here := List.isPrefixOf_iff_prefix.1 accepted
  have same : other = name := by
    rcases List.prefix_or_prefix_of_prefix here (List.prefix_append (tag name) rest) with
      within | beyond
    · exact apart name named other member within
    · exact (apart other member name named beyond).symm
  rw [found, same]

theorem blockTags_tag {name : Text} (named : name ∈ tagNames) (rest : Text) :
    blockTags (tag name ++ rest) = name :: blockTags rest := by
  have plain : ∀ name ∈ tagNames, '<' ∉ name ++ ['>'] := by decide
  have here := tagAt?_tag named rest
  rw [tag, List.cons_append] at here ⊢
  rw [blockTags, here, blockTags_append (plain name named)]
  rfl

theorem blockTags_inert {written : Text} (inert : Inert written) (rest : Text) :
    blockTags (written ++ rest) = blockTags rest := by
  cases inert with
  | char plain => exact blockTags_append (by simpa using plain.symm) rest
  | opening named =>
    have shape : ∀ written ∈ inlineOpenings, written.head? = some '<' ∧ '<' ∉ written.tail := by
      decide
    obtain ⟨first, plain⟩ := shape written named
    have none := tagAt?_opening named rest
    cases written with
    | nil => cases first
    | cons c more =>
      have skipped : blockTags (more ++ rest) = blockTags rest := blockTags_append plain rest
      rw [List.cons_append] at none ⊢
      rw [blockTags, none, skipped]
      rfl

/-- A finished sheet weighs the tags of blocks in its HTML. -/
theorem blockTags_spell {sheet : Sheet} {w : List Text} (weighs : finished.Weighs sheet w) :
    blockTags (spell Renaming.same.bare sheet) = w := by
  induction weighs with
  | nil => rfl
  | text here _ ih =>
    rw [spell_append, spell_chars]
    cases here with
    | inert inert => rw [blockTags_inert inert, ih, List.nil_append]
    | tag named => rw [blockTags_tag named, ih, List.singleton_append]
  | sealed here _ ih =>
    cases here with
    | marker side =>
      have plain : '<' ∉ Glyph.spell Renaming.same.bare (.sealed (.marker side)) := by
        cases side <;> decide
      rw [spell_cons, blockTags_append plain, ih, List.nil_append]

end Markdown.Structure
