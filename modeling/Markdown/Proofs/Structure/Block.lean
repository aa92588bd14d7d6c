import Markdown.Proofs.Structure.Inline
import Markdown.Proofs.Structure.Matches

set_option autoImplicit false

namespace Markdown.Structure

open Pattern

variable {kept : Sheet → Prop} {sheet content : Sheet} {w : List Text}

theorem weighs_inert {written : Text} (inert : Inert written) :
    finished.Weighs (Glyph.chars written) [] := by
  have here : finished.ofText written [] := Atom.inert inert
  exact .ofText here

theorem weighs_tag {name : Text} (named : name ∈ tagNames) :
    finished.Weighs (Glyph.chars (tag name)) [name] := by
  have here : finished.ofText (tag name) [name] := Atom.tag named
  exact .ofText here

theorem weighs_newline : finished.Weighs [.char '\n'] [] :=
  @weighs_inert ['\n'] (.char (by decide))

theorem finish_newline : Sheet.finish [.char '\n'] = [.char '\n'] :=
  Sheet.finish_chars ['\n']

theorem weighs_marker (side : Side) : finished.Weighs [.sealed (.marker side)] [] := by
  have here : finished.ofSeal (.marker side) [] := Shown.marker side
  exact .ofSeal here

/-- Once finished, a sheet comes to whatever its fragments come to, one after the other. -/
theorem exists_weighs_finish {holds : List Text → Prop} (nil : holds [])
    (append : ∀ {v w}, holds v → holds w → holds (v ++ w))
    (each : ∀ fragment, kept fragment →
      ∃ w, finished.Weighs (Sheet.finish fragment) w ∧ holds w) (made : Made kept sheet) :
    ∃ w, finished.Weighs (Sheet.finish sheet) w ∧ holds w := by
  rw [Made] at made
  generalize ([] : List Empty) = nothing at made
  induction made with
  | nil => exact ⟨[], .nil, nil⟩
  | @text written w rest v here later ih =>
    obtain ⟨u, weighs, fine⟩ := ih
    refine ⟨u, ?_, fine⟩
    rw [Sheet.finish_append, Sheet.finish_chars]
    exact (weighs_inert here).append weighs
  | @sealed s w rest v here later ih =>
    obtain ⟨u, weighs, fine⟩ := ih
    rw [← List.singleton_append, Sheet.finish_append]
    cases here with
    | token plain => exact ⟨u, (weighs_inert (.char plain)).append weighs, fine⟩
    | marker side => exact ⟨u, (weighs_marker side).append weighs, fine⟩
    | @key fragment here =>
      obtain ⟨t, inner, good⟩ := each fragment here
      rw [Sheet.finish_key]
      exact ⟨t ++ u, inner.append weighs, append good fine⟩

/-- Without keys there are no blocks. -/
theorem weighs_finish_of_keyless (made : Made Keyless sheet) :
    finished.Weighs (Sheet.finish sheet) [] := by
  obtain ⟨_, weighs, rfl⟩ := @exists_weighs_finish Keyless sheet (· = []) rfl
    (fun left right => by rw [left, right, List.append_nil]) (fun _ impossible => impossible.elim) made
  exact weighs

theorem weighs_finish_of_finished (weighs : finished.Weighs sheet w) :
    finished.Weighs (Sheet.finish sheet) w := by
  refine weighs.finish (fun here => here) fun {s w} here => ?_
  cases here with
  | marker side => exact weighs_marker side

/-- A fragment of nested blocks. -/
def Nested (fragment : Sheet) : Prop :=
  ∃ w, finished.Weighs (Sheet.finish fragment) w ∧ Nest .blocks w

theorem Nested.of_keyless (made : Made Keyless sheet) : Nested sheet :=
  ⟨[], weighs_finish_of_keyless made, .nil⟩

theorem Nested.append {first second : Sheet} (early : Nested first) (late : Nested second) :
    Nested (first ++ second) := by
  obtain ⟨v, left, begins⟩ := early
  obtain ⟨w, right, ends⟩ := late
  exact ⟨v ++ w, Sheet.finish_append first second ▸ left.append right, begins.append ends⟩

theorem exists_nest_of_made (made : Made Nested sheet) :
    ∃ w, finished.Weighs (Sheet.finish sheet) w ∧ Nest .blocks w :=
  exists_weighs_finish .nil .append (fun _ nested => nested) made

/-- Blocks between two tags, as finished output. -/
theorem weighs_element {opening closing : Text} (opens : opening ∈ tagNames)
    (closes : closing ∈ tagNames) (weighs : finished.Weighs (Sheet.finish content) w) :
    finished.Weighs (Sheet.finish (Glyph.chars (tag opening) ++ content ++ Glyph.chars (tag closing)))
      (opening :: (w ++ [closing])) := by
  rw [Sheet.finish_append, Sheet.finish_append, Sheet.finish_chars, Sheet.finish_chars]
  simpa using ((weighs_tag opens).append weighs).append (weighs_tag closes)

theorem mem_tagNames_of_leaf {name : Text} (named : name ∈ leafNames) :
    name ∈ tagNames ∧ '/' :: name ∈ tagNames :=
  (by decide : ∀ name ∈ leafNames, name ∈ tagNames ∧ '/' :: name ∈ tagNames) name named

theorem mem_tagNames_of_list {name : Text} (named : name ∈ listNames) :
    name ∈ tagNames ∧ '/' :: name ∈ tagNames :=
  (by decide : ∀ name ∈ listNames, name ∈ tagNames ∧ '/' :: name ∈ tagNames) name named

/-- An element without blocks in it. -/
theorem nested_leaf {name : Text} (named : name ∈ leafNames) (made : Made Keyless content) :
    Nested (Glyph.chars (tag name) ++ content ++ Glyph.chars (tag ('/' :: name))) := by
  obtain ⟨opens, closes⟩ := mem_tagNames_of_leaf named
  exact ⟨_, weighs_element opens closes (weighs_finish_of_keyless made), .leaf named .nil⟩

section Headings

variable {table : Sheet.Table} (targets : TargetsOf Keyless table)
include targets

theorem nested_headingElement {rank : Nat} (ranked : rank ∈ [1, 2, 3, 4, 5, 6])
    (clean : Clean Keyless content) : Nested (Sheet.headingElement table rank content) := by
  have names : ∀ rank ∈ [1, 2, 3, 4, 5, 6], 'h' :: (toString rank).toList ∈ leafNames := by decide
  exact nested_leaf (names rank ranked) (made_inline targets clean)

end Headings

theorem Clean.trimEnd (clean : Clean kept sheet) (within : Char → Bool) :
    Clean kept (Sheet.trimEnd within sheet) :=
  clean.part fun _ member => List.mem_reverse.1
    ((List.dropWhile_suffix _).subset (List.mem_reverse.1 member))

theorem Clean.trim (clean : Clean kept sheet) (within : Char → Bool) :
    Clean kept (Sheet.trim within sheet) :=
  .trimEnd (clean.part (List.dropWhile_suffix _).subset) within

/-- Matches replaced by a text. -/
theorem Clean.recast_chars {slot : Type} [DecidableEq slot] {pattern : Pattern slot}
    (clean : Clean kept sheet) (text : Text) (plain : '<' ∉ text) :
    Clean kept (pattern.recast (fun _ => Glyph.chars text) sheet) :=
  clean.recast (fun _ here => here) fun _ _ => clean_chars plain

theorem Clean.outdent (clean : Clean kept sheet) : Clean kept (Sheet.outdent sheet) :=
  clean.recast_chars [] (by decide)

theorem nested_rule : Nested (Glyph.chars "<hr>".toList) :=
  ⟨["hr".toList], @weighs_tag "hr".toList (by decide), .rule .nil⟩

theorem nested_codeBlockElement (clean : Clean Keyless content) :
    Nested (Sheet.codeBlockElement content) := by
  have code : Clean Keyless (Sheet.protect (Sheet.restore (Sheet.outdent content))) :=
    clean_protect (sealsOf_reveal clean.outdent.sealsOf)
  have trimmed := ((code.trim Text.isNewline).trimEnd Unicode.isSpace).made
  have opens := @made_tag Keyless "<c".toList "ode>".toList (by decide) (by decide)
  have closes := @made_tag Keyless "</c".toList "ode>".toList (by decide) (by decide)
  have element := (opens.append trimmed).append
    ((@made_chars _ ['\n'] (by decide)).append closes)
  have whole := @nested_leaf _ "pre".toList (by decide) element
  simpa [Sheet.codeBlockElement, tag] using whole

/-- Parts of a sheet without keys come to what they come to, and between them there are no tags. -/
theorem exists_nest_of_recasts {slot : Type} {pieces : List (Piece Seal slot)} {kind : Content}
    {result : Sheet} (recasts : Recasts
      (fun _ part => ∃ w, finished.Weighs (Sheet.finish part) w ∧ Nest kind w) pieces result)
    (plain : ∀ g, .plain g ∈ pieces → Held Keyless g) :
    ∃ w, finished.Weighs (Sheet.finish result) w ∧ Nest kind w := by
  induction recasts with
  | nil => exact ⟨[], .nil, .nil⟩
  | plain g later ih =>
    obtain ⟨w, weighs, nest⟩ := ih fun h member => plain h (List.mem_cons_of_mem _ member)
    have here := weighs_finish_of_keyless (plain g List.mem_cons_self).made
    exact ⟨w, by simpa [← Sheet.finish_append] using here.append weighs, nest⟩
  | found here later ih =>
    obtain ⟨v, first, left⟩ := here
    obtain ⟨w, weighs, right⟩ := ih fun h member => plain h (List.mem_cons_of_mem _ member)
    rw [Sheet.finish_append]
    exact ⟨v ++ w, first.append weighs, left.append right⟩

/-- The renderings of an interior give nested blocks, and keys of such. -/
structure Nests (interior : Sheet.Interior) : Prop where
  blocks : ∀ {sheet}, Clean Keyless sheet → ∀ inList, (interior.blocks inList sheet).Ensures
    fun result => ∃ w, finished.Weighs result w ∧ Nest .blocks w
  lists : ∀ {sheet}, Clean Keyless sheet → (interior.lists sheet).Ensures (Clean Nested)

section Interiors

variable {interior : Sheet.Interior} (nests : Nests interior) {table : Sheet.Table}
  (targets : TargetsOf Keyless table)

include nests in
theorem nested_quoteElement (clean : Clean Keyless content) :
    (Sheet.quoteElement interior content).Ensures Nested := by
  have lines : Clean Keyless (Quote.mark.recast (fun _ => []) content) :=
    clean.recast_chars [] (by decide)
  refine (nests.blocks lines false).bind fun inner ⟨w, weighs, nest⟩ => .pure ?_
  have padded := (weighs_newline.append weighs).append weighs_newline
  have whole := @weighs_element _ _ "blockquote".toList "/blockquote".toList (by decide) (by decide)
    (weighs_finish_of_finished padded)
  refine ⟨_, by simpa [tag] using whole, .quote nest .nil⟩

include nests targets in
theorem exists_nest_itemContent {f : Find Seal Listing.Part} (clean : Clean Keyless (f.get .content)) :
    (Sheet.itemContent table interior f).Ensures
      fun inner => ∃ w, finished.Weighs inner w ∧ Nest .blocks w := by
  rw [Sheet.itemContent]
  split
  · exact nests.blocks clean.outdent true
  · refine (nests.lists clean.outdent).bind fun inner here => .pure ?_
    have single : Clean Nested (Sheet.singleSpaced (Sheet.trimEnd Text.isNewline inner)) :=
      (here.trimEnd Text.isNewline).recast_chars ['\n'] (by decide)
    have wider : TargetsOf Nested table := targets.mono fun _ impossible => impossible.elim
    exact exists_nest_of_made (made_inline wider single)

include nests targets in
theorem exists_nest_itemElement {f : Find Seal Listing.Part} (clean : Clean Keyless (f.get .content)) :
    (Sheet.itemElement table interior f).Ensures
      fun element => ∃ w, finished.Weighs (Sheet.finish element) w ∧ Nest .items w := by
  refine (exists_nest_itemContent nests targets clean).bind fun inner ⟨w, weighs, nest⟩ => .pure ?_
  have whole := (@weighs_element _ _ "li".toList "/li".toList (by decide) (by decide)
    (weighs_finish_of_finished weighs)).append weighs_newline
  refine ⟨_, ?_, .item nest .nil⟩
  rw [← finish_newline, ← Sheet.finish_append] at whole
  simpa [tag] using whole

include nests targets in
theorem nested_listElement {f : Find Seal Listing.Part} (clean : Clean Keyless (f.get .list)) :
    (Sheet.listElement table interior f).Ensures Nested := by
  have spaced : Clean Keyless (Sheet.evenlySpaced (f.get .list)) :=
    (clean.recast_chars "\n\n\n".toList (by decide)).recast_chars ['\n'] (by decide)
  have parts : ∀ g, Listing.item.Finds Seal.lead (Sheet.evenlySpaced (f.get .list)) g →
      (Sheet.itemElement table interior g).Ensures
        fun element => ∃ w, finished.Weighs (Sheet.finish element) w ∧ Nest .items w :=
    fun g finds => exists_nest_itemElement nests targets
      (spaced.part (finds.get_infix .content).subset)
  refine (Recasts.of_redraw parts).bind fun items recasts => .pure ?_
  obtain ⟨w, weighs, nest⟩ := exists_nest_of_recasts recasts fun g member =>
    spaced g (mem_of_plain_mem_pieces member)
  have named : Listing.tagOf (Sheet.outline (f.get .marker)) ∈ listNames := by
    rw [Listing.tagOf]
    split <;> decide
  obtain ⟨opens, closes⟩ := mem_tagNames_of_list named
  have padded := weighs_newline.append weighs
  rw [← finish_newline, ← Sheet.finish_append] at padded
  have whole := weighs_element opens closes padded
  refine ⟨_, by simpa [tag] using whole, .list named nest .nil⟩

end Interiors

end Markdown.Structure
