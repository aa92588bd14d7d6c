import Markdown.Proofs.Sheet.Block
import Markdown.Proofs.Sheet.Result

set_option autoImplicit false

namespace Markdown

namespace Sheet

noncomputable def draft (limit : Limit) (document : Sheet) : Draft Sheet :=
  let sheet := htmlBlocks document
  (interior (extractTable sheet) limit limit.capacity).blocks false
    (encodeEscapes (withoutDefinitions sheet))

noncomputable def rendered (limit : Limit) (document : Text) : Except NestingError Sheet :=
  ((draft limit (ofDocument document)).run .outermost).1

end Sheet

/-- A glyph of finished output: a character, or a marker of the document itself. -/
inductive Glyph.Finished : Glyph Seal → Prop where
  | char (c : Char) : Finished (.char c)
  | marker (side : Side) : Finished (.sealed (.marker side))

namespace Sheet

theorem finished_map_glyphOf (text : Text) : ∀ g ∈ text.map glyphOf, g.Finished := by
  intro g member
  obtain ⟨c, _, rfl⟩ := List.mem_map.1 member
  rw [glyphOf]
  split
  · exact .marker _
  · split
    · exact .marker _
    · exact .char c

theorem key_not_mem_expand (s : Seal) (fragment : Sheet) :
    Glyph.sealed (.key fragment) ∉ Seal.expand s := by
  induction s using Seal.induction with
  | token c => simp [Seal.expand]
  | marker side => simp [Seal.expand]
  | key inside ih =>
    rw [Seal.expand, expand_eq_flatMap]
    intro member
    obtain ⟨g, within, here⟩ := List.mem_flatMap.1 member
    cases g with
    | char c => simp [Glyph.expand] at here
    | sealed s => exact ih s within here

theorem finished_finish (sheet : Sheet) : ∀ g ∈ finish sheet, g.Finished := by
  intro g member
  obtain ⟨h, inside, here⟩ := List.mem_flatMap.1 member
  rw [expand_eq_flatMap] at inside
  obtain ⟨origin, _, expanded⟩ := List.mem_flatMap.1 inside
  cases h with
  | char c =>
    obtain rfl := List.mem_singleton.1 here
    exact .char c
  | sealed s =>
    cases s with
    | token c =>
      obtain ⟨d, _, rfl⟩ := Glyph.mem_chars.1 here
      exact .char d
    | marker side =>
      obtain rfl := List.mem_singleton.1 here
      exact .marker side
    | key fragment =>
      cases origin with
      | char c => simp [Glyph.expand] at expanded
      | sealed s => exact absurd expanded (key_not_mem_expand s fragment)

/-- Blocks come out finished. -/
theorem finished_level (table : Table) (interior : Interior) (inList : Bool) (sheet : Sheet) :
    (level table interior inList sheet).Ensures fun result => ∀ g ∈ result, g.Finished := by
  have anything : ∀ draft : Draft Sheet, draft.Ensures fun _ => True := fun _ _ _ _ => trivial
  exact (anything _).bind fun _ _ => (anything _).bind fun _ _ => .pure (finished_finish _)

theorem finished_blocks (table : Table) (limit : Limit) (left : Nat) (inList : Bool)
    (sheet : Sheet) :
    ((interior table limit left).blocks inList sheet).Ensures
      fun result => ∀ g ∈ result, g.Finished := by
  cases left with
  | zero => exact (Draft.Ensures.giveOut limit).nested limit
  | succ left => exact (finished_level table (interior table limit left) inList sheet).nested limit

theorem finished_rendered {limit : Limit} {document : Text} {result : Sheet}
    (done : rendered limit document = .ok result) : ∀ g ∈ result, g.Finished :=
  finished_blocks _ _ _ _ _ _ _ done

end Sheet

namespace Renaming

variable {r : Renaming} {known : List Text} {sheet : Sheet} {text : Text}

/-- A seal as it is written in the document: markers are characters. -/
def bare (r : Renaming) : Seal → Text
  | .marker side => [r.char side]
  | s => r.face s

/-- A document is spelled with what was written in it. -/
theorem spell_bare_map_glyphOf (text : Text) :
    spell same.bare (text.map Sheet.glyphOf) = text := by
  induction text with
  | nil => rfl
  | cons c rest ih =>
    have here : (Sheet.glyphOf c).spell same.bare = [c] := by
      rw [Sheet.glyphOf]
      split
      · next marker => rw [marker]; rfl
      · split
        · next marker => rw [marker]; rfl
        · rfl
    rw [List.map_cons, spell_cons, here, ih]
    rfl

def shown (r : Renaming) : Seal → Text
  | .token c => [c]
  | .marker side => [r.char side]
  | .key fragment => spell r.bare (Sheet.finish fragment)

theorem spell_finish (r : Renaming) (sheet : Sheet) :
    spell r.bare (Sheet.finish sheet) = spell r.shown sheet := by
  induction sheet with
  | nil => rfl
  | cons g rest ih =>
    have here : spell r.bare (Sheet.finish [g]) = g.spell r.shown := by
      cases g with
      | char c => rfl
      | sealed s =>
        cases s with
        | token c => rfl
        | marker side => rfl
        | key fragment => rw [Sheet.finish_key]; rfl
    rw [← List.singleton_append, Sheet.finish_append, spell_append, here, ih]
    rfl

/-- Tokens that are taken back earlier come out in the same way. -/
theorem spell_finish_unescape (r : Renaming) (sheet : Sheet) :
    spell r.bare (Sheet.finish (Sheet.unescape sheet)) = spell r.shown sheet := by
  rw [spell_finish]
  induction sheet with
  | nil => rfl
  | cons g rest ih =>
    have here : spell r.shown (Sheet.unescape [g]) = g.spell r.shown := by
      cases g with
      | char c => rfl
      | sealed s => cases s <;> simp [Sheet.unescape, Sheet.reveal, Glyph.spell, shown]
    rw [← List.singleton_append, Sheet.unescape_append, spell_append, here, ih]
    rfl

/-- What `Codec.decodeMarkers` puts in the place of a token. -/
def decoded (found : Text) : Text :=
  match Codec.standard.char? found with
  | some c => if Escape.isMarker c then [c] else found
  | none => found

theorem decoded_marker {c : Char} (marker : Escape.isMarker c = true) :
    decoded (Escape.token c) = [c] := by
  rw [decoded, Codec.char?_token c (Codec.mem_markers_of_isMarker marker)]
  exact if_pos marker

/-- The decoding of markers in finished output gives back the characters of the document. -/
theorem Prints.decodeMarkers (prints : r.Prints known sheet text)
    (finished : ∀ g ∈ sheet, g.Finished) :
    Codec.standard.decodeMarkers text = spell r.bare sheet := by
  have chunks : List.Forall₂ (Chunk 'e' 32 decoded) (sheet.map (Glyph.spell r.face))
      (sheet.map (Glyph.spell r.bare)) := by
    have valid := prints.valid
    clear prints
    induction sheet with
    | nil => exact .nil
    | cons g rest ih =>
      refine .cons ?_ (ih (fun h member => finished h (List.mem_cons_of_mem _ member))
        fun h member => valid h (List.mem_cons_of_mem _ member))
      have here := valid g List.mem_cons_self
      cases finished g List.mem_cons_self with
      | char c =>
        cases here with
        | char free => exact Prints.chunk_char decoded free.ne_opening
      | marker side =>
        rcases hide_eq (r := r) side with ⟨marker, token⟩ | ⟨differs, plain⟩
        · have chunk := Prints.chunk_token decoded (r.char side)
          rwa [decoded_marker marker, ← token] at chunk
        · have chunk : Chunk 'e' 32 decoded [r.char side] [r.char side] :=
            Prints.chunk_char decoded differs
          change Chunk 'e' 32 decoded (r.hide side) [r.char side]
          rwa [plain]
  have replaced := Markdown.replace_stamp chunks
  rw [← List.flatMap_def, ← List.flatMap_def, ← spell, ← spell, prints.spelled] at replaced
  exact replaced

/-- The blocks of a prepared document refine the draft of its sheet. -/
theorem answers_blocks {references : ReferenceTable} {table : Sheet.Table} {fragments : Fragments}
    (limit : Limit) (left : Nat) (tables : r.PrintsTable fragments.history table references)
    (prints : r.Prints fragments.history sheet text)
    (apart : (((Block.interior ⟨references, limit⟩ left).blocks false text).run
      ⟨fragments, .outermost⟩).2.fragments.NoCollision) :
    r.Answers (((Block.interior ⟨references, limit⟩ left).blocks false text).run
        ⟨fragments, .outermost⟩).2.fragments.history
      (((Sheet.interior table limit left).blocks false sheet).run .outermost).1
      (((Block.interior ⟨references, limit⟩ left).blocks false text).run
        ⟨fragments, .outermost⟩).1 :=
  ((Refines.inside_interior tables left).blocks (List.Subset.refl _) prints false
    ⟨fragments, .outermost⟩ (List.Subset.refl _) apart).2

/-- The rendering of a document with renamed markers answers the draft of the document. -/
theorem render_answers {document : Text} (spares : r.Spares document) (limit : Limit)
    (apart : ((prepare (document.map r.apply)).render limit).2.fragments.NoCollision) :
    r.Answers ((prepare (document.map r.apply)).render limit).2.fragments.history
      (Sheet.rendered limit document) ((prepare (document.map r.apply)).render limit).1 := by
  have grown := (Render.Grows.interior ⟨(prepare (document.map r.apply)).references, limit⟩
    limit.capacity).1 false (prepare (document.map r.apply)).text
    ⟨(prepare (document.map r.apply)).fragments, .outermost⟩
  have early : (prepare (document.map r.apply)).fragments.NoCollision := apart.mono grown
  have blocks := (Refines.htmlBlocks (r.prints_ofDocument spares []) .start (List.nil_subset _)
    early).2
  cases blocks with
  | ok prints =>
    exact answers_blocks limit limit.capacity (prints.extractTable early)
      prints.withoutDefinitions.encodeEscapes apart

/-- Whatever stands in the places of the markers, the output is the one draft of the document. -/
theorem html_convert {document : Text} (spares : r.Spares document) (limit : Limit)
    (apart : (convert limit (document.map r.apply)).progress.fragments.NoCollision) :
    (convert limit (document.map r.apply)).html =
      (Sheet.rendered limit document).map (spell r.bare) := by
  have answer := render_answers spares limit apart
  have finished := @Sheet.finished_rendered limit document
  change ((prepare (document.map r.apply)).render limit).1.map Codec.standard.decodeMarkers = _
  generalize ((prepare (document.map r.apply)).render limit).1 = output at answer ⊢
  generalize Sheet.rendered limit document = drafted at answer finished ⊢
  cases answer with
  | ok prints => exact congrArg Except.ok (prints.decodeMarkers (finished rfl))
  | error error => rfl

end Renaming

end Markdown
