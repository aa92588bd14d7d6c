import Markdown.Proofs.Output

set_option autoImplicit false

namespace Markdown.Renaming

variable {r : Renaming}

theorem spares_of_fresh {document : Text} (fresh : ∀ side, r.char side ∉ document) :
    r.Spares document := by
  rintro c member _ side rfl
  exact fresh side member

/-- The renamed characters of the document are what the renamed markers are written as. -/
theorem spell_bare {known : List Text} {sheet : Sheet} {text : Text}
    (prints : same.Prints known sheet text) (finished : ∀ g ∈ sheet, g.Finished) :
    spell r.bare sheet = (spell same.bare sheet).map r.apply := by
  have valid := prints.valid
  clear prints
  induction sheet with
  | nil => rfl
  | cons g rest ih =>
    have later := ih (fun h member => finished h (List.mem_cons_of_mem _ member))
      fun h member => valid h (List.mem_cons_of_mem _ member)
    rw [spell_cons, spell_cons, List.map_append, later]
    congr 1
    cases finished g List.mem_cons_self with
    | marker side => cases side <;> rfl
    | char c =>
      cases valid _ List.mem_cons_self with
      | char free => simp [Glyph.spell, r.apply_of_not_isMarker free.1]

/-- Conversion goes along with the renaming of markers to characters that the document does not
hold: it fails in the same way or gives the same output with its markers renamed. -/
theorem convert_map_apply {document : Text} {limit : Limit}
    (fresh : ∀ side, r.char side ∉ document)
    (apart : (convert limit document).progress.fragments.NoCollision)
    (renamedApart : (convert limit (document.map r.apply)).progress.fragments.NoCollision) :
    (convert limit (document.map r.apply)).html =
      (convert limit document).html.map (List.map r.apply) := by
  have spares := spares_of_isMarker isMarker_char_same document
  have keep := html_convert spares limit
  have answer := render_answers spares limit
  have finished := @Sheet.finished_rendered limit document
  rw [map_apply_same] at keep answer
  rw [html_convert (spares_of_fresh fresh) limit renamedApart, keep apart]
  replace answer := answer apart
  generalize ((prepare document).render limit).1 = output at answer
  generalize Sheet.rendered limit document = drafted at answer finished ⊢
  cases answer with
  | ok prints => exact congrArg Except.ok (spell_bare prints (finished rfl))
  | error error => rfl

/-- The first two characters for private use. -/
def lowest : Renaming where
  char
    | .opening => '\ue000'
    | .closing => '\ue001'
  isPrivate side := by cases side <;> decide
  distinct := by decide

/-- A document that holds a quote and, behind it, the key under which the quote is put aside. -/
def forgery : Text :=
  "> a\n\n".toList ++ Fragments.key "<blockquote>\n<p>a</p>\n</blockquote>".toList

theorem convert_map_apply_forgery :
    (∀ side, lowest.char side ∉ forgery) ∧
      (convert .standard forgery).progress.fragments.NoCollision ∧
      (convert .standard (forgery.map lowest.apply)).progress.fragments.NoCollision ∧
      (convert .standard (forgery.map lowest.apply)).html =
        (convert .standard forgery).html.map (List.map lowest.apply) := by
  have fresh : ∀ side, lowest.char side ∉ forgery := by
    intro side
    cases side <;> decide +kernel
  have apart : (convert .standard forgery).progress.fragments.NoCollision := by decide +kernel
  have renamedApart :
      (convert .standard (forgery.map lowest.apply)).progress.fragments.NoCollision := by
    decide +kernel
  exact ⟨fresh, apart, renamedApart, convert_map_apply fresh apart renamedApart⟩

end Markdown.Renaming
