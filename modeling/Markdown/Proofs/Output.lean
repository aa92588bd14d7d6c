import Markdown.Proofs.Sheet.Document

set_option autoImplicit false

namespace Markdown

namespace Output

/-- The place lies in a whole token of a marker. -/
def InMarkerToken (html : Text) (offset : Nat) : Prop :=
  ∃ front marker back, Escape.isMarker marker = true ∧
    html = front ++ Escape.token marker ++ back ∧
    front.length ≤ offset ∧ offset < front.length + (Escape.token marker).length

/-- No fragment is left under its key and no character behind its token, the markers aside. -/
structure Finished (fragments : Fragments) (html : Text) : Prop where
  keys : ∀ key, fragments.contains key = true → ¬ key <:+: html
  tokens : ∀ c ∈ Escape.alphabet, ¬ Escape.token c <:+: html
  markers : ∀ before c after, html = before ++ c :: after → Escape.isMarker c = true →
    InMarkerToken html before.length

end Output

/-- A character of a spelled sheet lies in the text of one of its glyphs. -/
theorem exists_glyph_of_spell_eq {face : Seal → Text} {sheet : Sheet} {before after : Text}
    {c : Char} (written : spell face sheet = before ++ c :: after) :
    ∃ first g second front back, sheet = first ++ g :: second ∧
      Glyph.spell face g = front ++ c :: back ∧ before = spell face first ++ front ∧
      after = back ++ spell face second := by
  induction sheet generalizing before with
  | nil => simp at written
  | cons g rest ih =>
    rw [spell_cons] at written
    rcases List.append_eq_append_iff.1 written with ⟨front, begun, later⟩ | ⟨back, begun, later⟩
    · obtain ⟨first, h, second, u, v, parts, spelled, ahead, behind⟩ := ih later
      refine ⟨g :: first, h, second, u, v, by rw [parts, List.cons_append], spelled, ?_, behind⟩
      rw [begun, ahead, spell_cons, List.append_assoc]
    · cases back with
      | nil =>
        obtain ⟨first, h, second, u, v, parts, spelled, ahead, behind⟩ :=
          @ih [] (by simpa using later.symm)
        refine ⟨g :: first, h, second, u, v, by rw [parts, List.cons_append], spelled, ?_, behind⟩
        rw [spell_cons, List.append_assoc, ← ahead, begun, List.append_nil, List.append_nil]
      | cons d back =>
        obtain ⟨rfl, rest_eq⟩ := List.cons.inj later
        exact ⟨[], g, rest, before, back, rfl, begun, rfl, rest_eq⟩

namespace Renaming.Prints

variable {known : List Text} {sheet : Sheet} {html : Text}

/-- The character of a marker stands only in the token of a marker of the document. -/
theorem exists_marker (prints : same.Prints known sheet html)
    (finished : ∀ g ∈ sheet, g.Finished) {before after : Text} {c : Char}
    (here : html = before ++ c :: after) (marker : Escape.isMarker c = true) :
    ∃ first side second front back, sheet = first ++ Glyph.sealed (.marker side) :: second ∧
      Escape.token (same.char side) = front ++ c :: back ∧ before = spell same.face first ++ front ∧
      after = back ++ spell same.face second := by
  obtain ⟨first, g, second, front, back, rfl, spelled, ahead, behind⟩ :=
    exists_glyph_of_spell_eq (prints.spelled.trans here)
  have inside : g ∈ first ++ g :: second := by simp
  cases finished g inside with
  | marker side =>
    refine ⟨first, side, second, front, back, rfl, ?_, ahead, behind⟩
    rw [← spelled]
    cases side <;> rfl
  | char d =>
    have member : c ∈ [d] := by
      rw [show [d] = front ++ c :: back from spelled]
      simp
    obtain rfl := List.mem_singleton.1 member
    cases prints.valid _ inside with
    | char free =>
      rw [free.1] at marker
      cases marker

/-- A text with the shape of tokens and keys stands only at the token of a marker. -/
theorem exists_marker_of_infix (prints : same.Prints known sheet html)
    (finished : ∀ g ∈ sheet, g.Finished) {stamp : Text}
    (inside : (Escape.opening :: stamp) <:+: html) :
    ∃ side later rest, Escape.opening :: stamp ++ later = Escape.token (same.char side) ++ rest := by
  obtain ⟨before, later, whole⟩ := inside
  rw [List.append_assoc, List.cons_append] at whole
  obtain ⟨first, side, second, front, back, _, token, _, behind⟩ :=
    prints.exists_marker finished whole.symm (by decide)
  -- The opening marker is the first character of a token and no other.
  cases front with
  | nil =>
    refine ⟨side, later, spell same.face second, ?_⟩
    rw [token, List.cons_append, behind]
    rfl
  | cons d front =>
    have second : Escape.opening ∈ 'e' :: (Digest.md5 [same.char side] ++ [Escape.closing]) := by
      rw [(List.cons.inj token).2]
      simp
    rcases List.mem_cons.1 second with letter | digits
    · exact absurd letter (by decide)
    · exact absurd digits (opening_not_mem_of_digits fun _ => Escape.isDigestDigit_of_mem_hex)

theorem finished (prints : same.Prints known sheet html) (finished : ∀ g ∈ sheet, g.Finished)
    (fragments : Fragments) : Output.Finished fragments html where
  keys key contained inside := by
    obtain ⟨entry, stored, rfl⟩ := Fragments.contains_iff.1 contained
    rw [(fragments.keyed entry stored).1] at inside
    obtain ⟨side, later, rest, meets⟩ := prints.exists_marker_of_infix finished inside
    exact token_append_ne_key_append meets.symm
  tokens c escapable inside := by
    obtain ⟨side, later, rest, meets⟩ := prints.exists_marker_of_infix finished inside
    have hidden : Escape.token (same.char side) = same.hide side := by cases side <;> rfl
    rw [hidden] at meets
    exact token_append_ne_hide_append escapable meets
  markers before c after here marker := by
    obtain ⟨first, side, second, front, back, rfl, token, rfl, rfl⟩ :=
      prints.exists_marker finished here marker
    refine ⟨spell same.face first, same.char side, spell same.face second, ?_, ?_, ?_, ?_⟩
    · cases side <;> decide
    · rw [here, token]
      simp
    · simp
    · simp [token]

end Renaming.Prints

namespace Renaming

/-- Each marker stands in the place of the other. -/
def swapped : Renaming where
  char
    | .opening => Escape.closing
    | .closing => Escape.opening
  isPrivate side := by cases side <;> decide
  distinct := by decide

theorem isMarker_char_same (side : Side) : Escape.isMarker (same.char side) = true := by
  cases side <;> decide

theorem isMarker_char_swapped (side : Side) : Escape.isMarker (swapped.char side) = true := by
  cases side <;> decide

theorem swapped_ne_same (side : Side) : swapped.char side ≠ same.char side := by
  cases side <;> decide

theorem spares_of_isMarker {r : Renaming} (markers : ∀ side, Escape.isMarker (r.char side) = true)
    (document : Text) : r.Spares document := by
  rintro c _ plain side rfl
  rw [markers side] at plain
  cases plain

theorem map_apply_same (document : Text) : document.map same.apply = document :=
  (List.map_congr_left fun c _ => apply_same c).trans document.map_id

theorem prints_normalize (document : Text) :
    same.Prints [] (Sheet.ofDocument document) (Codec.standard.normalize document) := by
  have prints := same.prints_ofDocument (spares_of_isMarker isMarker_char_same document) []
  rwa [map_apply_same] at prints

theorem map_apply_of_plain {r : Renaming} {document : Text}
    (plain : ∀ c ∈ document, Escape.isMarker c = false) : document.map r.apply = document := by
  refine (List.map_congr_left fun c member => ?_).trans document.map_id
  exact r.apply_of_not_isMarker (plain c member)

/-- A finished sheet that reads the same with its markers swapped has none. -/
theorem marker_not_mem_of_spell_eq {sheet : Sheet} (finished : ∀ g ∈ sheet, g.Finished)
    (same_text : spell swapped.bare sheet = spell same.bare sheet) (side : Side) :
    Glyph.sealed (.marker side) ∉ sheet := by
  induction sheet with
  | nil => exact List.not_mem_nil
  | cons g rest ih =>
    have later : ∀ h ∈ rest, h.Finished := fun h member => finished h (List.mem_cons_of_mem _ member)
    rw [spell_cons, spell_cons] at same_text
    cases finished g List.mem_cons_self with
    | char c =>
      have tails := (List.cons.inj same_text).2
      simpa using ih later tails
    | marker other => exact absurd (List.cons.inj same_text).1 (swapped_ne_same other)

end Renaming

theorem eq_ok_of_toOption {ε α : Type} {result : Except ε α} {value : α}
    (some : result.toOption = some value) : result = .ok value := by
  cases result with
  | error => cases some
  | ok other => rw [Option.some.inj some]

namespace Output

open Renaming in
/-- The rendered blocks of a document are finished output, and where the document has no markers,
neither has what is made of it. -/
theorem finished_of_render {document : Text} {limit : Limit} {html : Text} {progress : Progress}
    (success : (prepare document).render limit = (.ok html, progress))
    (apart : progress.fragments.NoCollision) :
    Finished progress.fragments html ∧
      ((∀ c ∈ document, Escape.isMarker c = false) →
        ∃ output, (convert limit document).html = .ok output ∧
          ∀ c ∈ output, Escape.isMarker c = false) := by
  have spares := spares_of_isMarker isMarker_char_same document
  have answer := render_answers spares limit
  rw [map_apply_same, success] at answer
  replace answer := answer apart
  have drafted := @Sheet.finished_rendered limit document
  constructor
  · generalize Sheet.rendered limit document = result at answer drafted
    cases answer with
    | ok prints => exact prints.finished (drafted rfl) progress.fragments
  · intro plain
    have done : (convert limit document).progress.fragments.NoCollision := by
      change ((prepare document).render limit).2.fragments.NoCollision
      rwa [success]
    have swap := html_convert (spares_of_isMarker isMarker_char_swapped document) limit
    have keep := html_convert spares limit
    rw [map_apply_of_plain plain] at swap keep
    have both := (swap done).symm.trans (keep done)
    rw [keep done]
    generalize Sheet.rendered limit document = result at answer drafted both
    cases answer with
    | @ok sheet _ prints =>
      refine ⟨_, rfl, fun c member => ?_⟩
      have none := marker_not_mem_of_spell_eq (drafted rfl) (Except.ok.inj both)
      obtain ⟨g, inside, here⟩ := List.mem_flatMap.1 member
      cases drafted rfl g inside with
      | marker side => exact absurd inside (none side)
      | char d =>
        obtain rfl := List.mem_singleton.1 here
        cases prints.valid _ inside with
        | char free => exact free.1

/-- An escaped asterisk in a quote: its token and the key of the quote are gone in the end. -/
theorem finished_of_render_quote :
    ∃ html progress, (prepare "> \\*".toList).render .standard = (.ok html, progress) ∧
      progress.fragments.NoCollision ∧ progress.fragments.size = 1 ∧
      Finished progress.fragments html ∧
      ∃ output, (convert .standard "> \\*".toList).html = .ok output ∧
        ∀ c ∈ output, Escape.isMarker c = false := by
  obtain ⟨written, apart, stored⟩ :
      ((prepare "> \\*".toList).render .standard).1.toOption =
          some "<blockquote>\n<p>*</p>\n</blockquote>".toList ∧
        ((prepare "> \\*".toList).render .standard).2.fragments.NoCollision ∧
          ((prepare "> \\*".toList).render .standard).2.fragments.size = 1 := by
    decide +kernel
  have done := eq_ok_of_toOption written
  have success : (prepare "> \\*".toList).render .standard =
      (.ok "<blockquote>\n<p>*</p>\n</blockquote>".toList,
        ((prepare "> \\*".toList).render .standard).2) := by
    rw [← done]
  obtain ⟨finished, clean⟩ := finished_of_render success apart
  exact ⟨_, _, success, apart, stored, finished, clean (by decide)⟩

end Output

end Markdown
