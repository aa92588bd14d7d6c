import Markdown.Proofs.Output

set_option autoImplicit false

namespace Markdown

namespace Sheet

variable {sheet : Sheet}

/-- Hidden characters come back, and nothing else was a token. -/
theorem unescape_hide (tokenless : ∀ c, Glyph.sealed (.token c) ∉ sheet) :
    unescape (hide sheet) = sheet := by
  induction sheet with
  | nil => rfl
  | cons g rest ih =>
    have later := ih fun c member => tokenless c (List.mem_cons_of_mem _ member)
    have here : unescape (hide [g]) = [g] := by
      cases g with
      | char c =>
        rw [hide, onChars_char]
        split <;> rfl
      | sealed s =>
        cases s with
        | token c => exact absurd List.mem_cons_self (tokenless c)
        | marker side => rfl
        | key fragment => rfl
    rw [← List.singleton_append, hide, onChars_append, unescape_append]
    exact congrArg₂ (· ++ ·) here later

theorem token_not_mem_escape (tokenless : ∀ c, Glyph.sealed (.token c) ∉ sheet) (c : Char) :
    Glyph.sealed (.token c) ∉ escape sheet := by
  intro member
  obtain ⟨g, inside, here⟩ := List.mem_flatMap.1 member
  cases g with
  | char d =>
    obtain ⟨_, _, same⟩ := Glyph.mem_chars.1 here
    cases same
  | sealed s =>
    have same : Glyph.sealed (.token c) = Glyph.sealed s := List.mem_singleton.1 here
    exact tokenless c (same ▸ inside)

end Sheet

namespace Scan

variable {letter : Char} {count : Nat} {written : Text → Text} {text result : Text}

/-- Each stamp stays as it is or gives way to one character that is in no stamp. -/
def Clears (letter : Char) (count : Nat) (written : Text → Text) : Prop :=
  ∀ word, IsStamp letter count word → written word = word ∨
    ∃ c, written word = [c] ∧ Escape.isMarker c = false ∧ Escape.isDigestDigit c = false

/-- The inside of a stamp, and its end, stand in the result only where they stood in the text. -/
theorem prefix_of_prefix_result (clears : Clears letter count written)
    (scan : Scan letter count written text result) {inside : Text}
    (ink : ∀ c ∈ inside, Escape.isDigestDigit c = true ∨ c = Escape.closing)
    (standing : inside <+: result) : inside <+: text := by
  induction scan generalizing inside with
  | ended => exact standing
  | @stamp word rest result stamped _ ih =>
    cases inside with
    | nil => exact List.nil_prefix
    | cons c inside =>
      have first := ink c List.mem_cons_self
      rcases clears word stamped with kept | ⟨d, revealed, marker, digit⟩
      · obtain ⟨digits, rfl, -, -⟩ := stamped
        rw [kept] at standing
        obtain rfl : c = Escape.opening := (List.cons_prefix_cons.1 standing).1
        exact absurd first (by decide)
      · rw [revealed] at standing
        obtain rfl : c = d := (List.cons_prefix_cons.1 standing).1
        rcases first with other | rfl
        · rw [digit] at other
          cases other
        · cases marker
  | plain _ _ ih =>
    cases inside with
    | nil => exact List.nil_prefix
    | cons c inside =>
      obtain ⟨rfl, behind⟩ := List.cons_prefix_cons.1 standing
      exact List.cons_prefix_cons.2 ⟨rfl, ih (List.forall_mem_cons.1 ink).2 behind⟩

/-- In the result the search finds the stamps that it kept and no others. -/
theorem again (letterDigit : Escape.isDigestDigit letter = true)
    (clears : Clears letter count written) (scan : Scan letter count written text result) :
    Scan letter count written result result := by
  induction scan with
  | ended => exact .ended
  | @stamp word rest result stamped _ ih =>
    rcases clears word stamped with kept | ⟨d, revealed, marker, _⟩
    · have later := Scan.stamp stamped ih
      rwa [kept] at later ⊢
    · rw [revealed]
      refine .plain (not_stampAhead_of_ne ?_) ih
      rintro rfl
      cases marker
  | @plain c rest result nowhere later ih =>
    refine .plain (fun ahead => nowhere ?_) ih
    obtain ⟨_, ⟨digits, rfl, length, inClass⟩, standing⟩ := ahead
    obtain ⟨rfl, behind⟩ := List.cons_prefix_cons.1 standing
    refine ⟨_, ⟨digits, rfl, length, inClass⟩, List.cons_prefix_cons.2 ⟨rfl, ?_⟩⟩
    refine prefix_of_prefix_result clears later (List.forall_mem_cons.2 ⟨.inl letterDigit, ?_⟩)
      behind
    intro d member
    rcases List.mem_append.1 member with digit | last
    · exact .inl (inClass d digit)
    · exact .inr (List.mem_singleton.1 last)

end Scan

namespace Codec

open Renaming.Prints (revealed)

/-- No character that may be escaped belongs to a token. -/
theorem clears_revealed : Scan.Clears 'e' 32 (revealed fun c => [c]) := by
  intro word _
  cases found : standard.char? word with
  | none => exact .inl (by rw [revealed, found])
  | some c =>
    by_cases marker : Escape.isMarker c = true
    · exact .inl (by rw [revealed, found]; exact if_pos marker)
    · refine .inr ⟨c, by rw [revealed, found]; exact if_neg marker, by simpa using marker, ?_⟩
      have all : ∀ d ∈ Escape.alphabet ++ Escape.markers, Escape.isMarker d = false →
          Escape.isDigestDigit d = false := by decide
      exact all c (eq_token_of_char? found).1 (by simpa using marker)

theorem unescape_unescape (text : Text) :
    standard.unescape (standard.unescape text) = standard.unescape text :=
  ((Scan.scan_replace 'e' 32 (revealed fun c => [c]) text).again (by decide)
    clears_revealed).replace_eq

variable (text : Text)

theorem decodeMarkers_normalize :
    standard.decodeMarkers (standard.normalize text) = text.unifyNewlines := by
  rw [(Renaming.prints_normalize text).decodeMarkers (Sheet.finished_map_glyphOf _),
    Sheet.ofDocument, Renaming.spell_bare_map_glyphOf]

theorem restore_encodeEscapes :
    standard.restore (standard.encodeEscapes (standard.normalize text)) =
      standard.normalize text := by
  have prints := Renaming.prints_normalize text
  have restored := prints.encodeEscapes.restore
  rw [Sheet.ofDocument, Sheet.restore_encodeEscapes (Sheet.token_not_mem_map_glyphOf _)] at restored
  exact restored.spelled.symm.trans prints.spelled

theorem unescape_hide :
    standard.unescape (standard.hide (standard.normalize text)) = standard.normalize text := by
  have prints := Renaming.prints_normalize text
  have revealed := prints.hide.unescape
  rw [Sheet.ofDocument, Sheet.unescape_hide (Sheet.token_not_mem_map_glyphOf _)] at revealed
  exact revealed.spelled.symm.trans prints.spelled

theorem unescape_protect :
    standard.unescape (standard.protect (standard.normalize text)) =
      Html.escape (standard.normalize text) := by
  have prints := (Renaming.prints_normalize text).escape
  have revealed := prints.hide.unescape
  rw [Sheet.ofDocument, Sheet.unescape_hide
    (Sheet.token_not_mem_escape (Sheet.token_not_mem_map_glyphOf _))] at revealed
  exact revealed.spelled.symm.trans prints.spelled

/-- Whatever a text spells, each way into the codec has its way back, and what has been revealed in
any text at all is not revealed again. -/
theorem lossless (text : Text) :
    let normal := standard.normalize text
    standard.decodeMarkers normal = text.unifyNewlines ∧
      standard.restore (standard.encodeEscapes normal) = normal ∧
      standard.unescape (standard.hide normal) = normal ∧
      standard.unescape (standard.protect normal) = Html.escape normal ∧
      ∀ other, standard.unescape (standard.unescape other) = standard.unescape other :=
  ⟨decodeMarkers_normalize text, restore_encodeEscapes text, unescape_hide text,
    unescape_protect text, unescape_unescape⟩

end Codec

end Markdown
