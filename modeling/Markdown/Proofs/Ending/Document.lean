import Markdown.Document
import Markdown.Proofs.Ending.Blocks
import Markdown.Proofs.Sheet.Lines

set_option autoImplicit false

namespace Markdown

/-- The newlines at the end of a text stay as many as they are. -/
theorem Text.exists_unifyNewlines (text : Text) :
    ∃ front, ∀ count, unifyNewlines (text ++ List.replicate (count + 1) '\n') =
      front ++ List.replicate (count + 1) '\n' := by
  have newlines : ∀ count, unifyNewlines (List.replicate count '\n') = List.replicate count '\n' :=
    fun count => Sheet.unifyNewlines_eq_self fun member =>
      absurd (List.eq_of_mem_replicate member) (by decide)
  fun_induction unifyNewlines text with
  | case1 => exact ⟨[], fun count => newlines (count + 1)⟩
  | case2 rest ih =>
    obtain ⟨front, same⟩ := ih
    exact ⟨'\n' :: front, fun count => congrArg (_ :: ·) (same count)⟩
  | case3 c rest other ih =>
    obtain ⟨front, same⟩ := ih
    cases rest with
    | nil =>
      by_cases carriage : c = '\r'
      · exact ⟨[], fun count => by rw [carriage]; exact congrArg (_ :: ·) (newlines count)⟩
      · refine ⟨[c], fun count => ?_⟩
        rw [List.singleton_append, unifyNewlines, if_neg carriage, newlines]
        exact fun _ impossible => absurd impossible carriage
    | cons d more =>
      refine ⟨(if c = '\r' then '\n' else c) :: front, fun count => ?_⟩
      rw [List.cons_append, unifyNewlines, same]
      · rfl
      · intro others carriage next
        obtain ⟨newline, -⟩ := List.cons.inj next
        exact other more carriage (by rw [newline])

theorem Codec.exists_normalize (document : Text) :
    ∃ front, ∀ count, Codec.standard.normalize (document ++ List.replicate (count + 1) '\n') =
      front ++ List.replicate (count + 1) '\n' := by
  obtain ⟨front, same⟩ := document.exists_unifyNewlines
  have still : ∀ count, (List.replicate count '\n').flatMap
      (fun c => if Escape.isMarker c then Codec.standard.cover c else [c]) =
        List.replicate count '\n' := by
    intro count
    induction count with
    | zero => rfl
    | succ count ih =>
      rw [List.replicate_succ, List.flatMap_cons, ih]
      rfl
  exact ⟨_, fun count => by rw [Codec.normalize, same, List.flatMap_append, still]⟩

namespace Definition

theorem atLineStart_of_mem {reading later : Reading Part}
    (member : later ∈ definitionLine.outcomes reading) : reading.cursor.atLineStart = true := by
  obtain ⟨_, defined, _⟩ := List.mem_flatMap.1 member
  obtain ⟨_, first, _⟩ := List.mem_flatMap.1 defined
  rw [Pattern.lineStart, Pattern.outcomes] at first
  split at first
  · next starts => exact starts
  · cases first

/-- Definitions start at the starts of lines, so the text without them still ends in a newline. -/
theorem ended_withoutDefinitions (budget : Nat) {cursor : Cursor} (ended : cursor.whole.Ended)
    (room : cursor.after.length ≤ budget) :
    Text.Ended ((definitionLine.segmentsFrom budget cursor).flatMap
      (Segment.replaced fun _ => [])) ∧
    ((definitionLine.segmentsFrom budget cursor).flatMap (Segment.replaced fun _ => []) = [] →
      cursor.after = [] ∨ cursor.atLineStart = true) := by
  have nothing : ∀ (count : Nat) (place : Cursor), place.after = [] →
      Text.Ended ((definitionLine.segmentsFrom count place).flatMap
        (Segment.replaced fun _ => [])) ∧
      ((definitionLine.segmentsFrom count place).flatMap (Segment.replaced fun _ => []) = [] →
        place.after = [] ∨ place.atLineStart = true) := by
    intro count place done
    rw [Pattern.segmentsFrom_of_ended definitionLine count done]
    exact ⟨by simp [Text.Ended], fun _ => .inl done⟩
  induction budget generalizing cursor with
  | zero =>
    have done := List.length_eq_zero_iff.1 (Nat.le_zero.1 room)
    exact nothing 0 cursor done
  | succ budget ih =>
    cases after : cursor.after with
    | nil => exact after ▸ nothing _ cursor after
    | cons c rest =>
      rw [Pattern.segmentsFrom_of_next definitionLine budget after]
      cases tried : (definitionLine.outcomes ⟨cursor, []⟩).head? with
      | none =>
        refine ⟨?_, fun impossible => absurd impossible (List.cons_ne_nil c _)⟩
        have whole := Pattern.whole_past after
        rw [after, List.length_cons] at room
        obtain ⟨goes, starts⟩ := @ih (cursor.past c rest) (whole ▸ ended)
          (Nat.le_of_succ_le_succ room)
        dsimp only
        rw [List.flatMap_cons]
        generalize List.flatMap (Segment.replaced fun _ => []) _ = left at goes starts
        intro d last
        cases left with
        | nil =>
          obtain rfl : c = d := by simpa [Segment.replaced] using last
          rcases starts rfl with none | start
          · obtain rfl : rest = [] := none
            exact ended c (by simp [Cursor.whole, after])
          · simpa [Cursor.atLineStart, Cursor.atTextStart, Cursor.follows, Cursor.past,
              Text.isNewline] using start
        | cons e others => exact goes d (by simpa [Segment.replaced] using last)
      | some stop =>
        have member := List.mem_of_mem_head? tried
        have less : stop.cursor.after.length < cursor.after.length :=
          Pattern.length_after_lt rfl member
        obtain ⟨goes, _⟩ := ih (Pattern.ended_of_mem_outcomes ended member) (by omega)
        exact ⟨goes, fun _ => .inr (atLineStart_of_mem member)⟩

theorem extract_append_newline {text : Text} (ended : text.Ended) :
    ReferenceTable.empty.extract (text ++ ['\n']) =
      { ReferenceTable.empty.extract text with
        text := (ReferenceTable.empty.extract text).text ++ ['\n'] } := by
  have blind : ∀ cursor : Cursor, cursor.whole = text → definitionLine.BlindAt ⟨cursor, []⟩ :=
    fun cursor whole => blindAt_definitionLine (by rwa [whole])
  rw [ReferenceTable.extract, Pattern.matches?_append_newline rfl blind, List.foldl_map,
    Pattern.replace_append_newline rfl blind fun _ _ _ => rfl]
  rfl

end Definition

/-- What is done with a document once its literal HTML is put aside. -/
def convertRest (limit : Limit) (text : Text) : StateM Fragments Conversion := fun fragments =>
  let extraction := ReferenceTable.empty.extract text
  let preparation : Preparation := ⟨Codec.standard.encodeEscapes extraction.text, fragments,
    extraction.table, extraction.duplicates⟩
  let (html, progress) := preparation.render limit
  (⟨html.map Codec.standard.decodeMarkers, extraction.table, extraction.duplicates, progress⟩,
    fragments)

/-- A document converted in one course: its literal HTML, and then the rest. -/
theorem convert_eq (limit : Limit) (document : Text) :
    convert limit document =
      ((Html.htmlBlock.replaceM (fun found fragments =>
        (Fragments.keyBlock (found.get .element), fragments.insert (found.get .element)))
        (Codec.standard.normalize document) >>= convertRest limit : StateM Fragments Conversion).run
          .empty).1 := by
  unfold convert prepare Html.protectBlocks
  rw [StateT.run_bind]
  generalize StateT.run (Html.htmlBlock.replaceM _ _ : StateM Fragments Text) _ = outcome
  obtain ⟨text, fragments⟩ := outcome
  rfl

theorem ignores_convertRest (limit : Limit) : IgnoresFinalNewline (convertRest limit) := by
  intro text ended
  have escaped : Text.Ended
      (Codec.standard.encodeEscapes (ReferenceTable.empty.extract text).text) := by
    have extracted := (Definition.ended_withoutDefinitions text.length
      (show (Cursor.first text).whole.Ended from ended) (Nat.le_refl _)).1
    rcases Text.Ended.exists_eq extracted with none | ⟨front, some⟩
    · rw [show (ReferenceTable.empty.extract text).text = [] from none]
      simp [Codec.encodeEscapes, Text.Ended]
    · rw [show (ReferenceTable.empty.extract text).text = _ from some,
        Codec.encodeEscapes_append_newline]
      exact Text.ended_append_newline _
  funext fragments
  unfold convertRest
  rw [Definition.extract_append_newline ended]
  dsimp only
  rw [Codec.encodeEscapes_append_newline, Preparation.render, Preparation.render, Block.render,
    Block.render, Block.ignores_blocks _ _ _ escaped]

/-- One newline at the end of a document is as good as any number of them. -/
theorem convert_final_newlines (limit : Limit) (document : Text) (count : Nat) :
    convert limit (document ++ List.replicate (count + 1) '\n') =
      convert limit (document ++ ['\n']) := by
  have settles : Settles (m := StateM Fragments) (Html.htmlBlock.replaceM fun found fragments =>
      (Fragments.keyBlock (found.get .element), fragments.insert (found.get .element))) :=
    Pattern.settles_replaceM rfl (fun _ => Html.ends_htmlBlock) fun first second alike => by
      rw [Match.get_eq alike id]
  have ignores := settles _ _ (ignores_convertRest limit)
  obtain ⟨front, normalized⟩ := Codec.exists_normalize document
  induction count with
  | zero => rfl
  | succ count ih =>
    have longer : front ++ List.replicate (count + 1 + 1) '\n' =
        front ++ List.replicate (count + 1) '\n' ++ ['\n'] := by
      rw [List.append_assoc, ← List.replicate_succ']
    have ended : Text.Ended (front ++ List.replicate (count + 1) '\n') := by
      rw [List.replicate_succ', ← List.append_assoc]
      exact Text.ended_append_newline _
    rw [← ih, convert_eq, convert_eq, normalized, normalized, longer]
    exact congrArg (fun work : StateM Fragments Conversion => (work.run .empty).1) (ignores _ ended)

end Markdown
