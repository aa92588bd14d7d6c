import Markdown.Proofs.Ending.Patterns
import Markdown.Proofs.Ending.Spacing
import Markdown.Proofs.Sheet.Block

set_option autoImplicit false

namespace Markdown

variable {slot : Type} [DecidableEq slot]

theorem Match.get_eq {grows : slot → Prop} {first second : Match slot}
    (alike : first.stop.Alike grows second.stop) {name : slot} (fixed : ¬ grows name) :
    second.get name = first.get name := by
  rw [Match.get, Match.get, Match.get?, Match.get?]
  cases alike with
  | inside more same => rw [same]; rfl
  | ended here there caught => rw [(caught name).resolve_right fun grown => fixed grown.1]

/-- Work that ignores one more newline gives the same for the texts of matches that are alike. -/
theorem Match.apply_get {grows : slot → Prop} {first second : Match slot}
    (alike : first.stop.Alike grows second.stop) {α : Type} {work : Text → α}
    (ignores : ∀ text : Text, text ≠ [] → text.Ended → work (text ++ ['\n']) = work text)
    (name : slot) : work (second.get name) = work (first.get name) := by
  rw [Match.get, Match.get, Match.get?, Match.get?]
  cases alike with
  | inside more same => rw [same]; rfl
  | ended here there caught =>
    rcases caught name with same | ⟨_, text, some, ended, short, long⟩
    · rw [same]
    · rw [short, long]
      exact ignores text some ended

namespace Text

theorem trim_append_newline (text : Text) :
    (text ++ ['\n']).trim isNewline = text.trim isNewline := by
  rw [trim, trim, trimStart, trimStart, List.dropWhile_append]
  split
  · next all =>
    rw [List.isEmpty_iff.1 all]
    rfl
  · rw [trimEnd, trimEnd, List.reverse_append]
    rfl

end Text

namespace Codec

variable (codec : Codec) (text : Text)

theorem reveal_append_newline (written : Char → Text) :
    codec.reveal written (text ++ ['\n']) = codec.reveal written text ++ ['\n'] :=
  Pattern.replace_append_newline rfl (fun _ _ => Escape.blind_tokenShape.at rfl _)
    fun found passed passes => by rw [Match.text_extended passes]

theorem restore_append_newline : codec.restore (text ++ ['\n']) = codec.restore text ++ ['\n'] :=
  codec.reveal_append_newline text _

theorem protect_append_newline : codec.protect (text ++ ['\n']) = codec.protect text ++ ['\n'] := by
  rw [protect, protect, hide, hide, Html.escape, Html.escape, List.flatMap_append,
    List.flatMap_append]
  rfl

end Codec

namespace Heading

theorem settles_render (references : ReferenceTable) : Settles (Heading.render references) := by
  have underlined : Settles (m := Render) (Heading.underlined.replaceM fun found =>
      .setAside (element references (rankOf (found.get .underline)) (found.get .content))) :=
    Pattern.settles_replaceM rfl (fun reading _ => ends_underlined reading)
      fun first second alike => by rw [Match.get_eq alike id, Match.get_eq alike id]
  exact underlined.bind (Pattern.settles_replaceM rfl (fun reading _ => ends_marked reading)
    fun first second alike => by rw [Match.get_eq alike id, Match.get_eq alike id])

theorem settles_renderRules : Settles Heading.renderRules :=
  Pattern.settles_replaceM rfl (fun _ => ends_rule) fun _ _ _ => rfl

end Heading

namespace CodeBlock

theorem outdent_append_newline (text : Text) : outdent (text ++ ['\n']) = outdent text ++ ['\n'] :=
  Pattern.replace_append_newline rfl (fun _ _ => blind_indentation.at rfl _) fun _ _ _ => rfl

theorem element_append_newline (lines : Text) : element (lines ++ ['\n']) = element lines := by
  have code : Codec.standard.protect (Codec.standard.restore (outdent (lines ++ ['\n']))) =
      Codec.standard.protect (Codec.standard.restore (outdent lines)) ++ ['\n'] := by
    rw [outdent_append_newline, Codec.restore_append_newline, Codec.protect_append_newline]
  unfold element
  dsimp only
  rw [code, Text.trim_append_newline]

theorem settles_render : Settles CodeBlock.render := by
  refine Pattern.settles_replaceM rfl (fun _ => ends_codeBlock) fun first second alike => ?_
  have same : element (second.get .code) = element (first.get .code) :=
    Match.apply_get alike (fun text _ _ => element_append_newline text) .code
  rw [same]

end CodeBlock

namespace Quote

theorem settles_render {interior : Interior}
    (ignores : IgnoresFinalNewline (interior.blocks false)) : Settles (Quote.render interior) := by
  have blind : ∀ reading : Reading Empty, mark.BlindAt reading := blind_mark.at rfl
  have unmarked : IgnoresFinalNewline (element interior) := by
    intro lines ended
    rw [element, element, Pattern.replace_append_newline rfl (fun _ _ => blind _) fun _ _ _ => rfl,
      ignores _ (Pattern.ended_replace rfl blind (fun _ _ _ => rfl) ended)]
  refine Pattern.settles_replaceM rfl (fun _ => ends_quote) fun first second alike => ?_
  have same : element interior (second.get .lines) = element interior (first.get .lines) :=
    Match.apply_get alike (fun text _ ended => unmarked text ended) .lines
  rw [same]

end Quote

namespace Listing

theorem settles_render (setting : Setting) (interior : Interior) :
    Settles (Listing.render setting interior false) := by
  refine Pattern.settles_replaceM rfl (fun _ => ends_topList) fun first second alike => ?_
  have spaced : evenlySpaced (second.get .list) = evenlySpaced (first.get .list) :=
    Match.apply_get alike (fun _ => evenlySpaced_append_newline) .list
  have marker : second.get .marker = first.get .marker := Match.get_eq alike (by decide)
  rw [listElement, listElement, spaced, marker]

end Listing

namespace Block

variable {setting : Setting} {interior : Interior}

theorem ignores_renderParagraphs (references : ReferenceTable) :
    IgnoresFinalNewline (renderParagraphs references) := by
  intro text _
  rw [renderParagraphs, renderParagraphs, Text.trim_append_newline]

theorem settles_protectHtml : Settles Render.protectHtml := by
  have replaced : Render.protectHtml = Html.htmlBlock.replaceM fun found =>
      Render.setAside (found.get .element) := funext Render.protectHtml_eq
  rw [replaced]
  exact Pattern.settles_replaceM rfl (fun _ => Html.ends_htmlBlock) fun first second alike => by
    rw [Match.get_eq alike id]

/-- The passes over one level, one after the other. -/
theorem ignores_renderLevel (ignores : IgnoresFinalNewline (interior.blocks false)) :
    IgnoresFinalNewline (renderLevel setting interior false) := by
  have blocks := (Heading.settles_render setting.references).bind Heading.settles_renderRules
    |>.bind (Listing.settles_render setting interior) |>.bind CodeBlock.settles_render
    |>.bind (Quote.settles_render ignores) |>.bind settles_protectHtml
  have all := blocks _ _ (ignores_renderParagraphs setting.references)
  intro text ended
  have := all text ended
  simp only [bind_assoc] at this
  exact this

/-- The levels of a rendering, from the innermost outwards. -/
theorem ignores_blocks (setting : Setting) (left : Nat) :
    IgnoresFinalNewline ((Block.interior setting left).blocks false) := by
  induction left with
  | zero => exact fun _ _ => rfl
  | succ left ih =>
    intro text ended
    exact congrArg (Render.nested setting.limit) (ignores_renderLevel ih text ended)

end Block

end Markdown
