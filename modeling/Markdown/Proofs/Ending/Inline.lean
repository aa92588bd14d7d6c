import Markdown.Proofs.Ending.Blocks
import Markdown.Proofs.Markup.Passes
import Markdown.Proofs.Pattern.Reads
import Markdown.Proofs.Pattern.Slots

set_option autoImplicit false

namespace Markdown

namespace Text

/-- A text whose last character is no white space. -/
def Inked (text : Text) : Prop :=
  ∃ c ∈ text.getLast?, Unicode.isSpace c = false

theorem inked_concat (text : Text) {c : Char} (ink : Unicode.isSpace c = false) :
    Inked (text ++ [c]) :=
  ⟨c, List.getLast?_concat, ink⟩

namespace Inked

variable {before middle part after text : Text}

theorem append (inked : text.Inked) (front : Text) : Inked (front ++ text) := by
  obtain ⟨c, last, ink⟩ := inked
  exact ⟨c, by rw [List.getLast?_append, Option.mem_def.1 last]; rfl, ink⟩

theorem of_append (inked : Inked (before ++ after)) (filled : after ≠ []) : after.Inked := by
  rwa [Inked, List.getLast?_append_of_ne_nil _ filled] at inked

/-- A part may give way to another with such an end. -/
theorem swap (inked : Inked (before ++ (middle ++ after))) (drawn : part.Inked) :
    Inked (before ++ (part ++ after)) := by
  cases after with
  | nil => exact .append (by rwa [List.append_nil]) before
  | cons c after =>
    rw [← List.append_assoc] at inked
    exact (inked.of_append (List.cons_ne_nil c after)).append part |>.append before

theorem of_tag (front : Text) {tag : Text} (closed : tag.getLast? = some '>') :
    Inked (front ++ tag) :=
  .append ⟨'>', closed, by decide⟩ front

theorem trimEnd_append_newlines (inked : text.Inked) (count : Nat) :
    (text ++ List.replicate count '\n').trimEnd isNewline = text := by
  have newlines : ∀ c ∈ List.replicate count '\n', isNewline c = true := fun c member => by
    rw [List.eq_of_mem_replicate member]
    rfl
  obtain ⟨c, last, ink⟩ := inked
  obtain ⟨front, rfl⟩ := List.getLast?_eq_some_iff.1 last
  have other : ¬ isNewline c = true := fun newline => by
    rw [eq_of_beq newline] at ink
    exact absurd ink (by decide)
  rw [trimEnd, List.reverse_append, List.reverse_replicate, List.dropWhile_append_of_pos newlines,
    List.reverse_concat, List.dropWhile_cons_of_neg other, ← List.reverse_concat,
    List.reverse_reverse]

end Inked

end Text

/-- The pass leaves a newline at the end of its text there and does nothing about it. -/
def SparesNewlines (pass : Text → Text) : Prop :=
  ∀ text, pass (text ++ ['\n']) = pass text ++ ['\n']

namespace SparesNewlines

variable {first second : Text → Text}

theorem comp (late : SparesNewlines second) (early : SparesNewlines first) :
    SparesNewlines fun text => second (first text) := by
  intro text
  dsimp only
  rw [early, late]

theorem append_newlines (spares : SparesNewlines first) (text : Text) (count : Nat) :
    first (text ++ List.replicate count '\n') = first text ++ List.replicate count '\n' := by
  induction count with
  | zero => rw [List.replicate_zero, List.append_nil, List.append_nil]
  | succ count ih => rw [List.replicate_succ', ← List.append_assoc, spares, ih, List.append_assoc]

end SparesNewlines

namespace Pattern

variable {slot : Type}

/-- A pattern that ends in a line spares newlines. -/
theorem Blind.spares [DecidableEq slot] {pattern : Pattern slot} (blind : pattern.Blind) (stops : pattern.stopsInLine = true)
    (takes : pattern.takesSome = true) {replacement : Match slot → Text}
    (same : ∀ (found : Match slot) (passed : Text), found.start.Passes passed found.stop.cursor →
      replacement found.extended = replacement found) :
    SparesNewlines (pattern.replace replacement) :=
  fun _ => replace_append_newline takes (fun _ _ => blind.at stops _) same

end Pattern

open Pattern

namespace CodeSpan

/-- A code span ends in ticks, so it does not end with the newline. -/
theorem after_ne_nil_of_codeSpan {reading later : Reading Part}
    (member : later ∈ codeSpan.outcomes reading.extended) : later.cursor.after ≠ [] := by
  rw [codeSpan, outcomes_sequence_cut 2 (by decide)] at member
  obtain ⟨opened, front, behind⟩ := List.mem_flatMap.1 member
  rw [outcomes_sequence_cut 5 (by decide)] at behind
  obtain ⟨closing, inside, last⟩ := List.mem_flatMap.1 behind
  have whole : closing.cursor.whole = reading.extended.cursor.whole :=
    (whole_of_mem_outcomes inside).trans (whole_of_mem_outcomes front)
  obtain ⟨started, -, caught⟩ := List.mem_flatMap.1 front
  obtain ⟨inner, ticked, rfl⟩ := List.mem_map.1 caught
  obtain ⟨ticks, ⟨some, inClass⟩, passes⟩ := exists_passes_of_reads (fun _ => reads_many1) ticked
  have kept : closing.get? .ticks = Option.some ticks := by
    rw [get?_of_mem_outcomes (by rfl) inside, Reading.get?_cons, if_pos rfl, passes.upTo_eq]
  obtain ⟨stop, again, place⟩ := List.mem_flatMap.1 last
  obtain ⟨closes, -⟩ := (mem_outcomes_same_iff kept).1 again
  obtain ⟨rfl, -⟩ := mem_outcomes_place_iff.1 place
  intro ended
  have newline : ticks.getLast? = Option.some '\n' := by
    have ends := congrArg List.getLast? whole
    rw [Cursor.whole, closes.after, ended, List.append_nil,
      List.getLast?_append_of_ne_nil _ some] at ends
    rw [ends, Cursor.whole, Reading.extended, Cursor.extended, ← List.append_assoc,
      List.getLast?_concat]
  exact absurd (inClass _ (List.mem_of_getLast? newline)) (by decide)

theorem blind_codeSpan : codeSpan.Blind := by
  have apart : (Pattern.notBefore isTick : Pattern Part).Blind := blind_notBefore (by decide)
  simp [codeSpan, apart]

theorem spares_render : SparesNewlines render :=
  fun _ => replace_append_newline rfl
    (fun _ _ => blind_codeSpan.at_of_inside fun _ => after_ne_nil_of_codeSpan) fun _ _ _ => rfl

end CodeSpan

namespace Link

theorem blind_textPart : textPart.Blind := by
  have rounds : (Pattern.rounds (.sequence
      [.char '[', .many notBracket, .char ']', .many notBracket]) : Pattern Part).Blind :=
    blind_rounds (by simp) rfl
  simp [textPart, linkText, rounds]

theorem blind_imagePart : imagePart.Blind := by
  simp [imagePart]

theorem blind_labelPart : labelPart.Blind := by
  simp [labelPart]

theorem blind_target : target.Blind := by
  simp [target, titlePart]

theorem blind_autolink : autolink.Blind := by
  have word : ∀ text : Text, (wordInAnyCase text).Blind :=
    fun text => blind_sequence (List.forall_mem_map.2 fun _ _ => trivial)
  simp [autolink, scheme, word]

theorem byReference_extended (references : ReferenceTable) (draw : Text → Reference → Text)
    (found : Match Part) (passed : Text) (passes : found.start.Passes passed found.stop.cursor) :
    byReference references draw found.extended = byReference references draw found := by
  have same : referenceOf references found.extended = referenceOf references found := rfl
  rw [byReference, byReference, same, Match.text_extended passes]
  rfl

theorem spares_renderLinks (references : ReferenceTable) :
    SparesNewlines (renderLinks references) :=
  (blind_autolink.spares rfl rfl fun _ _ _ => rfl).comp
    (((show inlineLink.Blind from ⟨blind_textPart, blind_target⟩).spares rfl rfl fun _ _ _ => rfl).comp
      ((show referenceLink.Blind from ⟨blind_textPart, blind_labelPart⟩).spares rfl rfl
        (byReference_extended references anchor)))

theorem spares_renderImages (references : ReferenceTable) :
    SparesNewlines (renderImages references) :=
  ((show inlineImage.Blind from ⟨blind_imagePart, blind_target⟩).spares rfl rfl fun _ _ _ => rfl).comp
    ((show referenceImage.Blind from ⟨blind_imagePart, blind_labelPart⟩).spares rfl rfl
      (byReference_extended references image))

end Link

namespace Emphasis

theorem blind_between (delimiter : Text) {content : Pattern Part} (blind : content.Blind) :
    (between delimiter content).Blind := by
  have ahead : (Pattern.before notSpace : Pattern Part).Blind := blind_before (by decide)
  simp [between, ahead, blind]

theorem blind_apartFromWords {pattern : Pattern Part} (blind : pattern.Blind) :
    (apartFromWords pattern).Blind := by
  have apart : (Pattern.notBefore Unicode.isWord : Pattern Part).Blind :=
    blind_notBefore (by decide)
  simp [apartFromWords, apart, blind]

theorem spares_render : SparesNewlines render := by
  have strong : strongContent.Blind := by simp [strongContent]
  have plain : (Pattern.few1 anything : Pattern Part).Blind := by simp
  exact ((blind_apartFromWords (blind_between _ plain)).spares rfl rfl fun _ _ _ => rfl).comp
    (((blind_between _ plain).spares rfl rfl fun _ _ _ => rfl).comp
      (((blind_apartFromWords (blind_between _ strong)).spares rfl rfl fun _ _ _ => rfl).comp
        ((blind_between _ strong).spares rfl rfl fun _ _ _ => rfl)))

end Emphasis

namespace Inline

/-- Without a space in front of it the newline at the end is no break. -/
theorem renderBreaks_append_newline {text : Text} (unspaced : ∀ c ∈ text.getLast?, c ≠ ' ') :
    renderBreaks (text ++ ['\n']) = renderBreaks text ++ ['\n'] := by
  have blind : hardBreak.Blind := by simp [hardBreak]
  refine replace_append_newline rfl (fun cursor whole => blind.at_of_inside ?_) fun _ _ _ => rfl
  intro later member ended
  obtain ⟨first, space, behind⟩ := List.mem_flatMap.1 member
  obtain ⟨second, spaces, newline⟩ := List.mem_flatMap.1 behind
  obtain ⟨run, ⟨some, inClass⟩, passes⟩ := exists_passes_of_reads (fun _ => reads_many1) spaces
  have shown : cursor.after ++ ['\n'] = [' '] ++ run ++ ['\n'] := by
    have front := ((passes_of_mem_char space).1.trans passes).after
    rwa [(passes_of_mem_char newline).1.after, ended] at front
  have last : text.getLast? = run.getLast? := by
    rw [← whole, Cursor.whole, List.append_cancel_right shown,
      List.getLast?_append_of_ne_nil _ (List.append_ne_nil_of_right_ne_nil _ some),
      List.getLast?_append_of_ne_nil _ some]
  obtain ⟨c, here⟩ := Option.ne_none_iff_exists'.1 (mt List.getLast?_eq_none_iff.1 some)
  exact unspaced c (last.trans here) (eq_of_beq (inClass c (List.mem_of_getLast? here)))

theorem renderBreaks_append_newlines {text : Text} (inked : text.Inked) (count : Nat) :
    renderBreaks (text ++ List.replicate count '\n') =
      renderBreaks text ++ List.replicate count '\n' := by
  induction count with
  | zero => rw [List.replicate_zero, List.append_nil, List.append_nil]
  | succ count ih =>
    have unspaced : ∀ c ∈ (text ++ List.replicate count '\n').getLast?, c ≠ ' ' := by
      rintro c last rfl
      cases count with
      | zero =>
        obtain ⟨c, here, ink⟩ := inked
        rw [List.replicate_zero, List.append_nil, Option.mem_def.1 here] at last
        rw [Option.some.inj last] at ink
        exact absurd ink (by decide)
      | succ count =>
        rw [List.replicate_succ', ← List.append_assoc, List.getLast?_concat] at last
        cases last
    rw [List.replicate_succ', ← List.append_assoc, renderBreaks_append_newline unspaced, ih,
      List.append_assoc]

end Inline

namespace Codec

theorem normalize_newlines (count : Nat) :
    standard.normalize (List.replicate count '\n') = List.replicate count '\n' := by
  have only : ∀ c ∈ List.replicate count '\n', c = '\n' := fun _ => List.eq_of_mem_replicate
  have carriage : '\r' ∉ List.replicate count '\n' := fun member =>
    absurd (only _ member) (by decide)
  rw [normalize_of_unmarked fun c member => by rw [only c member]; rfl,
    Sheet.unifyNewlines_eq_self carriage]

theorem inked_cover {c : Char} (covered : c ∈ Escape.alphabet ++ Escape.markers) :
    Text.Inked (standard.cover c) := by
  rw [cover_eq covered]
  exact Text.inked_concat (Escape.opening :: 'e' :: Digest.md5 [c]) (by decide)

variable {text : Text} (inked : text.Inked)
include inked

theorem inked_normalize (carriage : '\r' ∉ text) : (standard.normalize text).Inked := by
  obtain ⟨c, last, ink⟩ := inked
  obtain ⟨front, rfl⟩ := List.getLast?_eq_some_iff.1 last
  obtain ⟨early, late⟩ := not_or.1 (mt List.mem_append.2 carriage)
  rw [normalize_append early]
  apply Text.Inked.append
  rw [normalize, Sheet.unifyNewlines_eq_self late, List.flatMap_singleton]
  split
  · next marker => exact inked_cover (mem_markers_of_isMarker marker)
  · exact ⟨c, rfl, ink⟩

theorem inked_encodeEscapes : (standard.encodeEscapes text).Inked := by
  fun_induction encodeEscapes standard text with
  | case1 c rest escapable ih =>
    have covered := List.mem_append_left Escape.markers (List.contains_iff_mem.1 escapable)
    cases rest with
    | nil =>
      rw [encodeEscapes, List.append_nil]
      exact inked_cover covered
    | cons d rest =>
      exact (ih (@Text.Inked.of_append ['\\', c] _ inked (List.cons_ne_nil d rest))).append _
  | case2 c rest refused ih =>
    exact (ih (@Text.Inked.of_append ['\\'] _ inked (List.cons_ne_nil c rest))).append ['\\']
  | case3 c rest plain ih =>
    cases rest with
    | nil => exact inked
    | cons d rest =>
      exact (ih (@Text.Inked.of_append [c] _ inked (List.cons_ne_nil d rest))).append [c]
  | case4 => exact inked

end Codec

namespace Inline

open Markup

section

variable {text : Text} (inked : text.Inked)
include inked

theorem inked_codeSpans : (CodeSpan.render text).Inked :=
  replace_preserves inked fun _ _ _ _ here => here.swap (.of_tag _ (by decide))

/-- A usage by reference gives way to a tag or stays as it is. -/
theorem inked_byReference {pattern : Pattern Link.Part} {draw : Text → Reference → Text}
    (drawn : ∀ text reference, (draw text reference).Inked) (references : ReferenceTable) :
    (pattern.replace (Link.byReference references draw) text).Inked := by
  refine replace_preserves inked fun m _ before after here => ?_
  rw [Link.byReference]
  split
  · exact here.swap (drawn _ _)
  · exact here

theorem inked_renderLinks (references : ReferenceTable) :
    (Link.renderLinks references text).Inked := by
  have drawn : ∀ text reference, (Link.anchor text reference).Inked :=
    fun _ _ => .of_tag _ (by decide)
  have byReference := @inked_byReference _ inked Link.referenceLink _ drawn references
  have byTarget : (Link.inlineLink.replace (Link.byTarget Link.anchor) _).Inked :=
    replace_preserves byReference fun _ _ _ _ here => here.swap (drawn _ _)
  exact replace_preserves byTarget fun _ _ _ _ here => here.swap (.of_tag _ (by decide))

theorem inked_renderImages (references : ReferenceTable) :
    (Link.renderImages references text).Inked := by
  have drawn : ∀ text reference, (Link.image text reference).Inked :=
    fun _ _ => .of_tag _ (by decide)
  have byReference := @inked_byReference _ inked Link.referenceImage _ drawn references
  exact replace_preserves byReference fun _ _ _ _ here => here.swap (drawn _ _)

theorem inked_emphasis : (Emphasis.render text).Inked := by
  refine emphasis_preserves (fun mark _ before content after here => ?_) inked
  rw [← List.append_assoc content, ← List.append_assoc mark.1] at here
  exact here.swap (.of_tag _ List.getLast?_concat)

/-- A break at the end would have a newline there. -/
theorem inked_finish : Text.Inked (Codec.standard.decodeMarkers (Codec.standard.unescape
    (Codec.standard.unescape (renderBreaks text)))) := by
  have characters : ∀ c ∈ Escape.alphabet ++ Escape.markers, Unicode.isSpace c = false := by decide
  refine finish_preserves (fun count before after here => ?_)
    (fun c member before after here => here.swap ⟨c, rfl, characters c member⟩) inked
  cases after with
  | nil =>
    obtain ⟨c, last, ink⟩ := here
    rw [List.append_nil, ← List.append_assoc, List.getLast?_concat] at last
    rw [← Option.some.inj last] at ink
    exact absurd ink (by decide)
  | cons c after =>
    rw [← List.append_assoc] at here ⊢
    exact (here.of_append (List.cons_ne_nil c after)).append _

end

/-- The passes in front of the breaks leave newlines alone. -/
theorem spares_emphasis (references : ReferenceTable) : SparesNewlines fun text =>
    Emphasis.render (Link.renderImages references (Link.renderLinks references
      (CodeSpan.render text))) :=
  Emphasis.spares_render.comp ((Link.spares_renderImages references).comp
    ((Link.spares_renderLinks references).comp CodeSpan.spares_render))

theorem spares_decoding : SparesNewlines fun text =>
    Codec.standard.decodeMarkers (Codec.standard.unescape (Codec.standard.unescape text)) := by
  have unescape : SparesNewlines Codec.standard.unescape :=
    fun text => Codec.standard.reveal_append_newline text _
  have markers : SparesNewlines Codec.standard.decodeMarkers :=
    Escape.blind_tokenShape.spares rfl rfl fun found passed passes => by
      rw [Match.text_extended passes]
  exact markers.comp (unescape.comp unescape)

section

variable {text : Text} (inked : text.Inked) (carriage : '\r' ∉ text) (references : ReferenceTable)
include inked carriage

theorem inked_passes : (Emphasis.render (Link.renderImages references (Link.renderLinks references
    (CodeSpan.render (Codec.standard.encodeEscapes (Codec.standard.normalize text)))))).Inked :=
  inked_emphasis (inked_renderImages (inked_renderLinks (inked_codeSpans
    (Codec.inked_encodeEscapes (Codec.inked_normalize inked carriage))) references) references)

/-- What comes of a text without white space at its end has none there. -/
theorem inked_convert : (convert references text).Inked :=
  inked_finish (inked_passes inked carriage references)

/-- Newlines behind such a text stay behind what comes of it. -/
theorem convert_append_newlines (count : Nat) :
    convert references (text ++ List.replicate count '\n') =
      convert references text ++ List.replicate count '\n' := by
  have escaped : SparesNewlines Codec.standard.encodeEscapes := Codec.encodeEscapes_append_newline
  have emphasized := (spares_emphasis references).append_newlines
    (Codec.standard.encodeEscapes (Codec.standard.normalize text)) count
  have broken := renderBreaks_append_newlines (inked_passes inked carriage references) count
  rw [convert, convert, Codec.normalize_append carriage, Codec.normalize_newlines,
    escaped.append_newlines, render, render, emphasized, broken]
  exact spares_decoding.append_newlines _ count

end

end Inline

end Markdown
