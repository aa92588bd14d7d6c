import Markdown.Proofs.Command.Course
import Mathlib.Data.List.Basic

set_option autoImplicit false

namespace Markdown

namespace WideText

/-- No surrogate is in the text. -/
def Plain (text : WideText) : Prop :=
  ∀ codePoint ∈ text, codePoint.isSurrogate = false

/-- The characters of a text without its surrogates. -/
def chars (text : WideText) : Text :=
  text.filterMap CodePoint.char?

theorem plain_nil : Plain [] := List.forall_mem_nil _

theorem Plain.of_subset {text part : WideText} (plain : text.Plain) (inside : part ⊆ text) :
    part.Plain :=
  fun codePoint member => plain codePoint (inside member)

theorem plain_wide (text : Text) : text.wide.Plain := by
  intro codePoint member
  obtain ⟨c, -, rfl⟩ := List.mem_map.1 member
  rfl

theorem Plain.wide_chars {text : WideText} (plain : text.Plain) : text.chars.wide = text := by
  induction text with
  | nil => rfl
  | cons codePoint rest ih =>
    obtain ⟨first, later⟩ := List.forall_mem_cons.1 plain
    cases codePoint with
    | char c => exact congrArg (CodePoint.char c :: ·) (ih later)
    | surrogate code => cases first

theorem toText_wide (text : Text) : text.wide.toText = .ok text := by
  have every : text.wide.findIdx? (fun codePoint => (codePoint.char?.map ([·])).isNone) = none :=
    List.findIdx?_eq_none_iff.2 fun codePoint member => by
      obtain ⟨c, -, rfl⟩ := List.mem_map.1 member
      rfl
  rw [toText, encode, every]
  dsimp only
  rw [Text.wide, List.flatMap_map]
  exact congrArg Except.ok (List.flatMap_singleton' text)

theorem mapRuns_wide (rewrite : Text → Text) (text : Text) :
    mapRuns rewrite text.wide = (rewrite text).wide := by
  have behind : ∀ run : Text, mapRuns.go rewrite run text.wide =
      (rewrite (run.reverse ++ text)).wide := by
    induction text with
    | nil => intro run; rw [List.append_nil]; rfl
    | cons c rest ih =>
      intro run
      refine (ih (c :: run)).trans ?_
      rw [List.reverse_cons, List.append_assoc]
      rfl
  exact behind []

end WideText

@[simp] theorem Text.wide_append (first second : Text) :
    Text.wide (first ++ second) = first.wide ++ second.wide :=
  List.map_append

namespace Script

@[simp] theorem ofText_codePoints (text : Text) : (ofText text : WideText) = text.wide := rfl

@[simp] theorem escapeAttribute_chars (text : Text) :
    escapeAttribute text = Html.escapeAttribute text := rfl

@[simp] theorem escape_wide (text : Text) : escape text.wide = Text.wide (Html.escape text) :=
  WideText.mapRuns_wide Html.escape text

@[simp] theorem escapeAttribute_wide (text : Text) :
    escapeAttribute text.wide = Text.wide (Html.escapeAttribute text) :=
  WideText.mapRuns_wide Html.escapeAttribute text

end Script

namespace PageHead

/-- A head of characters as one of code points. -/
def wide (head : PageHead Char) : PageHead CodePoint where
  title := head.title.map Text.wide
  language := head.language.map Text.wide
  styles := head.styles.map Text.wide
  metaTags := head.metaTags.map (Prod.map Text.wide Text.wide)

variable (head : PageHead Char)

theorem pageTag_wide : head.wide.pageTag = Text.wide head.pageTag := by
  obtain ⟨title, language, styles, metaTags⟩ := head
  obtain _ | _ | ⟨c, rest⟩ := language
  · rfl
  · rfl
  · change Script.ofText _ ++ Script.escapeAttribute (Text.wide (c :: rest)) ++ Script.ofText _ =
      Text.wide (Script.ofText _ ++ Script.escapeAttribute (c :: rest) ++ Script.ofText _)
    simp only [Script.ofText_codePoints, Script.ofText_chars, Script.escapeAttribute_wide,
      Script.escapeAttribute_chars, Text.wide_append]

theorem titleElement_wide : head.wide.titleElement = Text.wide head.titleElement := by
  obtain ⟨title, language, styles, metaTags⟩ := head
  obtain _ | _ | ⟨c, rest⟩ := title
  · rfl
  · rfl
  · change Script.ofText _ ++ Script.escape (Text.wide (c :: rest)) ++ Script.ofText _ =
      Text.wide (Script.ofText _ ++ Script.escape (c :: rest) ++ Script.ofText _)
    simp only [Script.ofText_codePoints, Script.ofText_chars, Script.escape_wide,
      Script.escape_chars, Text.wide_append]

theorem metaTag_wide (name content : Text) :
    metaTag name.wide content.wide = Text.wide (metaTag name content) := by
  simp only [metaTag, Script.ofText_codePoints, Script.ofText_chars, Script.escapeAttribute_wide,
    Script.escapeAttribute_chars, Text.wide_append]

theorem styleLink_wide (address : Text) :
    styleLink address.wide = Text.wide (styleLink address) := by
  simp only [styleLink, Script.ofText_codePoints, Script.ofText_chars,
    Script.escapeAttribute_wide, Script.escapeAttribute_chars, Text.wide_append]

theorem render_wide : head.wide.render = Text.wide head.render := by
  have metaTags : (head.wide.metaTags.flatMap fun tag => metaTag tag.1 tag.2) =
      Text.wide (head.metaTags.flatMap fun tag => metaTag tag.1 tag.2) := by
    rw [wide, List.flatMap_map, Text.wide, List.map_flatMap]
    exact List.flatMap_congr fun _ _ => metaTag_wide _ _
  have styles : head.wide.styles.flatMap styleLink = Text.wide (head.styles.flatMap styleLink) := by
    rw [wide, List.flatMap_map, Text.wide, List.map_flatMap]
    exact List.flatMap_congr fun _ _ => styleLink_wide _
  rw [render, render, pageTag_wide, titleElement_wide, metaTags, styles]
  simp only [Script.ofText_codePoints, Script.ofText_chars, Text.wide_append]

end PageHead

/-- A page is made of characters if its head is. -/
theorem renderPage_wide (head : PageHead Char) (body : Text) :
    renderPage head.wide body = Text.wide (renderPage head body) := by
  rw [renderPage, renderPage, PageHead.render_wide]
  simp only [Script.ofText_codePoints, Script.ofText_chars, Text.wide_append]

namespace PageHead

structure Plain (head : PageHead CodePoint) : Prop where
  title : ∀ text ∈ head.title, WideText.Plain text
  language : ∀ text ∈ head.language, WideText.Plain text
  styles : ∀ text ∈ head.styles, WideText.Plain text
  metaTags : ∀ tag ∈ head.metaTags, WideText.Plain tag.1 ∧ WideText.Plain tag.2

def chars (head : PageHead CodePoint) : PageHead Char where
  title := head.title.map WideText.chars
  language := head.language.map WideText.chars
  styles := head.styles.map WideText.chars
  metaTags := head.metaTags.map (Prod.map WideText.chars WideText.chars)

theorem Plain.wide_chars {head : PageHead CodePoint} (plain : head.Plain) :
    head.chars.wide = head := by
  have value : ∀ text : Option WideText, (∀ part ∈ text, WideText.Plain part) →
      (text.map WideText.chars).map Text.wide = text := by
    intro text each
    cases text with
    | none => rfl
    | some part => exact congrArg some (each part rfl).wide_chars
  have styles : (head.styles.map WideText.chars).map Text.wide = head.styles := by
    rw [List.map_map]
    exact (List.map_congr_left fun style member => (plain.styles style member).wide_chars).trans
      (List.map_id _)
  have metaTags : (head.metaTags.map (Prod.map WideText.chars WideText.chars)).map
      (Prod.map Text.wide Text.wide) = head.metaTags := by
    rw [List.map_map]
    exact (List.map_congr_left fun tag member => Prod.ext (plain.metaTags tag member).1.wide_chars
      (plain.metaTags tag member).2.wide_chars).trans (List.map_id _)
  rw [wide, chars]
  dsimp only
  rw [value _ plain.title, value _ plain.language, styles, metaTags]

end PageHead

namespace Argument

/-- No surrogate is in what the argument gives to the command. -/
def Plain : Argument → Prop
  | .value text => WideText.Plain text
  | .option _ _ attached => ∀ text ∈ attached, WideText.Plain text
  | .unknown text => WideText.Plain text
  | .divider => True

variable {argument : WideText} {result : Argument}

theorem name_subset {name : WideText} {attached : Option WideText}
    (split : splitValue argument = (name, attached)) : name ⊆ argument := by
  rw [splitValue] at split
  split at split <;> exact (Prod.mk.inj split).1 ▸ List.takeWhile_subset _

theorem attached_subset {name attached : WideText}
    (split : splitValue argument = (name, some attached)) : attached ⊆ argument := by
  rw [splitValue] at split
  split at split
  · next c rest dropped =>
    obtain rfl : rest = attached := Option.some.inj (Prod.mk.inj split).2
    exact fun codePoint member =>
      List.mem_of_mem_drop (dropped ▸ List.mem_cons_of_mem c member)
  · cases split

theorem candidates_subset {candidate : Text × OptionName × Option WideText}
    (member : candidate ∈ candidates argument) : ∀ text ∈ candidate.2.2, text ⊆ argument := by
  rw [candidates] at member
  split at member
  · cases split : splitValue argument with
    | mk start attached =>
      rw [split] at member
      obtain ⟨entry, -, rfl⟩ := List.mem_map.1 member
      rintro text rfl
      exact attached_subset split
  · obtain ⟨entry, -, rfl⟩ := List.mem_map.1 member
    intro text same
    obtain rfl := Option.some.inj same
    exact List.drop_subset 2 argument

theorem plain_ofUnspelled (plain : argument.Plain) (done : ofUnspelled argument = .ok result) :
    result.Plain := by
  rw [ofUnspelled] at done
  split at done
  · next spelling name attached found =>
    obtain rfl := Except.ok.inj done
    exact fun text same =>
      plain.of_subset (candidates_subset (found ▸ List.mem_singleton_self _) text same)
  · split at done
    · obtain rfl := Except.ok.inj done
      exact plain
    · obtain rfl := Except.ok.inj done
      exact plain
  · cases done

theorem plain_classify (plain : argument.Plain) (done : classify argument = .ok result) :
    result.Plain := by
  rw [classify.eq_def] at done
  split at done
  · split at done
    · obtain rfl := Except.ok.inj done
      exact fun text impossible => absurd impossible (Option.not_mem_none text)
    · split at done
      · next spelling attached split =>
        split at done
        · obtain rfl := Except.ok.inj done
          intro text same
          obtain rfl := Option.some.inj same
          exact plain.of_subset (attached_subset split)
        · exact plain_ofUnspelled plain done
      · exact plain_ofUnspelled plain done
  · obtain rfl := Except.ok.inj done
    exact plain

theorem plain_classifyAll {arguments : List WideText} {results : List Argument}
    (plain : ∀ argument ∈ arguments, argument.Plain)
    (done : classifyAll arguments = .ok results) : ∀ result ∈ results, result.Plain := by
  induction arguments generalizing results with
  | nil =>
    cases done
    exact List.forall_mem_nil _
  | cons argument rest ih =>
    obtain ⟨here, later⟩ := List.forall_mem_cons.1 plain
    rw [classifyAll] at done
    split at done
    · cases done
      exact List.forall_mem_cons.2 ⟨trivial, List.forall_mem_map.2 later⟩
    · cases first : classify argument with
      | error error =>
        rw [first] at done
        cases done
      | ok kind =>
        cases more : classifyAll rest with
        | error error =>
          rw [first, more] at done
          cases done
        | ok kinds =>
          rw [first, more] at done
          cases done
          exact List.forall_mem_cons.2 ⟨plain_classify here first, ih later more⟩

def PlainOptions (options : List (OptionName × Option WideText)) : Prop :=
  ∀ option ∈ options, ∀ text ∈ option.2, WideText.Plain text

theorem plainOptions_singleton {name : OptionName} {given : Option WideText}
    (plain : ∀ text ∈ given, WideText.Plain text) : PlainOptions [(name, given)] :=
  List.forall_mem_singleton.2 plain

theorem PlainOptions.cons_none {name : OptionName}
    {options : List (OptionName × Option WideText)} (plain : PlainOptions options) :
    PlainOptions ((name, none) :: options) :=
  List.forall_mem_cons.2 ⟨fun text impossible => absurd impossible (Option.not_mem_none text), plain⟩

theorem plainOptions_unfold {name : OptionName} {short : Bool} {text : WideText}
    {options : List (OptionName × Option WideText)} (plain : text.Plain)
    (done : unfold name short text = .ok options) : PlainOptions options := by
  have whole : ∀ {text : WideText}, text.Plain → ∀ part ∈ some text, WideText.Plain part :=
    fun plain part same => Option.some.inj same ▸ plain
  induction text generalizing name short options with
  | nil =>
    rw [unfold] at done
    split at done
    · obtain rfl := Except.ok.inj done
      exact plainOptions_singleton (whole plain)
    · cases done
  | cons c rest ih =>
    rw [unfold] at done
    split at done
    · obtain rfl := Except.ok.inj done
      exact plainOptions_singleton (whole plain)
    · split at done
      · split at done
        · cases done
        · next next found =>
          split at done
          · obtain rfl := Except.ok.inj done
            exact (plainOptions_singleton fun text impossible =>
              absurd impossible (Option.not_mem_none text)).cons_none
          · cases later : unfold next true rest with
            | error error =>
              rw [later] at done
              cases done
            | ok others =>
              rw [later] at done
              obtain rfl := Except.ok.inj done
              exact (ih (List.forall_mem_cons.1 plain).2 later).cons_none
      · cases done

end Argument

/-- No surrogate is in what the head of a page is made of. -/
structure Given.Plain (given : Given) : Prop where
  title : ∀ text, given.title = some (.value text) → text.Plain
  language : ∀ text, given.language = some (.value text) → text.Plain
  styles : ∀ text, .value text ∈ given.styles → text.Plain
  metaTags : ∀ text, .value text ∈ given.metaTags → text.Plain

namespace Intake

theorem plain_record {given later : Given} {name : OptionName} {text : WideText}
    (plain : given.Plain) (supplied : text.Plain)
    (done : record given name text = .ok (some later)) : later.Plain := by
  have whole : ∀ part, Supplied.ofText text = .value part → part.Plain := by
    intro part same
    rw [Supplied.ofText] at same
    split at same
    · cases same
    · obtain rfl := Supplied.value.inj same
      exact supplied
  have added : ∀ given : List (Supplied WideText),
      (∀ part, .value part ∈ given → WideText.Plain part) →
        ∀ part, .value part ∈ given ++ [Supplied.ofText text] → WideText.Plain part := by
    intro given before part member
    rcases List.mem_append.1 member with inside | last
    · exact before part inside
    · exact whole part (List.mem_singleton.1 last).symm
  cases name with
  | help => cases done
  | output | config | inlineOnly | standalone | verbose =>
    obtain rfl := Option.some.inj (Except.ok.inj done)
    exact ⟨plain.title, plain.language, plain.styles, plain.metaTags⟩
  | maxDepth =>
    change (depthOf .maxDepth (Supplied.ofText text)).map _ = _ at done
    cases read : depthOf .maxDepth (Supplied.ofText text) with
    | error error =>
      rw [read] at done
      cases done
    | ok depth =>
      rw [read] at done
      obtain rfl := Option.some.inj (Except.ok.inj done)
      exact ⟨plain.title, plain.language, plain.styles, plain.metaTags⟩
  | title =>
    obtain rfl := Option.some.inj (Except.ok.inj done)
    exact ⟨fun part same => whole part (Option.some.inj same), plain.language, plain.styles,
      plain.metaTags⟩
  | language =>
    obtain rfl := Option.some.inj (Except.ok.inj done)
    exact ⟨plain.title, fun part same => whole part (Option.some.inj same), plain.styles,
      plain.metaTags⟩
  | style =>
    obtain rfl := Option.some.inj (Except.ok.inj done)
    exact ⟨plain.title, plain.language, added _ plain.styles, plain.metaTags⟩
  | metaTag =>
    obtain rfl := Option.some.inj (Except.ok.inj done)
    exact ⟨plain.title, plain.language, plain.styles, added _ plain.metaTags⟩

theorem plain_recordAll {given later : Given} {options : List (OptionName × Option WideText)}
    (plain : given.Plain) (supplied : Argument.PlainOptions options)
    (done : recordAll given options = .ok (some later)) : later.Plain := by
  induction options generalizing given with
  | nil =>
    obtain rfl := Option.some.inj (Except.ok.inj done)
    exact plain
  | cons option rest ih =>
    obtain ⟨name, value⟩ := option
    obtain ⟨here, more⟩ := List.forall_mem_cons.1 supplied
    have text : WideText.Plain (value.getD []) := by
      cases value with
      | none => exact WideText.plain_nil
      | some text => exact here text rfl
    rw [recordAll] at done
    cases first : record given name (value.getD []) with
    | error error =>
      rw [first] at done
      cases done
    | ok next =>
      rw [first] at done
      cases next with
      | none => cases done
      | some next => exact ih (plain_record plain text first) more done

theorem plain_optionsOf {name : OptionName} {short : Bool} {value : Option WideText}
    {options : List (OptionName × Option WideText)} (plain : ∀ text ∈ value, WideText.Plain text)
    (done : optionsOf name short value = .ok options) : Argument.PlainOptions options := by
  cases value with
  | none =>
    obtain rfl := Except.ok.inj done
    exact Argument.plainOptions_singleton plain
  | some text => exact Argument.plainOptions_unfold (plain text rfl) done

/-- What is recorded of an option, with the reading that goes on behind it. -/
theorem plain_recorded {intake : Intake} {given : Given} {rest : List Argument}
    {options : List (OptionName × Option WideText)} (plain : intake.given.Plain)
    (supplied : Argument.PlainOptions options)
    (onward : ∀ {later : Intake}, readAll rest later = .ok (.run given) →
      later.given.Plain → given.Plain)
    (done : (do
      match ← recordAll intake.given options with
      | some given => readAll rest { intake with given }
      | none => pure .help) = .ok (.run given)) : given.Plain := by
  cases recorded : recordAll intake.given options with
  | error error =>
    rw [recorded] at done
    cases done
  | ok changed =>
    rw [recorded] at done
    cases changed with
    | none => cases done
    | some changed => exact onward done (plain_recordAll plain supplied recorded)

theorem plain_readAll {arguments : List Argument} {intake : Intake} {given : Given}
    (supplied : ∀ argument ∈ arguments, argument.Plain) (plain : intake.given.Plain)
    (done : readAll arguments intake = .ok (.run given)) : given.Plain := by
  -- The reading passes one argument or two at a time, so the induction is on their number.
  induction size : arguments.length using Nat.strongRecOn generalizing arguments intake with
  | ind size ih =>
    subst size
    have onward : ∀ {passed rest : List Argument}, arguments = passed ++ rest → passed ≠ [] →
        ∀ {later : Intake}, readAll rest later = .ok (.run given) → later.given.Plain →
          given.Plain := by
      rintro passed rest rfl some later done kept
      refine ih rest.length ?_ (fun argument member =>
        supplied argument (List.mem_append_right passed member)) kept done rfl
      rw [List.length_append]
      exact Nat.lt_add_of_pos_left (List.length_pos_iff.2 some)
    have input : ∀ text, (intake.takeInput text).given.Plain := fun _ =>
      ⟨plain.title, plain.language, plain.styles, plain.metaTags⟩
    rw [readAll.eq_def] at done
    split at done
    · split at done
      · obtain rfl := Request.run.inj (Except.ok.inj done)
        exact plain
      · cases done
    · next text rest => exact @onward [.unknown text] rest rfl (by simp) _ done plain
    · next text rest =>
      have onward := @onward [.divider, .value text] rest rfl (by simp)
      split at done
      · exact onward done plain
      · exact onward done (input text)
    · next rest _ =>
      have onward := @onward [.divider] rest rfl (by simp)
      split at done
      · exact onward done plain
      · exact onward done plain
    · next text rest =>
      have onward := @onward [.value text, .divider] rest rfl (by simp)
      split at done
      · exact onward done plain
      · exact onward done (input text)
    · next text rest _ =>
      have onward := @onward [.value text] rest rfl (by simp)
      split at done
      · exact onward done plain
      · exact onward done (input text)
    · next name short value rest =>
      have attached : ∀ text ∈ value, WideText.Plain text := supplied _ List.mem_cons_self
      cases unfolded : optionsOf name short value with
      | error error =>
        rw [unfolded] at done
        cases done
      | ok options =>
        have each := plain_optionsOf attached unfolded
        rw [unfolded] at done
        dsimp only [bind, Except.bind] at done
        split at done
        · exact plain_recorded plain each
            (@onward [.option name short value] rest rfl (by simp)) done
        · next last lacks =>
          split at done
          · next text rest =>
            have here : WideText.Plain text :=
              supplied (.value text) (List.mem_cons_of_mem _ List.mem_cons_self)
            have completed : Argument.PlainOptions (options.dropLast ++ [(last, some text)]) :=
              List.forall_mem_append.2 ⟨fun option member =>
                each option (List.dropLast_subset _ member), Argument.plainOptions_singleton
                  fun part same => Option.some.inj same ▸ here⟩
            exact plain_recorded plain completed
              (@onward [.option name short value, .value text] rest rfl (by simp)) done
          · cases done

end Intake

theorem Request.plain_ofArguments {arguments : List WideText} {given : Given}
    (plain : ∀ argument ∈ arguments, argument.Plain)
    (done : ofArguments arguments = .ok (.run given)) : given.Plain := by
  rw [ofArguments] at done
  cases classified : Argument.classifyAll arguments with
  | error error =>
    rw [classified] at done
    cases done
  | ok kinds =>
    rw [classified] at done
    have start : Intake.start.given.Plain := by
      constructor <;> intro text impossible <;> cases impossible
    exact Intake.plain_readAll (Argument.plain_classifyAll plain classified) start done

theorem plain_parseMeta {argument name content : WideText} (plain : argument.Plain)
    (parsed : parseMeta argument = .ok (name, content)) : name.Plain ∧ content.Plain := by
  rw [parseMeta] at parsed
  split at parsed
  · next start attached split =>
    obtain ⟨rfl, rfl⟩ := Prod.mk.inj (Except.ok.inj parsed)
    exact ⟨plain.of_subset (Argument.name_subset split),
      plain.of_subset (Argument.attached_subset split)⟩
  · cases parsed

theorem plain_mapM_metaOf {supplied : List (Supplied WideText)}
    {metaTags : List (WideText × WideText)}
    (plain : ∀ text, .value text ∈ supplied → WideText.Plain text)
    (parsed : supplied.mapM metaOf = .ok metaTags) :
    ∀ tag ∈ metaTags, WideText.Plain tag.1 ∧ WideText.Plain tag.2 := by
  induction supplied generalizing metaTags with
  | nil =>
    cases parsed
    exact List.forall_mem_nil _
  | cons first rest ih =>
    rw [List.mapM_cons] at parsed
    cases read : metaOf first with
    | error error =>
      rw [read] at parsed
      cases parsed
    | ok tag =>
      cases more : rest.mapM metaOf with
      | error error =>
        rw [read, more] at parsed
        cases parsed
      | ok tags =>
        rw [read, more] at parsed
        obtain rfl := Except.ok.inj parsed
        refine List.forall_mem_cons.2 ⟨?_, ih (fun text member =>
          plain text (List.mem_cons_of_mem first member)) more⟩
        cases first with
        | nothing => cases read
        | value argument => exact plain_parseMeta (plain argument List.mem_cons_self) read

/-- What a configuration gives is made of characters, so the head is if the arguments are. -/
theorem plain_head {given : Given} {config : Toml.Table} {options : Options} (plain : given.Plain)
    (resolved : Options.resolve given config = .ok options) : options.head.Plain := by
  obtain ⟨bound, metaTags, -, -, -, parsed, rfl⟩ := resolve_eq_ok resolved
  have chosen : ∀ (asked : Option (Supplied WideText)) (configured : Option Toml.Value),
      (∀ text, asked = some (.value text) → text.Plain) →
        ∀ text ∈ (asked <|> configured.map fun value =>
          Supplied.value (Text.wide value.shown)).bind Supplied.value?, WideText.Plain text := by
    intro asked configured each text chosen
    cases asked with
    | some supplied =>
      cases supplied with
      | nothing => cases chosen
      | value content =>
        obtain rfl := Option.some.inj chosen
        exact each content rfl
    | none =>
      cases configured with
      | none => cases chosen
      | some value =>
        obtain rfl := Option.some.inj chosen
        exact WideText.plain_wide _
  constructor
  · exact chosen given.title config.title? plain.title
  · exact chosen given.language config.language? plain.language
  · intro text member
    obtain ⟨supplied, inside, same⟩ := List.mem_filterMap.1 member
    cases supplied with
    | nothing => cases same
    | value content =>
      obtain rfl := Option.some.inj same
      rcases List.mem_append.1 inside with configured | asked
      · obtain ⟨value, -, shown⟩ := List.mem_map.1 configured
        obtain rfl := Supplied.value.inj shown
        exact WideText.plain_wide _
      · exact plain.styles content asked
  · refine List.forall_mem_append.2 ⟨?_, plain_mapM_metaOf plain.metaTags parsed⟩
    exact List.forall_mem_map.2 fun entry _ => ⟨WideText.plain_wide _, WideText.plain_wide _⟩

/-- A compilation with such a head comes to characters. -/
theorem exists_toText_of_compile {options : CompileOptions CodePoint} (plain : options.head.Plain)
    {source file : Text} {result : WideText}
    (done : (compile options source file).result = .ok result) :
    ∃ html, result.toText = .ok html := by
  rw [compile] at done
  dsimp only at done
  cases converted : (Compilation.convert options source).2 with
  | error error =>
    rw [converted] at done
    cases done
  | ok body =>
    rw [converted] at done
    obtain rfl := Except.ok.inj done
    change ∃ html, WideText.toText (if options.standalone then _ else _) = .ok html
    split
    · rw [← plain.wide_chars, renderPage_wide]
      exact ⟨_, WideText.toText_wide _⟩
    · exact ⟨_, WideText.toText_wide _⟩

end Markdown
