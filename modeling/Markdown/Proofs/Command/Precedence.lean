import Markdown.Proofs.Command.Course

set_option autoImplicit false

namespace Markdown

namespace Toml.Table

/-- The configurations hold the same, except perhaps under one key of one section. -/
structure SameBut (part key : String) (config other : Table) : Prop where
  parts : ∀ name : String, name ≠ part → config.tableAt name = other.tableAt name
  entries : ∀ name : String, name ≠ key →
    (config.tableAt part).get? name.toList = (other.tableAt part).get? name.toList

def without (config : Table) (part : String) : Table :=
  config.filter fun entry => entry.1 != part.toList

variable {part key name entry : String} {config other : Table}

theorem get?_without_self : (config.without part).get? part.toList = none := by
  simp [get?, without]

theorem get?_without_of_ne (apart : name ≠ part) :
    (config.without part).get? name.toList = config.get? name.toList := by
  have differs : name.toList ≠ part.toList := fun same => apart (String.toList_inj.1 same)
  rw [get?, get?, without, List.find?_filter]
  refine congrArg (fun test => (List.find? test config).map (·.2)) (funext fun entry => ?_)
  by_cases here : entry.1 = name.toList <;> simp [here, differs]

/-- A section that is no table counts as an empty one. -/
theorem tableAt_of_not_table
    (shapeless : ∀ entries, config.get? part.toList ≠ some (.table entries)) :
    config.tableAt part = [] := by
  rw [tableAt]
  split
  · next entries found => exact absurd found (shapeless entries)
  · rfl

/-- So it may as well not be there. -/
theorem tableAt_without (shapeless : ∀ entries, config.get? part.toList ≠ some (.table entries))
    (name : String) : (config.without part).tableAt name = config.tableAt name := by
  by_cases here : name = part
  · subst here
    rw [tableAt_of_not_table shapeless, tableAt_of_not_table (by simp [get?_without_self])]
  · rw [tableAt, tableAt, get?_without_of_ne here]

namespace SameBut

variable (same : SameBut part key config other)
include same

theorem get?_eq (apart : name ≠ part ∨ entry ≠ key) :
    (config.tableAt name).get? entry.toList = (other.tableAt name).get? entry.toList := by
  by_cases here : name = part
  · subst here
    exact same.entries entry (apart.resolve_left (absurd rfl))
  · rw [same.parts name here]

theorem bound?_eq (apart : "parser" ≠ part ∨ "max_depth" ≠ key) : config.bound? = other.bound? := by
  rw [bound?, bound?, same.get?_eq apart]

theorem standalone_eq (apart : "document" ≠ part ∨ "standalone" ≠ key) :
    config.standalone = other.standalone := by
  rw [standalone, standalone, same.get?_eq apart]

theorem title?_eq (apart : "document" ≠ part ∨ "title" ≠ key) : config.title? = other.title? :=
  same.get?_eq apart

theorem language?_eq (apart : "document" ≠ part ∨ "lang" ≠ key) :
    config.language? = other.language? :=
  same.get?_eq apart

theorem styles_eq (apart : "css" ≠ part ∨ "files" ≠ key) : config.styles = other.styles := by
  rw [styles, styles, same.get?_eq apart]

theorem metaTags_eq (apart : "meta" ≠ part) : config.metaTags = other.metaTags :=
  same.parts "meta" apart

end SameBut

end Toml.Table

open Toml.Table (SameBut)

variable {given : Given} {config other : Toml.Table}

/-- All that counts of a configuration. -/
structure SameOptions (given : Given) (config other : Toml.Table) : Prop where
  bound : given.bound? config = given.bound? other
  standalone : (given.standalone || config.standalone) = (given.standalone || other.standalone)
  title : (given.title <|> config.title?.map fun value => .value (Text.wide value.shown)) =
    (given.title <|> other.title?.map fun value => .value (Text.wide value.shown))
  titleTooLong : config.title?.any Toml.Value.isTooLong = other.title?.any Toml.Value.isTooLong
  language : (given.language <|> config.language?.map fun value => .value (Text.wide value.shown)) =
    (given.language <|> other.language?.map fun value => .value (Text.wide value.shown))
  languageTooLong :
    config.language?.any Toml.Value.isTooLong = other.language?.any Toml.Value.isTooLong
  styles : config.styles = other.styles
  metaTags : config.metaTags = other.metaTags

theorem any_toList {α : Type} (value : Option α) (test : α → Bool) :
    value.toList.any test = value.any test := by
  cases value <;> simp

theorem SameOptions.resolve_eq (same : SameOptions given config other) :
    Options.resolve given config = Options.resolve given other := by
  have tooLong : config.shownValues.any Toml.Value.isTooLong =
      other.shownValues.any Toml.Value.isTooLong := by
    simp only [Toml.Table.shownValues, List.any_append, any_toList, same.titleTooLong,
      same.languageTooLong, same.styles, same.metaTags]
  rw [Options.resolve, Options.resolve, same.bound, tooLong, same.standalone, same.title,
    same.language, same.styles, same.metaTags]

/-- What is said of each value holds if it is another one that the configurations do not share. -/
theorem SameOptions.of_sameBut {part key : String} (same : SameBut part key config other)
    (bound : ("parser" ≠ part ∨ "max_depth" ≠ key) ∨ given.bound? config = given.bound? other)
    (standalone : ("document" ≠ part ∨ "standalone" ≠ key) ∨ given.standalone = true)
    (title : ("document" ≠ part ∨ "title" ≠ key) ∨ given.title ≠ none ∧
      config.title?.any Toml.Value.isTooLong = other.title?.any Toml.Value.isTooLong)
    (language : ("document" ≠ part ∨ "lang" ≠ key) ∨ given.language ≠ none ∧
      config.language?.any Toml.Value.isTooLong = other.language?.any Toml.Value.isTooLong)
    (styles : ("css" ≠ part ∨ "files" ≠ key) ∨ config.styles = other.styles)
    (apart : "meta" ≠ part) : SameOptions given config other where
  bound := bound.elim (fun apart => by rw [Given.bound?, Given.bound?, same.bound?_eq apart]) id
  standalone := standalone.elim (fun apart => by rw [same.standalone_eq apart])
    fun asked => by rw [asked, Bool.true_or, Bool.true_or]
  title := title.elim (fun apart => by rw [same.title?_eq apart]) fun asked => by
    obtain ⟨text, supplied⟩ := Option.ne_none_iff_exists'.1 asked.1
    rw [supplied]
    rfl
  titleTooLong := title.elim (fun apart => by rw [same.title?_eq apart]) And.right
  language := language.elim (fun apart => by rw [same.language?_eq apart]) fun asked => by
    obtain ⟨text, supplied⟩ := Option.ne_none_iff_exists'.1 asked.1
    rw [supplied]
    rfl
  languageTooLong := language.elim (fun apart => by rw [same.language?_eq apart]) And.right
  styles := styles.elim same.styles_eq id
  metaTags := same.metaTags_eq apart

/-- A bound that is given stands in front of the configured one, whatever that is. -/
theorem resolve_of_maxDepth (asked : given.maxDepth ≠ none)
    (same : SameBut "parser" "max_depth" config other) :
    Options.resolve given config = Options.resolve given other := by
  obtain ⟨depth, supplied⟩ := Option.ne_none_iff_exists'.1 asked
  have bound : given.bound? config = given.bound? other := by
    rw [Given.bound?, Given.bound?, supplied]
  exact (SameOptions.of_sameBut same (.inr bound) (.inl (by decide)) (.inl (by decide))
    (.inl (by decide)) (.inl (by decide)) (by decide)).resolve_eq

theorem resolve_of_standalone (asked : given.standalone = true)
    (same : SameBut "document" "standalone" config other) :
    Options.resolve given config = Options.resolve given other :=
  (SameOptions.of_sameBut same (.inl (by decide)) (.inr asked) (.inl (by decide))
    (.inl (by decide)) (.inl (by decide)) (by decide)).resolve_eq

/-- A title that is given stands in front of the configured one, but for a number that is too
long. -/
theorem resolve_of_title (asked : given.title ≠ none)
    (same : SameBut "document" "title" config other)
    (tooLong : config.title?.any Toml.Value.isTooLong = other.title?.any Toml.Value.isTooLong) :
    Options.resolve given config = Options.resolve given other :=
  (SameOptions.of_sameBut same (.inl (by decide)) (.inl (by decide)) (.inr ⟨asked, tooLong⟩)
    (.inl (by decide)) (.inl (by decide)) (by decide)).resolve_eq

/-- So does a language. -/
theorem resolve_of_language (asked : given.language ≠ none)
    (same : SameBut "document" "lang" config other)
    (tooLong : config.language?.any Toml.Value.isTooLong =
      other.language?.any Toml.Value.isTooLong) :
    Options.resolve given config = Options.resolve given other :=
  (SameOptions.of_sameBut same (.inl (by decide)) (.inl (by decide)) (.inl (by decide))
    (.inr ⟨asked, tooLong⟩) (.inl (by decide)) (by decide)).resolve_eq

/-- A bound that is neither a whole number nor a truth value may as well not be there. -/
theorem resolve_of_no_bound (same : SameBut "parser" "max_depth" config other)
    (unbounded : config.bound? = none) (otherwise : other.bound? = none) :
    Options.resolve given config = Options.resolve given other := by
  have bound : given.bound? config = given.bound? other := by
    rw [Given.bound?, Given.bound?, unbounded, otherwise]
  exact (SameOptions.of_sameBut same (.inr bound) (.inl (by decide)) (.inl (by decide))
    (.inl (by decide)) (.inl (by decide)) (by decide)).resolve_eq

/-- Style sheets that are no array may as well not be there. -/
theorem resolve_of_no_styles (same : SameBut "css" "files" config other)
    (unstyled : config.styles = []) (otherwise : other.styles = []) :
    Options.resolve given config = Options.resolve given other :=
  (SameOptions.of_sameBut same (.inl (by decide)) (.inl (by decide)) (.inl (by decide))
    (.inl (by decide)) (.inr (unstyled.trans otherwise.symm)) (by decide)).resolve_eq

/-- A section that is no table may as well not be there. -/
theorem resolve_without {part : String}
    (shapeless : ∀ entries, config.get? part.toList ≠ some (.table entries)) :
    Options.resolve given (config.without part) = Options.resolve given config := by
  have same := Toml.Table.tableAt_without shapeless
  have readings : SameOptions given (config.without part) config := by
    constructor <;> simp only [Given.bound?, Toml.Table.bound?, Toml.Table.standalone,
      Toml.Table.title?, Toml.Table.language?, Toml.Table.styles, Toml.Table.metaTags, same]
  exact readings.resolve_eq

theorem Given.bound?_eq_none_iff : given.bound? config = none ↔ given.maxDepth = some .nothing := by
  rw [Given.bound?]
  cases given.maxDepth with
  | none => simp
  | some depth => cases depth <;> simp [Supplied.value?]

/-- Options that are not refused are there, unless the bound is given nothing or a value of the
configuration is, or holds, a number that is too long. -/
theorem resolve_eq_failure_iff :
    (∃ failure, Options.resolve given config = .error (.inr failure)) ↔
      given.maxDepth = some .nothing ∨
        (∃ bound, given.bound? config = some bound ∧ 1 ≤ bound.value) ∧
          config.shownValues.any Toml.Value.isTooLong = true := by
  rw [Options.resolve]
  constructor
  · rintro ⟨failure, failed⟩
    cases bounded : given.bound? config with
    | none => exact .inl (Given.bound?_eq_none_iff.1 bounded)
    | some bound =>
      rw [bounded] at failed
      change (if bound.value < 1 then _ else _) = _ at failed
      split at failed
      · cases failed
      · next low =>
        change (if config.shownValues.any Toml.Value.isTooLong = true then _ else _) = _ at failed
        split at failed
        · next tooLong => exact .inr ⟨⟨bound, rfl, by omega⟩, tooLong⟩
        · cases parsed : given.metaTags.mapM metaOf with
          | error error =>
            rw [parsed] at failed
            cases failed
          | ok metaTags =>
            rw [parsed] at failed
            cases failed
  · rintro (nothing | ⟨⟨bound, bounded, enough⟩, tooLong⟩)
    · rw [Given.bound?_eq_none_iff.2 nothing]
      exact ⟨_, rfl⟩
    · rw [bounded]
      refine ⟨.numberTooLong (Toml.tooLongMessage []), ?_⟩
      change (if bound.value < 1 then _ else _) = _
      rw [if_neg (Int.not_lt.2 enough), if_pos tooLong]
      rfl

/-- A configured title that is too long ends the run even if another one is given. -/
example : ∃ failure, Options.resolve { Given.nothing with title := some (.value [.char 'T']) }
    [("document".toList, .table [("title".toList, .integer (Nat.pow 16 3600))])] =
      .error (.inr failure) :=
  resolve_eq_failure_iff.2 (.inr ⟨⟨.standard, rfl, by decide⟩, by decide +kernel⟩)

/-- What the arguments give stands in front of the configuration, value by value; what has the wrong
shape may as well not be there; style sheets and meta tags are those of the configuration and then
those of the arguments. Only a number that is too long to be shown makes a difference even in a value
that the arguments stand in front of. -/
theorem resolve_precedence (given : Given) :
    (∀ config other, SameBut "parser" "max_depth" config other →
      (given.maxDepth ≠ none ∨ config.bound? = none ∧ other.bound? = none) →
        Options.resolve given config = Options.resolve given other) ∧
    (∀ config other, SameBut "document" "standalone" config other → given.standalone = true →
      Options.resolve given config = Options.resolve given other) ∧
    (∀ config other, SameBut "document" "title" config other → given.title ≠ none →
      config.title?.any Toml.Value.isTooLong = other.title?.any Toml.Value.isTooLong →
        Options.resolve given config = Options.resolve given other) ∧
    (∀ config other, SameBut "document" "lang" config other → given.language ≠ none →
      config.language?.any Toml.Value.isTooLong = other.language?.any Toml.Value.isTooLong →
        Options.resolve given config = Options.resolve given other) ∧
    (∀ config other, SameBut "css" "files" config other → config.styles = [] → other.styles = [] →
      Options.resolve given config = Options.resolve given other) ∧
    (∀ config part, (∀ entries, config.get? part.toList ≠ some (.table entries)) →
      Options.resolve given (config.without part) = Options.resolve given config) ∧
    (∀ config, (∃ failure, Options.resolve given config = .error (.inr failure)) ↔
      given.maxDepth = some .nothing ∨
        (∃ bound, given.bound? config = some bound ∧ 1 ≤ bound.value) ∧
          config.shownValues.any Toml.Value.isTooLong = true) ∧
    ∀ config options, Options.resolve given config = .ok options →
      1 ≤ options.bound.value ∧
        options.styles =
          config.styles.map (fun value => .value (Text.wide value.shown)) ++ given.styles ∧
        ∃ metaTags, given.metaTags.mapM metaOf = .ok metaTags ∧
          options.metaTags =
            config.metaTags.map (fun (name, value) => (Text.wide name, Text.wide value.shown)) ++
              metaTags := by
  refine ⟨fun config other same bound => ?_, fun _ _ same asked => resolve_of_standalone asked same,
    fun _ _ same asked => resolve_of_title asked same,
    fun _ _ same asked => resolve_of_language asked same,
    fun _ _ same => resolve_of_no_styles same, fun _ _ => resolve_without,
    fun _ => resolve_eq_failure_iff, fun config options resolved => ?_⟩
  · rcases bound with asked | ⟨unbounded, otherwise⟩
    · exact resolve_of_maxDepth asked same
    · exact resolve_of_no_bound same unbounded otherwise
  · obtain ⟨bound, metaTags, -, enough, -, parsed, rfl⟩ := resolve_eq_ok resolved
    exact ⟨enough, rfl, metaTags, parsed, rfl⟩

end Markdown
