import Markdown.Command.Arguments
import Markdown.Command.Failure
import Markdown.Compile
import Markdown.Toml.Value

set_option autoImplicit false

namespace Markdown

structure Options where
  /-- The file to read, or standard input. -/
  input : Option Path
  /-- The file to write, or standard output. -/
  output : Option Path
  bound : Bound
  inlineOnly : Bool
  standalone : Bool
  /-- The title; an option given nothing still stands in front of the configuration. -/
  title : Option (Supplied WideText)
  language : Option (Supplied WideText)
  styles : List (Supplied WideText)
  metaTags : List (WideText × WideText)
  verbose : Bool

inductive OptionsError where
  | malformedConfig (particulars : Text)
  | limitTooLow (bound : Bound)
  | metaWithoutValue (argument : WideText)

def OptionsError.message : OptionsError → Text
  | .malformedConfig particulars => "invalid config file: ".toList ++ particulars
  | .limitTooLow bound => "max depth must be at least 1: ".toList ++ bound.text
  | .metaWithoutValue argument =>
    "invalid meta format (expected NAME=VALUE): ".toList ++ argument.shown

/-- Why there are no options: they are refused, or something fails before that. -/
abbrev OptionsFault := OptionsError ⊕ Failure

/-- The name and the value of a meta tag, with the first equals sign between them. -/
def parseMeta (argument : WideText) : Except OptionsError (WideText × WideText) :=
  match Argument.splitValue argument with
  | (name, some value) => .ok (name, value)
  | (_, none) => .error (.metaWithoutValue argument)

/-- The meta tag of an option. One that is given nothing is shown as an empty list. -/
def metaOf : Supplied WideText → Except OptionsError (WideText × WideText)
  | .value argument => parseMeta argument
  | .nothing => .error (.metaWithoutValue (Text.wide "[]".toList))

namespace Given

/-- The file to read; a single hyphen stands for standard input. -/
def inputPath (given : Given) : Option Path :=
  if given.input = [.char '-'] then none else some (.ofText given.input)

/-- The name of the configuration that is looked for beside the input. -/
def configName : Text := "hashdown.toml".toList

/-- The configuration to read, if there is such a file. -/
def configPath (given : Given) : Path :=
  match given.config with
  | some (c :: rest) => .ofText (c :: rest)
  | _ => ((given.inputPath.map Path.parent).getD .here).child configName

end Given

namespace Toml.Table

/-- The table under a key; any other value counts as an empty one. -/
def tableAt (config : Table) (name : String) : Table :=
  match config.get? name.toList with
  | some (.table entries) => entries
  | _ => []

/-- The bound of a configuration: a whole number or a truth value. -/
def bound? (config : Table) : Option Bound :=
  match (config.tableAt "parser").get? "max_depth".toList with
  | some (.integer value) => some (.levels value)
  | some (.truth value) => some (.flag value)
  | _ => none

def standalone (config : Table) : Bool :=
  (((config.tableAt "document").get? "standalone".toList).map Value.isTrue).getD false

def title? (config : Table) : Option Value :=
  (config.tableAt "document").get? "title".toList

def language? (config : Table) : Option Value :=
  (config.tableAt "document").get? "lang".toList

def styles (config : Table) : List Value :=
  match (config.tableAt "css").get? "files".toList with
  | some (.array items) => items
  | _ => []

def metaTags (config : Table) : Table :=
  config.tableAt "meta"

/-- The values of a configuration of which the text counts. -/
def shownValues (config : Table) : List Value :=
  config.title?.toList ++ config.language?.toList ++ config.styles ++
    config.metaTags.map (·.2)

end Toml.Table

/-- The bound of arguments and a configuration, unless its option is given nothing. -/
def Given.bound? (given : Given) (config : Toml.Table) : Option Bound :=
  match given.maxDepth with
  | some depth => depth.value?.map .levels
  | none => some (config.bound?.getD .standard)

/-- The options that arguments and a configuration give together. Every value of the configuration
of which the text counts has to be short enough to be shown, even if an argument stands in front of
it. -/
def Options.resolve (given : Given) (config : Toml.Table) : Except OptionsFault Options := do
  let bound ← match given.bound? config with
    | some bound => pure bound
    | none => .error (.inr .limitOfNothing)
  if bound.value < 1 then .error (.inl (.limitTooLow bound))
  if config.shownValues.any Toml.Value.isTooLong then
    .error (.inr (.numberTooLong (Toml.tooLongMessage [])))
  let metaTags ← (given.metaTags.mapM metaOf).mapError .inl
  pure {
    input := given.inputPath
    output := match given.output with
      | some (c :: rest) => some (.ofText (c :: rest))
      | _ => none
    bound
    inlineOnly := given.inlineOnly
    standalone := given.standalone || config.standalone
    title := given.title <|> config.title?.map fun value => .value (Text.wide value.shown)
    language := given.language <|> config.language?.map fun value => .value (Text.wide value.shown)
    styles := config.styles.map (fun value => .value (Text.wide value.shown)) ++ given.styles
    metaTags :=
      config.metaTags.map (fun (name, value) => (Text.wide name, Text.wide value.shown)) ++ metaTags
    verbose := given.verbose }

/-- The head of the page. An option that is given nothing adds nothing to it. -/
def Options.head (options : Options) : PageHead CodePoint where
  title := options.title.bind Supplied.value?
  language := options.language.bind Supplied.value?
  styles := options.styles.filterMap Supplied.value?
  metaTags := options.metaTags

def Options.inputName (options : Options) : Text :=
  (options.input.map fun path => path.text.shown).getD standardInputName

/-- What a source is compiled with where so many levels can be open. -/
def Options.compileOptions (options : Options) (capacity : Nat) : CompileOptions CodePoint :=
  ⟨⟨options.bound, capacity⟩, options.inlineOnly, options.standalone, options.head⟩

end Markdown
