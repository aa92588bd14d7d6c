import Markdown.Decimal.Integer
import Markdown.Pattern.Search
import Markdown.Text.Wide

set_option autoImplicit false

namespace Markdown

inductive OptionName where
  | help | output | config | maxDepth | inlineOnly | standalone | title | language | style
  | metaTag | verbose
deriving DecidableEq

namespace OptionName

/-- Every spelling of every option, in the order in which options are listed. -/
def spellings : List (Text × OptionName) :=
  [("-h".toList, .help), ("--help".toList, .help), ("-o".toList, .output),
    ("--output".toList, .output), ("--config".toList, .config),
    ("--max-depth".toList, .maxDepth), ("--inline".toList, .inlineOnly),
    ("--standalone".toList, .standalone), ("--title".toList, .title),
    ("--lang".toList, .language), ("--css".toList, .style), ("--meta".toList, .metaTag),
    ("-v".toList, .verbose), ("--verbose".toList, .verbose)]

def ofSpelling? (spelling : WideText) : Option OptionName :=
  (spellings.find? fun entry => Text.wide entry.1 == spelling).map (·.2)

/-- All spellings of an option, as messages name it. -/
def text (name : OptionName) : Text :=
  Text.join ['/'] ((spellings.filter (·.2 = name)).map (·.1))

def takesValue : OptionName → Bool
  | .help | .inlineOnly | .standalone | .verbose => false
  | _ => true

end OptionName

/-- Why arguments cannot be used. -/
inductive UsageError where
  | ambiguous (argument : WideText) (candidates : List Text)
  | missingValue (option : OptionName)
  | needlessValue (option : OptionName) (value : WideText)
  | invalidNumber (option : OptionName) (value : WideText)
  | unrecognized (arguments : List WideText)

namespace UsageError

def about (option : OptionName) (words : Text) : Text :=
  "argument ".toList ++ option.text ++ ": ".toList ++ words

def message : UsageError → Text
  | .ambiguous argument candidates =>
    "ambiguous option: ".toList ++ argument.shown ++ " could match ".toList ++
      Text.join ", ".toList candidates
  | .missingValue option => about option "expected one argument".toList
  | .needlessValue option value =>
    about option ("ignored explicit argument ".toList ++ value.quoted)
  | .invalidNumber option value => about option ("invalid int value: ".toList ++ value.quoted)
  | .unrecognized arguments =>
    "unrecognized arguments: ".toList ++ Text.join [' '] (arguments.map WideText.shown)

end UsageError

/-- The argument behind which every argument is a value. -/
def dividerText : WideText := Text.wide "--".toList

/-- What is given to an option that takes a value: the value, or nothing, where two hyphens are
attached to the option. They count as the divider even there and not as a value. -/
inductive Supplied (α : Type) where
  | value (content : α)
  | nothing
deriving DecidableEq

namespace Supplied

/-- What an attached or a following text gives to an option. -/
def ofText (text : WideText) : Supplied WideText :=
  if text = dividerText then .nothing else .value text

def value? {α : Type} : Supplied α → Option α
  | .value content => some content
  | .nothing => none

end Supplied

/-- What the arguments say. -/
structure Given where
  input : WideText
  output : Option WideText
  config : Option WideText
  maxDepth : Option (Supplied Int)
  inlineOnly : Bool
  standalone : Bool
  title : Option (Supplied WideText)
  language : Option (Supplied WideText)
  styles : List (Supplied WideText)
  metaTags : List (Supplied WideText)
  verbose : Bool

/-- What no arguments say: standard input is converted. -/
def Given.nothing : Given :=
  ⟨[.char '-'], none, none, none, false, false, none, none, [], [], false⟩

inductive Request where
  | help
  | run (given : Given)

inductive Argument where
  | value (text : WideText)
  /-- An option; it is short if it starts with a single hyphen. -/
  | option (name : OptionName) (short : Bool) (value : Option WideText)
  /-- Looks like an option but is none. -/
  | unknown (text : WideText)
  | divider

namespace Argument

/-- A text up to its first equals sign, and the text behind that. -/
def splitValue (text : WideText) : WideText × Option WideText :=
  let name := text.takeWhile (· != .char '=')
  match text.drop name.length with
  | _ :: attached => (name, some attached)
  | [] => (name, none)

def isShort (spelling : WideText) : Bool :=
  spelling.getD 1 (.char '-') != .char '-'

def ofSpelling (spelling : WideText) (name : OptionName) (attached : Option WideText) : Argument :=
  .option name (isShort spelling) attached

/-- The options that an argument may mean, with their spellings: long ones that start as it does,
or the short one that it starts with. -/
def candidates (argument : WideText) : List (Text × OptionName × Option WideText) :=
  if dividerText.isPrefixOf argument then
    let (start, attached) := splitValue argument
    (OptionName.spellings.filter fun entry => start.isPrefixOf (Text.wide entry.1)).map
      fun (spelling, name) => (spelling, name, attached)
  else
    (OptionName.spellings.filter fun entry => Text.wide entry.1 == argument.take 2).map
      fun (spelling, name) => (spelling, name, some (argument.drop 2))

def negativeNumber : Pattern Empty :=
  .sequence
    [.char '-',
      .choice
        [.sequence [.many1 Unicode.isDigit, .optional (.char '\n'), .textEnd],
          .sequence
            [.many Unicode.isDigit, .char '.', .many1 Unicode.isDigit, .optional (.char '\n'),
              .textEnd]]]

def isNegativeNumber (argument : WideText) : Bool :=
  argument.toText.toOption.any fun digits => (negativeNumber.matchStart? digits).isSome

/-- An argument that starts with a hyphen and is no spelling of an option. -/
def ofUnspelled (argument : WideText) : Except UsageError Argument :=
  match candidates argument with
  | [(spelling, name, attached)] => .ok (ofSpelling spelling.wide name attached)
  | [] =>
    if isNegativeNumber argument || argument.contains (.char ' ') then
      .ok (.value argument)
    else .ok (.unknown argument)
  | several => .error (.ambiguous argument (several.map (·.1)))

def classify (argument : WideText) : Except UsageError Argument :=
  match argument with
  | .char '-' :: _ :: _ =>
    match OptionName.ofSpelling? argument with
    | some name => .ok (ofSpelling argument name none)
    | none =>
      match splitValue argument with
      | (spelling, some attached) =>
        match OptionName.ofSpelling? spelling with
        | some name => .ok (ofSpelling spelling name (some attached))
        | none => ofUnspelled argument
      | (_, none) => ofUnspelled argument
  | _ => .ok (.value argument)

def classifyAll : List WideText → Except UsageError (List Argument)
  | [] => .ok []
  | argument :: rest =>
    if argument = dividerText then .ok (.divider :: rest.map .value)
    else do
      let first ← classify argument
      pure (first :: (← classifyAll rest))

/-- The options that an option with an attached value stands for. A short option without a value may
have other short options attached, the last of them with its value. -/
def unfold (name : OptionName) (short : Bool) :
    WideText → Except UsageError (List (OptionName × Option WideText))
  | [] =>
    if name.takesValue then .ok [(name, some [])] else .error (.needlessValue name [])
  | c :: rest =>
    if name.takesValue then .ok [(name, some (c :: rest))]
    else if short then
      match OptionName.ofSpelling? [.char '-', c] with
      | none => .error (.needlessValue name (c :: rest))
      | some next =>
        if rest.isEmpty then .ok [(name, none), (next, none)]
        else (unfold next true rest).map ((name, none) :: ·)
    else .error (.needlessValue name (c :: rest))

end Argument

structure Intake where
  given : Given
  hasInput : Bool
  /-- Arguments that nothing is known to do with. -/
  extras : List WideText

namespace Intake

def start : Intake := ⟨.nothing, false, []⟩

def takeInput (intake : Intake) (input : WideText) : Intake :=
  { intake with given := { intake.given with input }, hasInput := true }

def addExtra (intake : Intake) (extra : WideText) : Intake :=
  { intake with extras := intake.extras ++ [extra] }

def depthOf (name : OptionName) : Supplied WideText → Except UsageError (Supplied Int)
  | .nothing => .ok .nothing
  | .value digits =>
    match digits.toText.toOption.bind Decimal.integer? with
    | some depth => .ok (.value depth)
    | none => .error (.invalidNumber name digits)

/-- What one option changes; none stands for the call for help. -/
def record (given : Given) (name : OptionName) (text : WideText) :
    Except UsageError (Option Given) :=
  let supplied := Supplied.ofText text
  match name with
  | .help => .ok none
  | .output => .ok (some { given with output := supplied.value? })
  | .config => .ok (some { given with config := supplied.value? })
  | .maxDepth => (depthOf name supplied).map fun depth => some { given with maxDepth := some depth }
  | .inlineOnly => .ok (some { given with inlineOnly := true })
  | .standalone => .ok (some { given with standalone := true })
  | .title => .ok (some { given with title := some supplied })
  | .language => .ok (some { given with language := some supplied })
  | .style => .ok (some { given with styles := given.styles ++ [supplied] })
  | .metaTag => .ok (some { given with metaTags := given.metaTags ++ [supplied] })
  | .verbose => .ok (some { given with verbose := true })

/-- What several options change, one after the other; none stands for the call for help. -/
def recordAll (given : Given) :
    List (OptionName × Option WideText) → Except UsageError (Option Given)
  | [] => .ok (some given)
  | (name, value) :: rest => do
    match ← record given name (value.getD []) with
    | some given => recordAll given rest
    | none => pure none

/-- The last of some options lacks a value that it needs. -/
def lacksValue? (options : List (OptionName × Option WideText)) : Option OptionName :=
  match options.getLast? with
  | some (name, none) => if name.takesValue then some name else none
  | _ => none

def optionsOf (name : OptionName) (short : Bool) :
    Option WideText → Except UsageError (List (OptionName × Option WideText))
  | none => .ok [(name, none)]
  | some value => Argument.unfold name short value

def readAll : List Argument → Intake → Except UsageError Request
  | [], intake =>
    if intake.extras.isEmpty then .ok (.run intake.given)
    else .error (.unrecognized intake.extras)
  | .unknown text :: rest, intake => readAll rest (intake.addExtra text)
  | .divider :: .value text :: rest, intake =>
    if intake.hasInput then readAll rest ((intake.addExtra dividerText).addExtra text)
    else readAll rest (intake.takeInput text)
  | .divider :: rest, intake =>
    readAll rest (if intake.hasInput then intake.addExtra dividerText else intake)
  | .value text :: .divider :: rest, intake =>
    if intake.hasInput then readAll rest ((intake.addExtra text).addExtra dividerText)
    else readAll rest (intake.takeInput text)
  | .value text :: rest, intake =>
    readAll rest (if intake.hasInput then intake.addExtra text else intake.takeInput text)
  | .option name short value :: rest, intake => do
    let options ← optionsOf name short value
    match lacksValue? options with
    | none =>
      match ← recordAll intake.given options with
      | some given => readAll rest { intake with given }
      | none => pure .help
    | some last =>
      match rest with
      | .value text :: rest =>
        match ← recordAll intake.given (options.dropLast ++ [(last, some text)]) with
        | some given => readAll rest { intake with given }
        | none => pure .help
      | _ => .error (.missingValue last)

end Intake

def Request.ofArguments (arguments : List WideText) : Except UsageError Request := do
  Intake.readAll (← Argument.classifyAll arguments) .start

end Markdown
