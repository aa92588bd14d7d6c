import Markdown.Command.Options
import Markdown.Toml.Document

set_option autoImplicit false

namespace Markdown

inductive Ending where
  | done
  | helped
  /-- The arguments cannot be used. -/
  | misused (error : UsageError)
  /-- The options are refused. -/
  | refused (error : OptionsError)
  /-- The nesting of the input is too deep. -/
  | tooDeep (error : NestingError)
  /-- The input cannot be read. -/
  | unreadable (fault : FileFault)
  | failed (failure : Failure)

def Ending.status? : Ending → Option Nat
  | .done => some 0
  | .helped => some 0
  | .misused _ => some 2
  | .refused _ => some 2
  | .tooDeep _ => some 1
  | .unreadable _ => some 1
  | .failed _ => none

/-- What a run leaves behind: its ending, its output, its messages, and the file that it opens for
writing with what is stored there. -/
structure Outcome where
  ending : Ending
  output : Text
  errors : Text
  written : Option (Path × List UInt8)

namespace Command

def usage : Text :=
  ("usage: hashdown [-h] [-o OUTPUT] [--config FILE] [--max-depth N] [--inline]\n" ++
    "                [--standalone] [--title TITLE] [--lang LANG] [--css FILE]\n" ++
    "                [--meta NAME=VALUE] [-v]\n" ++
    "                [input]\n").toList

def help : Text :=
  usage ++
    ("\nConvert Markdown to HTML\n\n" ++
      "positional arguments:\n" ++
      "  input                 Input file (default: stdin)\n\n" ++
      "options:\n" ++
      "  -h, --help            show this help message and exit\n" ++
      "  -o OUTPUT, --output OUTPUT\n" ++
      "                        Output file (default: stdout)\n" ++
      "  --config FILE         Config file (default: auto-discover hashdown.toml)\n" ++
      "  --max-depth N         Maximum nesting of quotes and lists (default: 64)\n" ++
      "  --inline              Apply inline rules only\n" ++
      "  --standalone          Wrap the output in a complete HTML document\n" ++
      "  --title TITLE         Document title (with --standalone)\n" ++
      "  --lang LANG           Document language (with --standalone)\n" ++
      "  --css FILE            CSS file to link (repeatable)\n" ++
      "  --meta NAME=VALUE     Meta tag to add (repeatable)\n" ++
      "  -v, --verbose         Log debug output to stderr\n").toList

def errorLine (message : Text) : Text :=
  "error: ".toList ++ message ++ ['\n']

def Outcome.silent (ending : Ending) (errors : Text) : Outcome :=
  ⟨ending, [], errors, none⟩

/-- An event is told if it is a warning or everything is to be told. -/
def isTold (verbose : Bool) (event : Event) : Bool :=
  verbose || event.severity = .warning

def eventLine (event : Event) : Text :=
  event.severity.word ++ ": ".toList ++ event.message ++ ['\n']

def eventLines (verbose : Bool) (events : List Event) : Text :=
  (events.filter (isTold verbose)).flatMap eventLine

/-- The configuration under a path; where there is no file, it is empty. -/
def loadConfig (files : Files) (path : Path) : Except OptionsFault Toml.Table := do
  if ← (files.isFile path).mapError (.inr ∘ .file) then
    let octets ← (files.read path).mapError (.inr ∘ .file)
    let text ← (Utf8.decode octets).mapError (.inr ∘ .undecodable)
    (Toml.parse text).mapError fun fault => match fault with
      | .malformed _ => .inl (.malformedConfig (fault.message text))
      | .numberTooLong _ => .inr (.numberTooLong (fault.message text))
  else pure []

def loadOptions (files : Files) (given : Given) : Except OptionsFault Options := do
  Options.resolve given (← loadConfig files given.configPath)

/-- The ending and the messages for arguments that give no options. -/
def optionsOutcome : OptionsFault → Outcome
  | .inl error => Outcome.silent (.refused error) (errorLine error.message)
  | .inr failure => Outcome.silent (.failed failure) []

def readSource (files : Files) (input : List UInt8) (options : Options) : Except Failure Text := do
  let octets ← match options.input with
    | none => pure input
    | some path => (files.read path).mapError .file
  let text ← (Utf8.decode octets).mapError .undecodable
  pure text.unifyNewlines

/-- The outcome for a source that cannot be read. Only faults of the system are reported. -/
def unreadableOutcome : Failure → Outcome
  | .file fault =>
    if (FileFault.systemWords? fault.kind).isSome then
      Outcome.silent (.unreadable fault) (errorLine fault.message)
    else Outcome.silent (.failed (.file fault)) []
  | failure => Outcome.silent (.failed failure) []

/-- A result as it is written to standard output: a newline ends it unless it is empty. -/
def printed (result : Text) : Text :=
  if result.isEmpty || result.getLast? = some '\n' then result else result ++ ['\n']

def print (messages : Text) (result : WideText) : Outcome :=
  match result.toText with
  | .ok text => ⟨.done, printed text, messages, none⟩
  | .error fault => Outcome.silent (.failed (.unencodable fault)) messages

/-- A result in a file that has been opened. -/
def store (files : Files) (path : Path) (messages : Text) (result : WideText) : Outcome :=
  match result.toText with
  | .error fault => ⟨.failed (.unencodable fault), [], messages, some (path, [])⟩
  | .ok text =>
    let octets := Digest.octets text
    match files.storeFault? path octets with
    | none => ⟨.done, [], messages, some (path, octets)⟩
    | some (count, fault) =>
      ⟨.failed (.device fault), [], messages, some (path, octets.take count)⟩

/-- The result delivered to its file or to standard output. A file is opened, and thereby emptied,
before the result is encoded. -/
def deliver (files : Files) (options : Options) (messages : Text) (result : WideText) : Outcome :=
  match options.output with
  | none => print messages result
  | some path =>
    match files.openFault? path with
    | some fault => Outcome.silent (.failed (.file fault)) messages
    | none => store files path messages result

variable (capacity : Nat) (files : Files)

def compileSource (options : Options) (source : Text) : Outcome :=
  let compilation := compile (options.compileOptions capacity) source options.inputName
  let messages := eventLines options.verbose compilation.events
  match compilation.result with
  | .ok result =>
    if options.standalone && options.styles.contains .nothing then
      Outcome.silent (.failed .styleOfNothing) messages
    else deliver files options messages result
  | .error (.nesting error) =>
    Outcome.silent (.tooDeep error) (messages ++ error.report options.inputName ++ ['\n'])
  | .error (.limit error) => Outcome.silent (.failed (.limit error)) messages

def runOptions (input : List UInt8) (options : Options) : Outcome :=
  match readSource files input options with
  | .ok source => compileSource capacity files options source
  | .error failure => unreadableOutcome failure

def runRequest (input : List UInt8) : Request → Outcome
  | .help => ⟨.helped, help, [], none⟩
  | .run given =>
    match loadOptions files given with
    | .ok options => runOptions capacity files input options
    | .error fault => optionsOutcome fault

def misusedOutcome (error : UsageError) : Outcome :=
  Outcome.silent (.misused error)
    (usage ++ "hashdown: error: ".toList ++ error.message ++ ['\n'])

/-- A run of the command where so many levels can be open, with its files, its standard input and
its arguments. -/
def run (input : List UInt8) (arguments : List WideText) : Outcome :=
  match Request.ofArguments arguments with
  | .ok request => runRequest capacity files input request
  | .error error => misusedOutcome error

end Command

end Markdown
