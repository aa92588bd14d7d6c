import Markdown.Command.Run

set_option autoImplicit false

namespace Markdown

/-- What was resolved: the bound allows at least one level, no value is too long to be shown, and
every meta tag has its two parts. -/
theorem resolve_eq_ok {given : Given} {config : Toml.Table} {options : Options}
    (resolved : Options.resolve given config = .ok options) :
    ∃ bound metaTags, given.bound? config = some bound ∧ 1 ≤ bound.value ∧
      config.shownValues.any Toml.Value.isTooLong = false ∧
      given.metaTags.mapM metaOf = .ok metaTags ∧
      options = {
        input := given.inputPath
        output := match given.output with
          | some (c :: rest) => some (.ofText (c :: rest))
          | _ => none
        bound
        inlineOnly := given.inlineOnly
        standalone := given.standalone || config.standalone
        title := given.title <|> config.title?.map fun value => .value (Text.wide value.shown)
        language :=
          given.language <|> config.language?.map fun value => .value (Text.wide value.shown)
        styles := config.styles.map (fun value => .value (Text.wide value.shown)) ++ given.styles
        metaTags :=
          config.metaTags.map (fun (name, value) => (Text.wide name, Text.wide value.shown)) ++
            metaTags
        verbose := given.verbose } := by
  rw [Options.resolve] at resolved
  cases bounded : given.bound? config with
  | none =>
    rw [bounded] at resolved
    cases resolved
  | some bound =>
    rw [bounded] at resolved
    change (if bound.value < 1 then _ else _) = _ at resolved
    split at resolved
    · cases resolved
    · next low =>
      change (if config.shownValues.any Toml.Value.isTooLong = true then _ else _) = _ at resolved
      split at resolved
      · cases resolved
      · next short =>
        cases parsed : given.metaTags.mapM metaOf with
        | error error =>
          rw [parsed] at resolved
          cases resolved
        | ok metaTags =>
          rw [parsed] at resolved
          exact ⟨bound, metaTags, rfl, by omega, Bool.eq_false_iff.2 short, rfl,
            (Except.ok.inj resolved).symm⟩

theorem Compilation.convert_ne_limit {σ : Type} {options : CompileOptions σ}
    (enough : 1 ≤ options.limit.value) (source : Text) (error : LimitError) :
    (Compilation.convert options source).2 ≠ .error (.limit error) := by
  have created : Converter.create options.limit = .ok ⟨options.limit, .empty⟩ :=
    if_neg (Int.not_lt.2 enough)
  rw [convert, created]
  dsimp only
  split
  · nofun
  · dsimp only
    cases (convertDocument ⟨options.limit, .empty⟩ source).2 <;> nofun

namespace Command

structure Started (files : Files) (arguments : List WideText) (given : Given)
    (options : Options) : Prop where
  request : Request.ofArguments arguments = .ok (.run given)
  loaded : loadOptions files given = .ok options

/-- The compilation of a source under the options of a run. -/
def compilation (capacity : Nat) (options : Options) (source : Text) : Compilation CodePoint :=
  compile (options.compileOptions capacity) source options.inputName

/-- What a run tells while it compiles a source. -/
def told (capacity : Nat) (options : Options) (source : Text) : Text :=
  eventLines options.verbose (compilation capacity options source).events

structure Compiled (capacity : Nat) (files : Files) (input : List UInt8)
    (arguments : List WideText) (given : Given) (options : Options) (source : Text)
    (result : Except CompileError WideText) : Prop
    extends Started files arguments given options where
  read : readSource files input options = .ok source
  result : (compilation capacity options source).result = result

structure Finished (capacity : Nat) (files : Files) (input : List UInt8)
    (arguments : List WideText) (given : Given) (options : Options) (source : Text)
    (result : WideText) : Prop
    extends Compiled capacity files input arguments given options source (.ok result) where
  styled : (options.standalone && options.styles.contains .nothing) = false

inductive Course (capacity : Nat) (files : Files) (input : List UInt8)
    (arguments : List WideText) : Outcome → Prop where
  | misused {error : UsageError} (request : Request.ofArguments arguments = .error error) :
    Course capacity files input arguments (misusedOutcome error)
  | helped (request : Request.ofArguments arguments = .ok .help) :
    Course capacity files input arguments ⟨.helped, help, [], none⟩
  | refused {given : Given} {error : OptionsError}
      (request : Request.ofArguments arguments = .ok (.run given))
      (loaded : loadOptions files given = .error (.inl error)) :
    Course capacity files input arguments
      (Outcome.silent (.refused error) (errorLine error.message))
  | unconfigured {given : Given} {failure : Failure}
      (request : Request.ofArguments arguments = .ok (.run given))
      (loaded : loadOptions files given = .error (.inr failure)) :
    Course capacity files input arguments (Outcome.silent (.failed failure) [])
  | unread {given : Given} {options : Options} {failure : Failure}
      (started : Started files arguments given options)
      (read : readSource files input options = .error failure) :
    Course capacity files input arguments (unreadableOutcome failure)
  | tooDeep {given : Given} {options : Options} {source : Text} {error : NestingError}
      (compiled : Compiled capacity files input arguments given options source
        (.error (.nesting error))) :
    Course capacity files input arguments (Outcome.silent (.tooDeep error)
      (told capacity options source ++ error.report options.inputName ++ ['\n']))
  | unstyled {given : Given} {options : Options} {source : Text} {result : WideText}
      (compiled : Compiled capacity files input arguments given options source (.ok result))
      (unstyled : options.standalone && options.styles.contains .nothing) :
    Course capacity files input arguments
      (Outcome.silent (.failed .styleOfNothing) (told capacity options source))
  | unprintable {given : Given} {options : Options} {source : Text} {result : WideText}
      {fault : EncodingFault}
      (finished : Finished capacity files input arguments given options source result)
      (unnamed : options.output = none) (encoded : result.toText = .error fault) :
    Course capacity files input arguments
      (Outcome.silent (.failed (.unencodable fault)) (told capacity options source))
  | printed {given : Given} {options : Options} {source html : Text} {result : WideText}
      (finished : Finished capacity files input arguments given options source result)
      (unnamed : options.output = none) (encoded : result.toText = .ok html) :
    Course capacity files input arguments
      ⟨.done, printed html, told capacity options source, none⟩
  | unopened {given : Given} {options : Options} {source : Text} {result : WideText}
      {path : Path} {fault : FileFault}
      (finished : Finished capacity files input arguments given options source result)
      (named : options.output = some path) (closed : files.openFault? path = some fault) :
    Course capacity files input arguments
      (Outcome.silent (.failed (.file fault)) (told capacity options source))
  /-- The file is open, and thereby empty, when the result turns out to have no octets. -/
  | emptied {given : Given} {options : Options} {source : Text} {result : WideText}
      {path : Path} {fault : EncodingFault}
      (finished : Finished capacity files input arguments given options source result)
      (named : options.output = some path) (opened : files.openFault? path = none)
      (encoded : result.toText = .error fault) :
    Course capacity files input arguments
      ⟨.failed (.unencodable fault), [], told capacity options source, some (path, [])⟩
  | brokenOff {given : Given} {options : Options} {source html : Text} {result : WideText}
      {path : Path} {count : Nat} {fault : DeviceFault}
      (finished : Finished capacity files input arguments given options source result)
      (named : options.output = some path) (opened : files.openFault? path = none)
      (encoded : result.toText = .ok html)
      (stored : files.storeFault? path (Digest.octets html) = some (count, fault)) :
    Course capacity files input arguments
      ⟨.failed (.device fault), [], told capacity options source,
        some (path, (Digest.octets html).take count)⟩
  | written {given : Given} {options : Options} {source html : Text} {result : WideText}
      {path : Path}
      (finished : Finished capacity files input arguments given options source result)
      (named : options.output = some path) (opened : files.openFault? path = none)
      (encoded : result.toText = .ok html)
      (stored : files.storeFault? path (Digest.octets html) = none) :
    Course capacity files input arguments
      ⟨.done, [], told capacity options source, some (path, Digest.octets html)⟩

variable {capacity : Nat} {files : Files} {input : List UInt8} {arguments : List WideText}
  {given : Given} {options : Options} {source : Text} {result : WideText}

theorem exists_resolve_of_loadOptions (loaded : loadOptions files given = .ok options) :
    ∃ config, Options.resolve given config = .ok options := by
  rw [loadOptions] at loaded
  cases read : loadConfig files given.configPath with
  | error fault =>
    rw [read] at loaded
    cases loaded
  | ok config =>
    rw [read] at loaded
    exact ⟨config, loaded⟩

/-- The bound of a run lets every source be compiled, if only its nesting is not too deep. -/
theorem result_ne_limit (loaded : loadOptions files given = .ok options) (source : Text)
    (error : LimitError) : (compilation capacity options source).result ≠ .error (.limit error) := by
  obtain ⟨config, resolved⟩ := exists_resolve_of_loadOptions loaded
  obtain ⟨bound, _, _, enough, _, _, same⟩ := resolve_eq_ok resolved
  have sufficient : 1 ≤ (options.compileOptions capacity).limit.value := same ▸ enough
  have converted := Compilation.convert_ne_limit sufficient source error
  intro impossible
  rw [compilation, compile] at impossible
  dsimp only at impossible
  cases html : (Compilation.convert (options.compileOptions capacity) source).2 with
  | error other =>
    rw [html] at impossible
    exact converted (html.trans (congrArg Except.error (Except.error.inj impossible)))
  | ok text =>
    rw [html] at impossible
    cases impossible

theorem compileSource_of_error {error : NestingError}
    (failed : (compilation capacity options source).result = .error (.nesting error)) :
    compileSource capacity files options source = Outcome.silent (.tooDeep error)
      (told capacity options source ++ error.report options.inputName ++ ['\n']) := by
  rw [compilation] at failed
  dsimp only [compileSource, told, compilation]
  rw [failed]

theorem compileSource_of_ok (done : (compilation capacity options source).result = .ok result) :
    compileSource capacity files options source =
      if options.standalone && options.styles.contains .nothing then
        Outcome.silent (.failed .styleOfNothing) (told capacity options source)
      else deliver files options (told capacity options source) result := by
  rw [compilation] at done
  dsimp only [compileSource, told, compilation]
  rw [done]

theorem course_deliver
    (finished : Finished capacity files input arguments given options source result) :
    Course capacity files input arguments
      (deliver files options (told capacity options source) result) := by
  rw [deliver]
  cases named : options.output with
  | none =>
    dsimp only [print]
    cases encoded : result.toText with
    | error fault => exact .unprintable finished named encoded
    | ok html => exact .printed finished named encoded
  | some path =>
    dsimp only
    cases opened : files.openFault? path with
    | some fault => exact .unopened finished named opened
    | none =>
      dsimp only [store]
      cases encoded : result.toText with
      | error fault => exact .emptied finished named opened encoded
      | ok html =>
        dsimp only
        cases stored : files.storeFault? path (Digest.octets html) with
        | none => exact .written finished named opened encoded stored
        | some broken => exact .brokenOff finished named opened encoded stored

theorem course_compileSource (started : Started files arguments given options)
    (read : readSource files input options = .ok source) :
    Course capacity files input arguments (compileSource capacity files options source) := by
  cases result : (compilation capacity options source).result with
  | error error =>
    cases error with
    | limit error => exact absurd result (result_ne_limit started.loaded source error)
    | nesting error =>
      rw [compileSource_of_error result]
      exact .tooDeep ⟨started, read, result⟩
  | ok text =>
    have compiled : Compiled capacity files input arguments given options source (.ok text) :=
      ⟨started, read, result⟩
    rw [compileSource_of_ok result]
    split
    · next unstyled => exact .unstyled compiled unstyled
    · next styled => exact course_deliver ⟨compiled, Bool.eq_false_iff.2 styled⟩

/-- Every run takes one of these courses. -/
theorem course_run (capacity : Nat) (files : Files) (input : List UInt8)
    (arguments : List WideText) :
    Course capacity files input arguments (run capacity files input arguments) := by
  rw [run]
  cases request : Request.ofArguments arguments with
  | error error => exact .misused request
  | ok asked =>
    cases asked with
    | help => exact .helped request
    | run given =>
      dsimp only [runRequest]
      cases loaded : loadOptions files given with
      | error fault =>
        cases fault with
        | inl error => exact .refused request loaded
        | inr failure => exact .unconfigured request loaded
      | ok options =>
        have started : Started files arguments given options := ⟨request, loaded⟩
        dsimp only [runOptions]
        cases read : readSource files input options with
        | error failure => exact .unread started read
        | ok source => exact course_compileSource started read

end Command

end Markdown
