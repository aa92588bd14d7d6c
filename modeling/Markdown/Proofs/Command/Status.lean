import Markdown.Proofs.Command.Course

set_option autoImplicit false

namespace Markdown.Command

variable {capacity : Nat} {files : Files} {input : List UInt8} {arguments : List WideText}
  {given : Given} {options : Options} {source : Text} {result : WideText}

/-- What ends a run without an exit status. -/
inductive Unreported (capacity : Nat) (files : Files) (input : List UInt8)
    (arguments : List WideText) : Failure → Prop where
  | unconfigured {given : Given} {failure : Failure}
      (request : Request.ofArguments arguments = .ok (.run given))
      (loaded : loadOptions files given = .error (.inr failure)) :
    Unreported capacity files input arguments failure
  | undecodable {given : Given} {options : Options} {fault : Utf8.Fault}
      (started : Started files arguments given options)
      (read : readSource files input options = .error (.undecodable fault)) :
    Unreported capacity files input arguments (.undecodable fault)
  /-- The path of the input holds the null character or has no octets. -/
  | nameless {given : Given} {options : Options} {fault : FileFault}
      (started : Started files arguments given options)
      (read : readSource files input options = .error (.file fault))
      (wordless : FileFault.systemWords? fault.kind = none) :
    Unreported capacity files input arguments (.file fault)
  | unstyled {given : Given} {options : Options} {source : Text} {result : WideText}
      (compiled : Compiled capacity files input arguments given options source (.ok result))
      (unstyled : options.standalone && options.styles.contains .nothing) :
    Unreported capacity files input arguments .styleOfNothing
  | unopened {given : Given} {options : Options} {source : Text} {result : WideText}
      {path : Path} {fault : FileFault}
      (finished : Finished capacity files input arguments given options source result)
      (named : options.output = some path) (closed : files.openFault? path = some fault) :
    Unreported capacity files input arguments (.file fault)
  | unencodable {given : Given} {options : Options} {source : Text} {result : WideText}
      {fault : EncodingFault}
      (finished : Finished capacity files input arguments given options source result)
      (opened : ∀ path, options.output = some path → files.openFault? path = none)
      (encoded : result.toText = .error fault) :
    Unreported capacity files input arguments (.unencodable fault)
  | brokenOff {given : Given} {options : Options} {source html : Text} {result : WideText}
      {path : Path} {count : Nat} {fault : DeviceFault}
      (finished : Finished capacity files input arguments given options source result)
      (named : options.output = some path) (opened : files.openFault? path = none)
      (encoded : result.toText = .ok html)
      (stored : files.storeFault? path (Digest.octets html) = some (count, fault)) :
    Unreported capacity files input arguments (.device fault)

/-- There is no source because its file cannot be read or its octets cannot be decoded. -/
theorem cases_of_readSource {failure : Failure}
    (read : readSource files input options = .error failure) :
    (∃ fault, failure = .file fault) ∨ ∃ fault, failure = .undecodable fault := by
  have decoding : ∀ octets, (do
      let text ← (Utf8.decode octets).mapError Failure.undecodable
      pure (Text.unifyNewlines text) : Except Failure Text) = .error failure →
      ∃ fault, failure = .undecodable fault := by
    intro octets failed
    cases decoded : Utf8.decode octets with
    | error fault =>
      rw [decoded] at failed
      exact ⟨fault, (Except.error.inj failed).symm⟩
    | ok text =>
      rw [decoded] at failed
      cases failed
  rw [readSource] at read
  split at read
  · exact .inr (decoding input read)
  · next path named =>
    cases opened : files.read path with
    | error fault =>
      rw [opened] at read
      exact .inl ⟨fault, (Except.error.inj read).symm⟩
    | ok octets =>
      rw [opened] at read
      exact .inr (decoding octets read)

theorem run_of_request (request : Request.ofArguments arguments = .ok (.run given)) :
    run capacity files input arguments = runRequest capacity files input (.run given) := by
  rw [run, request]

theorem run_of_unconfigured {failure : Failure}
    (request : Request.ofArguments arguments = .ok (.run given))
    (loaded : loadOptions files given = .error (.inr failure)) :
    run capacity files input arguments = Outcome.silent (.failed failure) [] := by
  rw [run_of_request request, runRequest, loaded]
  rfl

theorem run_of_started (started : Started files arguments given options) :
    run capacity files input arguments = runOptions capacity files input options := by
  rw [run_of_request started.request, runRequest, started.loaded]

theorem run_of_unread {failure : Failure} (started : Started files arguments given options)
    (read : readSource files input options = .error failure) :
    run capacity files input arguments = unreadableOutcome failure := by
  rw [run_of_started started, runOptions, read]

theorem run_of_read (started : Started files arguments given options)
    (read : readSource files input options = .ok source) :
    run capacity files input arguments = compileSource capacity files options source := by
  rw [run_of_started started, runOptions, read]

theorem run_of_finished
    (finished : Finished capacity files input arguments given options source result) :
    run capacity files input arguments =
      deliver files options (told capacity options source) result := by
  rw [run_of_read finished.toStarted finished.read, compileSource_of_ok finished.result,
    if_neg (Bool.eq_false_iff.1 finished.styled)]

/-- A run ends without an exit status only for these causes. -/
theorem unreported_of_ending_run {failure : Failure}
    (failed : (run capacity files input arguments).ending = .failed failure) :
    Unreported capacity files input arguments failure := by
  have course := course_run capacity files input arguments
  generalize run capacity files input arguments = outcome at course failed
  cases course with
  | misused => cases failed
  | helped => cases failed
  | refused => cases failed
  | unconfigured request loaded =>
    cases failed
    exact .unconfigured request loaded
  | unread started read =>
    rcases cases_of_readSource read with ⟨fault, rfl⟩ | ⟨fault, rfl⟩
    · dsimp only [unreadableOutcome] at failed
      split at failed
      · cases failed
      · next wordless =>
        cases failed
        exact .nameless started read (Option.not_isSome_iff_eq_none.1 wordless)
    · cases failed
      exact .undecodable started read
  | tooDeep => cases failed
  | unstyled compiled unstyled =>
    cases failed
    exact .unstyled compiled unstyled
  | unprintable finished unnamed encoded =>
    cases failed
    refine .unencodable finished (fun path named => ?_) encoded
    rw [unnamed] at named
    cases named
  | printed => cases failed
  | unopened finished named closed =>
    cases failed
    exact .unopened finished named closed
  | emptied finished named opened encoded =>
    cases failed
    refine .unencodable finished (fun other same => ?_) encoded
    rw [named] at same
    rwa [← Option.some.inj same]
  | brokenOff finished named opened encoded stored =>
    cases failed
    exact .brokenOff finished named opened encoded stored
  | written => cases failed

theorem Unreported.ending_run {failure : Failure}
    (unreported : Unreported capacity files input arguments failure) :
    (run capacity files input arguments).ending = .failed failure := by
  cases unreported with
  | unconfigured request loaded => rw [run_of_unconfigured request loaded]; rfl
  | undecodable started read => rw [run_of_unread started read]; rfl
  | nameless started read wordless =>
    rw [run_of_unread started read, unreadableOutcome, wordless]
    rfl
  | unstyled compiled unstyled =>
    rw [run_of_read compiled.toStarted compiled.read, compileSource_of_ok compiled.result,
      if_pos unstyled]
    rfl
  | unopened finished named closed =>
    rw [run_of_finished finished, deliver, named]
    dsimp only
    rw [closed]
    rfl
  | @unencodable _ options _ _ _ finished opened encoded =>
    rw [run_of_finished finished, deliver]
    cases named : options.output with
    | none => dsimp only [print]; rw [encoded]; rfl
    | some path => dsimp only [store]; rw [opened path named, encoded]
  | brokenOff finished named opened encoded stored =>
    rw [run_of_finished finished, deliver, named]
    dsimp only [store]
    rw [opened, encoded]
    dsimp only
    rw [stored]

theorem ending_run_eq_failed_iff {failure : Failure} :
    (run capacity files input arguments).ending = .failed failure ↔
      Unreported capacity files input arguments failure :=
  ⟨unreported_of_ending_run, Unreported.ending_run⟩

/-- Every other run has one of the three statuses. -/
theorem status?_run_eq_none_iff :
    (run capacity files input arguments).ending.status? = none ↔
      ∃ failure, Unreported capacity files input arguments failure := by
  simp only [← ending_run_eq_failed_iff]
  generalize (run capacity files input arguments).ending = ending
  constructor
  · intro without
    cases ending with
    | failed failure => exact ⟨failure, rfl⟩
    | done | helped | misused _ | refused _ | tooDeep _ | unreadable _ => cases without
  · rintro ⟨failure, rfl⟩
    rfl

theorem status?_le_two {ending : Ending} {status : Nat} (known : ending.status? = some status) :
    status ≤ 2 := by
  cases ending <;> cases known <;> decide

/-- Nesting that is too deep gives the status one and is reported, whatever the run is to deliver. -/
theorem run_of_nestingError {error : NestingError}
    (compiled : Compiled capacity files input arguments given options source
      (.error (.nesting error))) :
    (run capacity files input arguments).ending.status? = some 1 ∧
      (run capacity files input arguments).errors =
        told capacity options source ++ error.report options.inputName ++ ['\n'] := by
  rw [run_of_read compiled.toStarted compiled.read, compileSource_of_error compiled.result]
  exact ⟨rfl, rfl⟩

/-- An input that the system does not give out gives the status one and is reported. -/
theorem run_of_fileFault {fault : FileFault} (started : Started files arguments given options)
    (read : readSource files input options = .error (.file fault))
    (worded : (FileFault.systemWords? fault.kind).isSome) :
    (run capacity files input arguments).ending.status? = some 1 ∧
      (run capacity files input arguments).errors = errorLine fault.message := by
  rw [run_of_unread started read, unreadableOutcome, if_pos worded]
  exact ⟨rfl, rfl⟩

/-- How runs end. One that ends without an exit status does so for a cause that is named, and every
other status is at most two. Nesting that is too deep and an input that the system does not give out
give the status one and are reported. -/
theorem status_run (capacity : Nat) (files : Files) (input : List UInt8)
    (arguments : List WideText) :
    (∀ failure, (run capacity files input arguments).ending = .failed failure ↔
      Unreported capacity files input arguments failure) ∧
    ((run capacity files input arguments).ending.status? = none ↔
      ∃ failure, Unreported capacity files input arguments failure) ∧
    (∀ status, (run capacity files input arguments).ending.status? = some status → status ≤ 2) ∧
    (∀ given options source error,
      Compiled capacity files input arguments given options source (.error (.nesting error)) →
        (run capacity files input arguments).ending.status? = some 1 ∧
          (run capacity files input arguments).errors =
            told capacity options source ++ error.report options.inputName ++ ['\n']) ∧
    ∀ given options fault, Started files arguments given options →
      readSource files input options = .error (.file fault) →
        (FileFault.systemWords? fault.kind).isSome →
          (run capacity files input arguments).ending.status? = some 1 ∧
            (run capacity files input arguments).errors = errorLine fault.message :=
  ⟨fun _ => ending_run_eq_failed_iff, status?_run_eq_none_iff, fun _ => status?_le_two,
    fun _ _ _ _ => run_of_nestingError, fun _ _ _ => run_of_fileFault⟩

end Markdown.Command
