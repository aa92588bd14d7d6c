import Markdown.Proofs.Command.Plain

set_option autoImplicit false

namespace Markdown

namespace Disk

variable {disk : Disk} {path : Path} {place start : List EntryName} {entry : Option DiskEntry}

theorem get?_put_self (disk : Disk) (place : List EntryName) (entry : DiskEntry) :
    (disk.put place entry).get? place = some entry := by
  have absent : (disk.entries.filter (·.1 != place)).find? (fun kept => kept.1 == place) = none := by
    simp
  rw [get?, put, List.find?_append, absent]
  simp

theorem get?_put_of_ne {other : List EntryName} (apart : other ≠ place) (entry : DiskEntry) :
    (disk.put place entry).get? other = disk.get? other := by
  have spared : ∀ entries : List (List EntryName × DiskEntry),
      (entries.filter (·.1 != place)).find? (fun kept => kept.1 == other) =
        entries.find? fun kept => kept.1 == other := by
    intro entries
    rw [List.find?_filter]
    refine congrArg (entries.find? ·) (funext fun kept => ?_)
    by_cases same : kept.1 = other
    · simp [same, apart]
    · simp [same]
  have added : [(place, entry)].find? (fun kept => kept.1 == other) = none := by
    simpa using Ne.symm apart
  rw [get?, put, List.find?_append, added, Option.or_none, spared, get?]

/-- What one name makes of a walk: it stays, goes up, goes into a directory, or ends at what stands
there. -/
theorem walk_cons_eq_ok {name : EntryName} {rest : List EntryName}
    (leads : disk.walk (name :: rest) start = .ok (place, entry)) :
    (name = [dot] ∧ disk.walk rest start = .ok (place, entry)) ∨
    (name = [dot, dot] ∧ disk.walk rest start.dropLast = .ok (place, entry)) ∨
    ((name ≠ [dot] ∧ name ≠ [dot, dot] ∧ name.length ≤ longestName) ∧
      ((disk.get? (start ++ [name]) = some .directory ∧
          disk.walk rest (start ++ [name]) = .ok (place, entry)) ∨
        (rest = [] ∧ place = start ++ [name] ∧ disk.get? place = entry))) := by
  rw [walk] at leads
  split at leads
  · next stays => exact .inl ⟨stays, leads⟩
  · next moves =>
    split at leads
    · next up => exact .inr (.inl ⟨up, leads⟩)
    · next down =>
      split at leads
      · cases leads
      · next short =>
        refine .inr (.inr ⟨⟨moves, down, Nat.not_lt.1 short⟩, ?_⟩)
        dsimp only at leads
        split at leads
        · next found => exact .inl ⟨found, leads⟩
        all_goals
          next found =>
          split at leads
          · next last =>
            obtain ⟨rfl, rfl⟩ := Prod.mk.inj (Except.ok.inj leads)
            exact .inr ⟨List.isEmpty_iff.1 last, rfl, found⟩
          · cases leads

/-- What a walk meets at its end stands there, unless it is the directory of a walk that names
nothing more. -/
theorem get?_of_walk {names : List EntryName}
    (leads : disk.walk names start = .ok (place, entry)) (free : entry ≠ some .directory) :
    disk.get? place = entry := by
  induction names generalizing start with
  | nil =>
    rw [walk] at leads
    cases leads
    exact absurd rfl free
  | cons name rest ih =>
    obtain ⟨-, stays⟩ | ⟨-, up⟩ | ⟨-, ⟨-, onward⟩ | ⟨-, -, found⟩⟩ := walk_cons_eq_ok leads
    · exact ih stays
    · exact ih up
    · exact ih onward
    · exact found

/-- Only directories are passed on the way to a place, so a file that is put there does not lead the
way off. -/
theorem walk_put {names : List EntryName} (leads : disk.walk names start = .ok (place, entry))
    (free : entry ≠ some .directory) (content : List UInt8) :
    (disk.put place (.file content)).walk names start = .ok (place, some (.file content)) := by
  have stands := get?_of_walk leads free
  induction names generalizing start with
  | nil =>
    rw [walk] at leads
    cases leads
    exact absurd rfl free
  | cons name rest ih =>
    obtain ⟨rfl, stays⟩ | ⟨rfl, up⟩ | ⟨⟨moves, down, short⟩, met⟩ := walk_cons_eq_ok leads
    · rw [walk, if_pos rfl]
      exact ih stays
    · rw [walk, if_neg (by decide), if_pos rfl]
      exact ih up
    · rw [walk, if_neg moves, if_neg down, if_neg (Nat.not_lt.2 short)]
      dsimp only
      obtain ⟨found, onward⟩ | ⟨rfl, here, -⟩ := met
      · have apart : start ++ [name] ≠ place := by
          rintro rfl
          exact free (stands.symm.trans found)
        rw [get?_put_of_ne apart, found]
        exact ih onward
      · rw [← here, get?_put_self]
        rfl

/-- A path leads where its names lead, in every tree with the same directory at hand. -/
theorem exists_walk_of_resolve {found : List EntryName × Option DiskEntry}
    (leads : disk.resolve path = .ok found) :
    ∃ names start, disk.walk names start = .ok found ∧
      ∀ other : Disk, other.here = disk.here → other.resolve path = other.walk names start := by
  rw [resolve] at leads
  cases spelled : path.text.nameOctets with
  | error fault =>
    rw [spelled] at leads
    cases leads
  | ok octets =>
    rw [spelled] at leads
    change (if octets.contains 0 = true then _ else _) = _ at leads
    split at leads
    · cases leads
    · next whole =>
      change (if refusedLength ≤ octets.length then _ else _) = _ at leads
      split at leads
      · cases leads
      · next short =>
        refine ⟨_, _, leads, fun other same => ?_⟩
        rw [resolve, spelled]
        change (if octets.contains 0 = true then _ else _) = _
        rw [if_neg whole, if_neg short, same]

/-- A file with the content written under a path, and nothing else changed. -/
structure Writes (before : Disk) (path : Path) (content : List UInt8) (after : Disk) : Prop where
  free : before.openFault? path = none
  content : after.read path = .ok content
  others : ∀ other, (∀ entry, before.resolve path ≠ .ok (other, entry)) →
    after.get? other = before.get? other

theorem exists_resolve_of_openFault? (free : disk.openFault? path = none) :
    ∃ place entry, disk.resolve path = .ok (place, entry) ∧ entry ≠ some .directory := by
  rw [openFault?] at free
  split at free
  · cases free
  · next found shut leads =>
    refine ⟨found.1, found.2, leads, ?_⟩
    intro directory
    exact shut found.1 (by rw [← directory])
  · cases free

theorem writes_write (free : disk.openFault? path = none) (content : List UInt8) :
    disk.Writes path content (disk.write path content) := by
  obtain ⟨place, entry, leads, clear⟩ := exists_resolve_of_openFault? free
  have written : disk.write path content = disk.put place (.file content) := by rw [write, leads]
  rw [written]
  refine ⟨free, ?_, fun other elsewhere => get?_put_of_ne ?_ _⟩
  · obtain ⟨names, start, walked, everywhere⟩ := exists_walk_of_resolve leads
    have here : (disk.put place (.file content)).here = disk.here := rfl
    rw [read, everywhere _ here, walk_put walked clear]
  · rintro rfl
    exact elsewhere entry leads

def after (disk : Disk) (outcome : Outcome) : Disk :=
  match outcome.written with
  | none => disk
  | some (path, content) => disk.write path content

end Disk

/-- The file that the result is to be written to, if there is one. -/
def Given.outputPath (given : Given) : Option Path :=
  match given.output with
  | some (c :: rest) => some (.ofText (c :: rest))
  | _ => none

namespace Command

/-- The run that the arguments ask for gets as far as a result. -/
structure Converts (capacity : Nat) (files : Files) (input : List UInt8)
    (arguments : List WideText) (given : Given) (result : WideText) : Prop where
  request : Request.ofArguments arguments = .ok (.run given)
  result : ∃ options source, loadOptions files given = .ok options ∧
    readSource files input options = .ok source ∧
    (compile (options.compileOptions capacity) source options.inputName).result = .ok result

variable {capacity : Nat} {files : Files} {input : List UInt8} {arguments : List WideText}
  {given : Given} {options : Options} {source : Text} {result : WideText}

theorem Finished.converts
    (finished : Finished capacity files input arguments given options source result) :
    Converts capacity files input arguments given result :=
  ⟨finished.request, options, source, finished.loaded, finished.read, finished.result⟩

theorem output_eq_outputPath (loaded : loadOptions files given = .ok options) :
    options.output = given.outputPath := by
  obtain ⟨config, resolved⟩ := exists_resolve_of_loadOptions loaded
  obtain ⟨_, _, _, _, _, _, rfl⟩ := resolve_eq_ok resolved
  rfl

theorem printed_eq (html : Text) :
    printed html = html ++ if html = [] ∨ html.getLast? = some '\n' then [] else ['\n'] := by
  rw [printed]
  by_cases ended : html = [] ∨ html.getLast? = some '\n'
  · rw [if_pos ended, if_pos (by simpa using ended), List.append_nil]
  · rw [if_neg ended, if_neg (by simpa using ended)]

/-- A run has emptied the file that it is to write, since its result has surrogates and these have no
octets. -/
structure Empties (capacity : Nat) (disk : Disk) (input : List UInt8) (arguments : List WideText)
    (outcome : Outcome) (given : Given) (path : Path) : Prop where
  converts : ∃ result fault, Converts capacity disk.files input arguments given result ∧
    result.toText = .error fault ∧ outcome.ending = .failed (.unencodable fault)
  named : given.outputPath = some path
  writes : disk.Writes path [] (disk.after outcome)

/-- What an outcome of a run leaves behind. A run that does not succeed prints nothing and leaves
the tree as it was, unless its result has surrogates: its file is opened before that shows. A run
that succeeds shows how the command is used, or it has a result. The result is written to the file
that it is to be written to, and nothing is printed; or it is printed, ended by a newline unless it
is empty, and the tree stays as it was. -/
structure Delivers (capacity : Nat) (disk : Disk) (input : List UInt8)
    (arguments : List WideText) (outcome : Outcome) : Prop where
  failed : outcome.ending.status? ≠ some 0 → outcome.output = [] ∧
    (disk.after outcome = disk ∨
      ∃ given path, Empties capacity disk input arguments outcome given path)
  succeeded : outcome.ending.status? = some 0 →
    Request.ofArguments arguments = .ok .help ∧ disk.after outcome = disk ∨
      ∃ given result html, Converts capacity disk.files input arguments given result ∧
        result.toText = .ok html ∧
        match given.outputPath with
        | some path =>
          outcome.output = [] ∧ disk.Writes path (Digest.octets html) (disk.after outcome)
        | none =>
          outcome.output = html ++ (if html = [] ∨ html.getLast? = some '\n' then [] else ['\n']) ∧
            disk.after outcome = disk

variable {disk : Disk}

theorem Delivers.silent {ending : Ending} (failed : (ending.status? == some 0) = false)
    (errors : Text) : Delivers capacity disk input arguments (Outcome.silent ending errors) where
  failed _ := ⟨rfl, .inl rfl⟩
  succeeded success := absurd success (ne_of_beq_false failed)

theorem delivers_unreadable (failure : Failure) :
    Delivers capacity disk input arguments (unreadableOutcome failure) := by
  rw [unreadableOutcome.eq_def]
  split
  · split
    · exact .silent rfl _
    · exact .silent rfl _
  · exact .silent rfl _

theorem Delivers.of_course {outcome : Outcome}
    (course : Course capacity disk.files input arguments outcome) :
    Delivers capacity disk input arguments outcome := by
  cases course with
  | misused => exact .silent rfl _
  | helped request => exact ⟨fun failed => absurd rfl failed, fun _ => .inl ⟨request, rfl⟩⟩
  | refused => exact .silent rfl _
  | unconfigured => exact .silent rfl _
  | unread => exact delivers_unreadable _
  | tooDeep => exact .silent rfl _
  | unstyled => exact .silent rfl _
  | unprintable => exact .silent rfl _
  | @printed given options source html result finished unnamed encoded =>
    refine ⟨fun failed => absurd rfl failed,
      fun _ => .inr ⟨given, result, html, finished.converts, encoded, ?_⟩⟩
    rw [← output_eq_outputPath finished.loaded, unnamed]
    exact ⟨printed_eq html, rfl⟩
  | unopened => exact .silent rfl _
  | @emptied given options source result path fault finished named opened encoded =>
    refine ⟨fun _ => ⟨rfl, .inr ⟨given, path, ?_⟩⟩, fun success => by cases success⟩
    exact ⟨⟨result, fault, finished.converts, encoded, rfl⟩,
      (output_eq_outputPath finished.loaded).symm.trans named, Disk.writes_write opened _⟩
  | brokenOff _ _ _ _ stored => cases stored
  | @written given options source html result path finished named opened encoded stored =>
    refine ⟨fun failed => absurd rfl failed,
      fun _ => .inr ⟨given, result, html, finished.converts, encoded, ?_⟩⟩
    rw [← output_eq_outputPath finished.loaded, named]
    exact ⟨rfl, Disk.writes_write opened _⟩

/-- A result is made of characters if the arguments are. -/
theorem Converts.exists_toText (plain : ∀ argument ∈ arguments, argument.Plain)
    (converts : Converts capacity files input arguments given result) :
    ∃ html, result.toText = .ok html := by
  obtain ⟨options, source, loaded, -, done⟩ := converts.result
  obtain ⟨config, resolved⟩ := exists_resolve_of_loadOptions loaded
  exact exists_toText_of_compile
    (plain_head (Request.plain_ofArguments plain converts.request) resolved) done

/-- Whatever the files, the standard input and the arguments are, a run leaves behind all that it is
to deliver or nothing at all, or an empty file in the place of what cannot be encoded. That does not
happen where no surrogate is in the arguments. -/
theorem delivers_run (capacity : Nat) (disk : Disk) (input : List UInt8)
    (arguments : List WideText) :
    Delivers capacity disk input arguments (run capacity disk.files input arguments) ∧
      ((∀ argument ∈ arguments, argument.Plain) →
        (run capacity disk.files input arguments).ending.status? ≠ some 0 →
          (run capacity disk.files input arguments).output = [] ∧
            disk.after (run capacity disk.files input arguments) = disk) := by
  have delivers : Delivers capacity disk input arguments (run capacity disk.files input arguments) :=
    .of_course (course_run capacity disk.files input arguments)
  refine ⟨delivers, fun plain failed => ?_⟩
  obtain ⟨silent, same | ⟨given, path, emptied⟩⟩ := delivers.failed failed
  · exact ⟨silent, same⟩
  · obtain ⟨result, fault, converts, encoded, -⟩ := emptied.converts
    obtain ⟨html, chars⟩ := converts.exists_toText plain
    rw [encoded] at chars
    cases chars

/-- A title with a surrogate, where there are no files and any can be written. -/
example :
    let files : Files := ⟨fun _ => .ok false, fun path => .error ⟨.missing, path⟩, fun _ => none,
      fun _ _ => none⟩
    let title : WideText := [.surrogate 0x4ff]
    let file := Text.wide "out.html".toList
    (run 250 files [] ([Text.wide "--standalone".toList, Text.wide "--title".toList, title,
      Text.wide "-o".toList, file])).written = some (.ofText file, []) := by
  decide +kernel

end Command

end Markdown
