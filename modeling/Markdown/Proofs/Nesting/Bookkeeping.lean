import Markdown.Proofs.Nesting.Trail

set_option autoImplicit false

namespace Markdown

namespace Render

variable {α β : Type} {limit : Limit} {progress : Progress} {depth : Nat}

theorem run_bind_eq_ok {first : Render α} {rest : α → Render β} {value : β} {last : Progress}
    (run : (first >>= rest).run progress = (.ok value, last)) :
    ∃ found middle, first.run progress = (.ok found, middle) ∧
      (rest found).run middle = (.ok value, last) := by
  rw [run_bind] at run
  cases early : first.run progress with
  | mk result middle =>
    rw [early] at run
    cases result with
    | error error => cases run
    | ok found => exact ⟨found, middle, rfl, run⟩

/-- The run of the rendering has a trail. -/
def Traced (limit : Limit) (body : Render α) (progress : Progress) : Prop :=
  ∃ visited, Trail limit body progress visited (body.run progress)

namespace Traced

theorem bind {first : Render α} {rest : α → Render β} (early : Traced limit first progress)
    (late : ∀ value later, first.run progress = (.ok value, later) →
      Traced limit (rest value) later) : Traced limit (first >>= rest) progress := by
  obtain ⟨visited, trail⟩ := early
  rw [Traced, run_bind]
  cases run : first.run progress with
  | mk result later =>
    rw [run] at trail
    cases result with
    | error error => exact ⟨visited, .stop trail⟩
    | ok value =>
      obtain ⟨more, after⟩ := late value later run
      exact ⟨visited ++ more, .next trail after⟩

/-- Where a nested rendering returns, its level was entered. -/
theorem nested {body : Render α} (inside : ∀ inner, progress.level.enter limit = .ok inner →
      Traced limit body { progress with level := inner }) :
    ∃ visited, Trail limit (Render.nested limit body) progress visited
        ((Render.nested limit body).run progress) ∧
      ∀ value, ((Render.nested limit body).run progress).1 = .ok value → visited ≠ [] := by
  cases opened : progress.level.enter limit with
  | error error =>
    rw [run_nested_error opened]
    exact ⟨[], .refused opened, fun value done => nomatch done⟩
  | ok inner =>
    obtain ⟨visited, trail⟩ := inside inner opened
    rw [run_nested opened]
    exact ⟨_, .entered opened trail, fun _ _ => List.cons_ne_nil _ _⟩

theorem tryCatch {body : Render α} {handler : NestingError → Render α}
    (first : Traced limit body progress)
    (second : ∀ error later, body.run progress = (.error error, later) →
      Traced limit (handler error) later) :
    Traced limit (MonadExcept.tryCatch body handler) progress := by
  obtain ⟨visited, trail⟩ := first
  rw [Traced, run_tryCatch]
  cases run : body.run progress with
  | mk result later =>
    rw [run] at trail
    cases result with
    | ok value => exact ⟨visited, .fine trail⟩
    | error error =>
      obtain ⟨more, after⟩ := second error later run
      exact ⟨visited ++ more, .caught trail after⟩

end Traced

/-- On its way the rendering keeps account of the levels, and when it fails it has opened all levels
up to the limit and asked for one more. -/
def KeepsLevels (limit : Limit) (body : Render α) (progress : Progress) : Prop :=
  ∃ visited, Trail limit body progress visited (body.run progress) ∧
    progress.level.Kept limit visited (body.run progress).2.level ∧
    ∀ error, (body.run progress).1 = .error error →
      (body.run progress).2.level.deepest = limit.value ∧
        error = .pastLimit limit.bound ((body.run progress).2.level.deepest + 1)

theorem Traced.keepsLevels {body : Render α} (traced : Traced limit body progress)
    (sound : progress.level.Sound limit) : KeepsLevels limit body progress :=
  let ⟨visited, trail⟩ := traced
  ⟨visited, trail, trail.kept sound, trail.failed sound⟩

theorem KeepsLevels.kept {body : Render α} {last : Progress} {result : Except NestingError α}
    (keeps : KeepsLevels limit body progress) (run : body.run progress = (result, last)) :
    last.level.depth = progress.level.depth ∧ last.level.Sound limit ∧
      progress.level.deepest ≤ last.level.deepest := by
  obtain ⟨visited, -, kept, -⟩ := keeps
  rw [run] at kept
  exact ⟨kept.back, kept.sound_last, kept.deepest_le _ List.mem_cons_self⟩

/-- From the given depth, the run of the rendering has a trail. -/
def Trailed (limit : Limit) (depth : Nat) (body : Render α) : Prop :=
  ∀ progress, progress.level.depth = depth → progress.level.Sound limit → Traced limit body progress

/-- From the given depth, the run of the rendering has a trail, on which a level is entered if
anything is returned. -/
def Opening (limit : Limit) (depth : Nat) (body : Render α) : Prop :=
  ∀ progress, progress.level.depth = depth → progress.level.Sound limit →
    ∃ visited, Trail limit body progress visited (body.run progress) ∧
      ∀ value, (body.run progress).1 = .ok value → visited ≠ []

theorem Opening.trailed {body : Render α} (opening : Opening limit depth body) :
    Trailed limit depth body := fun progress here sound =>
  let ⟨visited, trail, _⟩ := opening progress here sound
  ⟨visited, trail⟩

namespace Trailed

theorem of_still {body : Render α} (still : body.Still) : Trailed limit depth body :=
  fun progress _ _ => ⟨[], .still still progress⟩

theorem pure (value : α) : Trailed limit depth (Pure.pure value) :=
  of_still fun progress => ⟨value, progress, rfl, rfl⟩

theorem setAside (fragment : Text) : Trailed limit depth (Render.setAside fragment) :=
  of_still fun _ => ⟨_, _, rfl, rfl⟩

theorem finish (text : Text) : Trailed limit depth (Render.finish text) :=
  of_still fun _ => ⟨_, _, rfl, rfl⟩

theorem protectHtml (text : Text) : Trailed limit depth (Render.protectHtml text) :=
  of_still fun _ => ⟨_, _, rfl, rfl⟩

theorem paragraphs (references : ReferenceTable) (text : Text) :
    Trailed limit depth (Block.renderParagraphs references text) :=
  of_still fun _ => ⟨_, _, rfl, rfl⟩

theorem bind {first : Render α} {rest : α → Render β} (early : Trailed limit depth first)
    (late : ∀ value, Trailed limit depth (rest value)) : Trailed limit depth (first >>= rest) := by
  intro progress here sound
  have begun := early progress here sound
  refine begun.bind fun value later done => ?_
  obtain ⟨visited, trail⟩ := begun
  have kept := trail.kept sound
  rw [done] at kept
  exact late value later (kept.back.trans here) kept.sound_last

theorem nested {body : Render α} (inside : depth < limit.value → Trailed limit (depth + 1) body) :
    Opening limit depth (Render.nested limit body) := by
  intro progress here sound
  refine Traced.nested fun inner opened => ?_
  obtain ⟨below, rfl⟩ := Level.enter_eq_ok opened
  exact inside (by omega) _ (congrArg (· + 1) here) (sound.deeper below)

theorem mapM {ι : Type} {body : ι → Render α} (each : ∀ item, Trailed limit depth (body item))
    (items : List ι) : Trailed limit depth (items.mapM body) := by
  induction items with
  | nil =>
    rw [List.mapM_nil]
    exact .pure _
  | cons item rest ih =>
    rw [List.mapM_cons]
    exact (each item).bind fun _ => ih.bind fun _ => .pure _

theorem replaceM {slot : Type} [DecidableEq slot] (pattern : Pattern slot)
    {replacement : Match slot → Render Text}
    (each : ∀ found, Trailed limit depth (replacement found)) (text : Text) : Trailed limit depth (pattern.replaceM replacement text) := by
  refine (mapM (fun segment => ?_) _).bind fun _ => .pure _
  cases segment with
  | plain c => exact .pure _
  | found m => exact each m

variable {setting : Setting} {interior : Interior}

section

variable (blocks : ∀ inList text, Trailed limit depth (interior.blocks inList text))
include blocks

theorem quotes (text : Text) : Trailed limit depth (Quote.render interior text) :=
  replaceM _ (fun _ => ((blocks _ _).bind fun _ => .pure _).bind fun _ => .setAside _) text

variable (lists : ∀ text, Trailed limit depth (interior.lists text))
include lists

theorem itemContent (found : Match Listing.Part) :
    Trailed limit depth (Listing.itemContent setting interior found) := by
  rw [Listing.itemContent]
  split
  · exact blocks _ _
  · exact (lists _).bind fun _ => .finish _

theorem nestedLists (inList : Bool) (text : Text) :
    Trailed limit depth (Listing.render setting interior inList text) := by
  refine replaceM _ (fun found => bind ?_ fun _ => .setAside _) text
  exact (replaceM _ (fun item => (itemContent blocks lists item).bind fun _ => .pure _) _).bind
    fun _ => .pure _

theorem level (inList : Bool) (text : Text) :
    Trailed limit depth (Block.renderLevel setting interior inList text) := by
  have headings : ∀ text, Trailed limit depth (Heading.render setting.references text) :=
    fun text => (replaceM _ (fun _ => .setAside _) text).bind fun _ =>
      replaceM _ (fun _ => .setAside _) _
  have rules : ∀ text, Trailed limit depth (Heading.renderRules text) :=
    replaceM _ fun _ => .setAside _
  have code : ∀ text, Trailed limit depth (CodeBlock.render text) := replaceM _ fun _ => .setAside _
  rw [Block.renderLevel]
  exact (headings text).bind fun _ => (rules _).bind fun _ =>
    (nestedLists blocks lists inList _).bind fun _ => (code _).bind fun _ =>
      (quotes blocks _).bind fun _ => (protectHtml _).bind fun _ => paragraphs _ _

end

/-- By induction on the levels that are left: they do not give out below the limit. -/
theorem interiors (setting : Setting) (left depth : Nat)
    (room : setting.limit.value ≤ depth + left) :
    (∀ inList text,
      Opening setting.limit depth ((Block.interior setting left).blocks inList text)) ∧
    ∀ text, Opening setting.limit depth ((Block.interior setting left).lists text) := by
  induction left generalizing depth with
  | zero =>
    refine ⟨fun inList text => ?_, fun text => ?_⟩
    · rw [Block.blocks_zero]
      exact nested fun below => absurd below (by omega)
    · rw [Block.lists_zero]
      exact nested fun below => absurd below (by omega)
  | succ left ih =>
    obtain ⟨blocks, lists⟩ := ih (depth + 1) (by omega)
    refine ⟨fun inList text => ?_, fun text => ?_⟩
    · rw [Block.blocks_succ]
      exact nested fun _ => level (fun _ _ => (blocks _ _).trailed) (fun _ => (lists _).trailed) _ _
    · rw [Block.lists_succ]
      exact nested fun _ =>
        nestedLists (fun _ _ => (blocks _ _).trailed) (fun _ => (lists _).trailed) _ _

end Trailed

end Render

namespace Nesting

/-- Levels that are entered and left again in turn. What fails in a level that is only attempted is
passed over. -/
inductive Brackets where
  | done
  | nest (inner rest : Brackets)
  | attempt (inner rest : Brackets)

def Brackets.run (limit : Limit) : Brackets → Render Unit
  | .done => pure ()
  | .nest inner rest => do
    Render.nested limit (inner.run limit)
    rest.run limit
  | .attempt inner rest => do
    tryCatch (Render.nested limit (inner.run limit)) fun _ => pure ()
    rest.run limit

theorem still_done (limit : Limit) : (Brackets.run limit .done).Still :=
  fun progress => ⟨(), progress, rfl, rfl⟩

theorem traced_attempt {limit : Limit} {body : Render Unit} {progress : Progress}
    (inside : ∀ progress, Render.Traced limit body progress) :
    Render.Traced limit (tryCatch (Render.nested limit body) fun _ => pure ()) progress := by
  obtain ⟨visited, trail, _⟩ := Render.Traced.nested fun level _ => inside { progress with level }
  exact Render.Traced.tryCatch ⟨visited, trail⟩ fun _ last _ => ⟨[], .still (still_done limit) last⟩

theorem traced_brackets (limit : Limit) (brackets : Brackets) (progress : Progress) :
    Render.Traced limit (brackets.run limit) progress := by
  induction brackets generalizing progress with
  | done => exact ⟨[], .still (still_done limit) progress⟩
  | nest inner rest inside later =>
    obtain ⟨visited, trail, _⟩ := Render.Traced.nested fun level _ => inside { progress with level }
    exact Render.Traced.bind ⟨visited, trail⟩ fun _ last _ => later last
  | attempt inner rest inside later =>
    exact (traced_attempt inside).bind fun _ last _ => later last

/-- One of the outermost levels is not only attempted. -/
def Brackets.insists : Brackets → Bool
  | .done => false
  | .nest _ _ => true
  | .attempt _ rest => rest.insists

/-- Levels that are not only attempted are entered if they come to their end. -/
theorem deepest_of_insists {limit : Limit} {brackets : Brackets} {progress last : Progress}
    (sound : progress.level.Sound limit) (insists : brackets.insists = true)
    (run : (brackets.run limit).run progress = (.ok (), last)) :
    progress.level.depth + 1 ≤ last.level.deepest := by
  induction brackets generalizing progress with
  | done => cases insists
  | nest inner rest _ _ =>
    obtain ⟨value, middle, first, second⟩ := Render.run_bind_eq_ok run
    obtain ⟨visited, trail, entered⟩ :=
      Render.Traced.nested fun level _ => traced_brackets limit inner { progress with level }
    have kept := trail.kept sound
    rw [first] at kept entered
    have rises := (traced_brackets limit rest middle).keepsLevels kept.sound_last
    exact Nat.le_trans (kept.opened (entered value rfl)) (rises.kept second).2.2
  | attempt inner rest _ later =>
    obtain ⟨value, middle, first, second⟩ := Render.run_bind_eq_ok run
    have passed := (traced_attempt (traced_brackets limit inner)).keepsLevels sound
    obtain ⟨back, within, _⟩ := passed.kept first
    rw [← back]
    exact later within insists second

/-- Whatever text is rendered, in whatever state, the levels are accounted for: each that is entered
is left again, also when the rendering fails at any level further in; on the way no more levels are
open than the most there have been, these never get fewer and never pass the limit. What is returned
has opened a level, and what fails has opened all up to the limit. The same holds of all sequences
of levels that are entered and left again. -/
theorem render_keepsLevels :
    (∀ (setting : Setting) (inList : Bool) (text : Text) (progress : Progress),
      progress.level.Sound setting.limit → setting.limit.value ≤ setting.limit.capacity →
      Render.KeepsLevels setting.limit (Block.render setting inList text) progress ∧
        ∀ html last, (Block.render setting inList text).run progress = (.ok html, last) →
          progress.level.depth + 1 ≤ last.level.deepest) ∧
    ∀ (limit : Limit) (brackets : Brackets) (progress : Progress), progress.level.Sound limit →
      Render.KeepsLevels limit (brackets.run limit) progress ∧
        ∀ last, brackets.insists = true → (brackets.run limit).run progress = (.ok (), last) →
          progress.level.depth + 1 ≤ last.level.deepest := by
  constructor
  · intro setting inList text progress sound capable
    obtain ⟨blocks, -⟩ := Render.Trailed.interiors setting setting.limit.capacity
      progress.level.depth (by omega)
    obtain ⟨visited, trail, entered⟩ := blocks inList text progress rfl sound
    have kept := trail.kept sound
    refine ⟨⟨visited, trail, kept, trail.failed sound⟩, fun html last run => ?_⟩
    have opened := kept.opened (entered html (congrArg Prod.fst run))
    rwa [show (Block.interior setting setting.limit.capacity).blocks inList text =
      Block.render setting inList text from rfl, run] at opened
  · intro limit brackets progress sound
    exact ⟨(traced_brackets limit brackets progress).keepsLevels sound,
      fun last insists run => deepest_of_insists sound insists run⟩

/-- A list in a quote opens three levels, so with a limit of two it fails in the middle of both. A
level that is attempted at the limit leaves no trace. -/
theorem render_keepsLevels_quote :
    (∃ last, (Block.render ⟨.empty, .levels 2⟩ false "> * a".toList).run .start =
      (.error (.pastLimit (.levels 2) 3), last) ∧ last.level = ⟨0, 2⟩) ∧
    (∃ html last, (Block.render ⟨.empty, .levels 3⟩ false "> * a".toList).run .start =
      (.ok html, last) ∧ last.level.depth = 0 ∧ 1 ≤ last.level.deepest) ∧
    ∃ last, (Brackets.run (.levels 1) (.nest (.attempt .done .done) .done)).run .start =
      (.ok (), last) ∧ last.level.depth = 0 ∧ 1 ≤ last.level.deepest := by
  have sound : ∀ count : Nat, Progress.start.level.Sound (.levels count) := fun count =>
    ⟨Nat.le_refl 0, Int.natCast_nonneg count⟩
  refine ⟨?_, ?_, ?_⟩
  · obtain ⟨⟨_, _, kept, failed⟩, -⟩ := render_keepsLevels.1 ⟨.empty, .levels 2⟩ false
      "> * a".toList .start (sound 2) (by decide)
    have refused : ((Block.render ⟨.empty, .levels 2⟩ false "> * a".toList).run
        .start).1.toOption = none := by decide +kernel
    generalize (Block.render ⟨.empty, .levels 2⟩ false "> * a".toList).run .start = outcome at *
    obtain ⟨error | html, fragments, depth, deepest⟩ := outcome
    · obtain ⟨full, same⟩ := failed error rfl
      obtain rfl : depth = 0 := kept.back
      obtain rfl : deepest = 2 := Int.ofNat.inj full
      exact ⟨_, Prod.ext (congrArg Except.error same) rfl, rfl⟩
    · cases refused
  · obtain ⟨keeps, opened⟩ := render_keepsLevels.1 ⟨.empty, .levels 3⟩ false "> * a".toList .start
      (sound 3) (by decide)
    have done : ((Block.render ⟨.empty, .levels 3⟩ false "> * a".toList).run
        .start).1.toOption.isSome = true := by decide +kernel
    cases run : (Block.render ⟨.empty, .levels 3⟩ false "> * a".toList).run .start with
    | mk result last =>
      rw [run] at done
      cases result with
      | error error => cases done
      | ok html => exact ⟨html, last, rfl, (keeps.kept run).1, opened html last run⟩
  · obtain ⟨keeps, opened⟩ := render_keepsLevels.2 (.levels 1) (.nest (.attempt .done .done) .done)
      .start (sound 1)
    exact ⟨_, rfl, (keeps.kept rfl).1, opened _ rfl rfl⟩

end Nesting

end Markdown
