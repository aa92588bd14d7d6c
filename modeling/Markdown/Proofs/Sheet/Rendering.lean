import Markdown.Proofs.Sheet.Expansion
import Markdown.Proofs.Sheet.Inline

set_option autoImplicit false

namespace Markdown

/-- A rendering of sheets: it opens and closes levels and gives a result or fails. -/
abbrev Draft (α : Type) := ExceptT NestingError (StateM Level) α

def Draft.nested {α : Type} (limit : Limit) (body : Draft α) : Draft α :=
  ExceptT.mk fun level =>
    match level.enter limit with
    | .error error => (.error error, level)
    | .ok inner =>
      let (result, later) := body.run inner
      (result, later.leave)

/-- A draft that would need one more level than there are. -/
def Draft.giveOut {α : Type} (limit : Limit) : Draft α := do
  throw (.outOfLevels limit.bound (← get).deepest)

/-- Pieces with the results of drafts in the places of the matches. -/
def Piece.redrawn {slot : Type} (drawn : Find Seal slot → Draft Sheet) :
    List (Piece Seal slot) → Draft Sheet
  | [] => pure []
  | .plain g :: rest => do
    let later ← redrawn drawn rest
    pure (g :: later)
  | .found f :: rest => do
    let here ← drawn f
    let later ← redrawn drawn rest
    pure (here ++ later)

/-- A sheet with the result of a draft in the place of each match, from left to right. -/
def Pattern.redraw {slot : Type} [DecidableEq slot] (pattern : Pattern slot)
    (drawn : Find Seal slot → Draft Sheet) (sheet : Sheet) : Draft Sheet :=
  Piece.redrawn drawn (pattern.pieces Seal.lead sheet)

theorem Piece.redrawn_pure {slot : Type} (drawn : Find Seal slot → Sheet)
    (pieces : List (Piece Seal slot)) :
    Piece.redrawn (fun f => pure (drawn f)) pieces = pure (pieces.flatMap (Piece.recast drawn)) := by
  induction pieces with
  | nil => rfl
  | cons piece rest ih =>
    cases piece with
    | plain g => simp [Piece.redrawn, ih, Piece.recast]
    | found f => simp [Piece.redrawn, ih, Piece.recast]

theorem Pattern.redraw_pure {slot : Type} [DecidableEq slot] (pattern : Pattern slot)
    (drawn : Find Seal slot → Sheet) (sheet : Sheet) :
    pattern.redraw (fun f => pure (drawn f)) sheet = pure (pattern.recast drawn sheet) :=
  Piece.redrawn_pure drawn _

def Sheet.keyBlock (fragment : Sheet) : Sheet :=
  Glyph.chars "\n\n".toList ++ [Glyph.sealed (.key fragment)] ++ Glyph.chars "\n\n".toList

variable {α β : Type}

/-- After a failure nothing more is done. -/
theorem run_bind {σ : Type} (first : ExceptT NestingError (StateM σ) α)
    (next : α → ExceptT NestingError (StateM σ) β) (state : σ) :
    (first >>= next).run state =
      match first.run state with
      | (.ok value, later) => (next value).run later
      | (.error error, later) => (.error error, later) := by
  change (match first.run state with
    | (result, later) => (ExceptT.bindCont next result) later) = _
  rcases first.run state with ⟨result | value, later⟩ <;> rfl

theorem Draft.run_nested_error {limit : Limit} {level : Level} {error : NestingError}
    (refused : level.enter limit = .error error) (body : Draft α) :
    (body.nested limit).run level = (.error error, level) := by
  change (match level.enter limit with
    | .error error => (Except.error error, level)
    | .ok inner => ((body.run inner).1, (body.run inner).2.leave)) = _
  rw [refused]

theorem Draft.run_nested {limit : Limit} {level inner : Level}
    (entered : level.enter limit = .ok inner) (body : Draft α) :
    (body.nested limit).run level = ((body.run inner).1, (body.run inner).2.leave) := by
  change (match level.enter limit with
    | .error error => (Except.error error, level)
    | .ok inner => ((body.run inner).1, (body.run inner).2.leave)) = _
  rw [entered]

namespace Render

theorem run_nested_error {limit : Limit} {progress : Progress} {error : NestingError}
    (refused : progress.level.enter limit = .error error) (body : Render α) :
    (Render.nested limit body).run progress = (.error error, progress) := by
  change (match progress.level.enter limit with
    | .error error => (Except.error error, progress)
    | .ok level => ((body.run { progress with level }).1,
      { (body.run { progress with level }).2 with
        level := (body.run { progress with level }).2.level.leave })) = _
  rw [refused]

theorem run_nested {limit : Limit} {progress : Progress} {level : Level}
    (entered : progress.level.enter limit = .ok level) (body : Render α) :
    (Render.nested limit body).run progress =
      ((body.run { progress with level }).1,
        { (body.run { progress with level }).2 with
          level := (body.run { progress with level }).2.level.leave }) := by
  change (match progress.level.enter limit with
    | .error error => (Except.error error, progress)
    | .ok level => ((body.run { progress with level }).1,
      { (body.run { progress with level }).2 with
        level := (body.run { progress with level }).2.level.leave })) = _
  rw [entered]

/-- Whatever has been put aside stays in the history. -/
def Grows (body : Render α) : Prop :=
  ∀ progress, progress.fragments.history ⊆ (body.run progress).2.fragments.history

namespace Grows

theorem pure (value : α) : Grows (Pure.pure value : Render α) :=
  fun _ => List.Subset.refl _

theorem giveOut (limit : Limit) : Grows (Render.giveOut limit : Render α) :=
  fun _ => List.Subset.refl _

theorem bind {first : Render α} {next : α → Render β} (early : Grows first)
    (late : ∀ value, Grows (next value)) : Grows (first >>= next) := by
  intro progress
  have begun := early progress
  rw [run_bind]
  cases done : first.run progress with
  | mk result later =>
    rw [done] at begun
    cases result with
    | error error => exact begun
    | ok value => exact List.Subset.trans begun (late value later)

theorem setAside (fragment : Text) : Grows (Render.setAside fragment) :=
  fun _ => List.subset_cons_self _ _

theorem finish (text : Text) : Grows (Render.finish text) :=
  fun _ => List.Subset.refl _

theorem nested {body : Render α} (grows : Grows body) (limit : Limit) :
    Grows (Render.nested limit body) := by
  intro progress
  cases entered : progress.level.enter limit with
  | error error =>
    rw [run_nested_error entered]
    exact List.Subset.refl _
  | ok level =>
    rw [run_nested entered]
    exact grows { progress with level }

theorem mapM {ι : Type} {act : ι → Render α} (grows : ∀ item, Grows (act item)) (items : List ι) :
    Grows (items.mapM act) := by
  induction items with
  | nil =>
    rw [List.mapM_nil]
    exact .pure _
  | cons item rest ih =>
    rw [List.mapM_cons]
    exact (grows item).bind fun _ => ih.bind fun _ => .pure _

theorem replaceM {slot : Type} [DecidableEq slot] (pattern : Pattern slot)
    {replacement : Match slot → Render Text} (grows : ∀ found, Grows (replacement found))
    (text : Text) : Grows (pattern.replaceM replacement text) := by
  refine (mapM (fun segment => ?_) _).bind fun _ => .pure _
  cases segment with
  | plain c => exact .pure _
  | found m => exact grows m

end Grows

end Render

namespace Renaming

variable {r : Renaming} {known : List Text} {sheet : Sheet} {text : Text}

/-- The key of a printed fragment, on a block of its own, prints its glyph. -/
theorem Prints.keyBlock (prints : r.Prints known sheet text) :
    r.Prints (text :: known) (Sheet.keyBlock sheet) (Fragments.keyBlock text) := by
  have kept : spell r.face sheet ∈ text :: known := by
    rw [prints.spelled]
    exact List.mem_cons_self
  have key : r.Prints (text :: known) [.sealed (.key sheet)] (Fragments.key text) := by
    refine ⟨by simp [Glyph.spell, prints.spelled], ?_⟩
    simpa using Valid.key kept fun g member =>
      (prints.valid g member).mono (List.subset_cons_self _ _)
  exact Prints.enclosed key (by decide) (by decide)

variable (r known) in
/-- Both results are texts of which one prints the other, or both are the same error. -/
inductive Answers : Except NestingError Sheet → Except NestingError Text → Prop where
  | ok {sheet : Sheet} {text : Text} (prints : r.Prints known sheet text) :
    Answers (.ok sheet) (.ok text)
  | error (error : NestingError) : Answers (.error error) (.error error)

variable (r known) in
/-- Begun with at least the known fragments, the rendering goes through the levels of the draft and
prints its result, as long as in the end no two fragments collide. -/
def Refines (body : Render Text) (draft : Draft Sheet) : Prop :=
  ∀ progress : Progress, known ⊆ progress.fragments.history →
    (body.run progress).2.fragments.NoCollision →
    (body.run progress).2.level = (draft.run progress.level).2 ∧
      r.Answers (body.run progress).2.fragments.history (draft.run progress.level).1
        (body.run progress).1

namespace Refines

/-- What is known in the end does not collide, so neither does what is known at the start. -/
theorem assuming {body : Render Text} {draft : Draft Sheet} (grows : body.Grows)
    (refines : Fragments.Collisionless known → r.Refines known body draft) :
    r.Refines known body draft :=
  fun progress begun apart =>
    refines (apart.mono (List.Subset.trans begun (grows progress))) progress begun apart

theorem pure (prints : r.Prints known sheet text) :
    r.Refines known (Pure.pure text) (Pure.pure sheet) :=
  fun _ begun _ => ⟨rfl, .ok (prints.mono begun)⟩

theorem giveOut (limit : Limit) :
    r.Refines known (Render.giveOut limit) (Draft.giveOut limit) :=
  fun _ _ _ => ⟨rfl, .error _⟩

theorem bind {first : Render Text} {next : Text → Render Text} {draft : Draft Sheet}
    {onward : Sheet → Draft Sheet} (early : r.Refines known first draft) (grows : first.Grows)
    (goes : ∀ text, (next text).Grows)
    (late : ∀ {more sheet text}, known ⊆ more → r.Prints more sheet text →
      r.Refines more (next text) (onward sheet)) :
    r.Refines known (first >>= next) (draft >>= onward) := by
  intro progress begun apart
  rw [run_bind] at apart ⊢
  rw [run_bind]
  have here := early progress begun
  have grown := grows progress
  generalize first.run progress = done at apart here grown ⊢
  generalize draft.run progress.level = drafted at here ⊢
  obtain ⟨result, middle⟩ := done
  obtain ⟨outcome, last⟩ := drafted
  cases result with
  | error error =>
    obtain ⟨level, answer⟩ := here apart
    cases answer with
    | error error => exact ⟨level, .error error⟩
  | ok text =>
    obtain ⟨level, answer⟩ := here (apart.mono (goes text middle))
    obtain rfl : middle.level = last := level
    cases answer with
    | ok prints =>
      exact late (List.Subset.trans begun grown) prints middle (List.Subset.refl _) apart

/-- What is put aside is a glyph of the sheet. -/
theorem setAside (prints : r.Prints known sheet text) :
    r.Refines known (.setAside text) (Pure.pure (Sheet.keyBlock sheet)) := by
  intro progress begun _
  exact ⟨rfl, .ok (prints.mono begun).keyBlock⟩

theorem finish (prints : r.Prints known sheet text) :
    r.Refines known (.finish text) (Pure.pure (Sheet.finish sheet)) :=
  fun _ begun apart => ⟨rfl, .ok ((prints.mono begun).expand apart).unescape⟩

theorem nested {body : Render Text} {draft : Draft Sheet} (refines : r.Refines known body draft)
    (limit : Limit) : r.Refines known (.nested limit body) (draft.nested limit) := by
  intro progress begun apart
  cases entered : progress.level.enter limit with
  | error error =>
    rw [Render.run_nested_error entered, Draft.run_nested_error entered]
    exact ⟨rfl, .error error⟩
  | ok level =>
    rw [Render.run_nested entered] at apart ⊢
    rw [Draft.run_nested entered]
    obtain ⟨same, answer⟩ := refines { progress with level } begun apart
    exact ⟨congrArg Level.leave same, answer⟩

end Refines

end Renaming

end Markdown
