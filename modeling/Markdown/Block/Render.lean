import Markdown.Html.Block
import Markdown.Inline
import Markdown.Nesting

set_option autoImplicit false

namespace Markdown

/-- What stays the same throughout a rendering. -/
structure Setting where
  references : ReferenceTable
  limit : Limit

/-- What a rendering changes as it goes. -/
structure Progress where
  fragments : Fragments
  level : Level

def Progress.start : Progress :=
  ⟨.empty, .outermost⟩

/-- A rendering: it changes the progress and gives a result or fails. -/
abbrev Render (α : Type) := ExceptT NestingError (StateM Progress) α

namespace Render

/-- A piece of finished output put aside; its key, as a block of its own, takes its place. -/
def setAside (fragment : Text) : Render Text := do
  modify fun progress => { progress with fragments := progress.fragments.insert fragment }
  pure (Fragments.keyBlock fragment)

/-- A text with all fragments put back and its tokens decoded. Hidden markers stay hidden. -/
def finish (text : Text) : Render Text := do
  pure (Codec.standard.unescape ((← get).fragments.expand text))

/-- A rendering one level further in. The level is closed whether or not the rendering fails. -/
def nested {α : Type} (limit : Limit) (body : Render α) : Render α :=
  ExceptT.mk fun progress =>
    match progress.level.enter limit with
    | .error error => (.error error, progress)
    | .ok level =>
      let (result, later) := body.run { progress with level }
      (result, { later with level := later.level.leave })

/-- A rendering that would need one more level than there are. -/
def giveOut {α : Type} (limit : Limit) : Render α := do
  throw (.outOfLevels limit.bound (← get).level.deepest)

def protectHtml (text : Text) : Render Text :=
  ExceptT.mk fun progress =>
    let (result, fragments) := Html.protectBlocks text progress.fragments
    (.ok result, { progress with fragments })

end Render

/-- The renderings that lists and quotes use for their content, one level further in. -/
structure Interior where
  /-- Blocks of every kind; in a list, a nested list may start at any line. -/
  blocks : (inList : Bool) → Text → Render Text
  /-- Nested lists only. -/
  lists : Text → Render Text

end Markdown
