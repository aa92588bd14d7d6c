import Markdown.Html.Escape
import Markdown.Text.Wide

set_option autoImplicit false

namespace Markdown

/-- What the texts of a page are made of. -/
class Script (σ : Type) where
  ofText : Text → List σ
  escape : List σ → List σ
  escapeAttribute : List σ → List σ

instance : Script Char :=
  ⟨fun text => text, Html.escape, Html.escapeAttribute⟩

@[simp] theorem Script.ofText_chars (text : Text) : (Script.ofText text : Text) = text := rfl

@[simp] theorem Script.escape_chars (text : Text) : Script.escape text = Html.escape text := rfl

-- A surrogate is escaped by no rule and belongs to no character reference.
instance : Script CodePoint :=
  ⟨Text.wide, WideText.mapRuns Html.escape, WideText.mapRuns Html.escapeAttribute⟩

/-- What the head of a page says. -/
structure PageHead (σ : Type) where
  title : Option (List σ)
  language : Option (List σ)
  /-- The style sheets to link. -/
  styles : List (List σ)
  /-- Names and contents of meta tags. -/
  metaTags : List (List σ × List σ)

namespace PageHead

variable {σ : Type}

def empty : PageHead σ := ⟨none, none, [], []⟩

variable [Script σ]

/-- The opening tag of the page; an empty language counts as none. -/
def pageTag (head : PageHead σ) : List σ :=
  match head.language with
  | some (c :: rest) =>
    Script.ofText "<html lang=\"".toList ++ Script.escapeAttribute (c :: rest) ++
      Script.ofText "\">\n".toList
  | _ => Script.ofText "<html>\n".toList

def metaTag (name content : List σ) : List σ :=
  Script.ofText "<meta name=\"".toList ++ Script.escapeAttribute name ++
    Script.ofText "\" content=\"".toList ++ Script.escapeAttribute content ++
      Script.ofText "\">\n".toList

/-- The title element; an empty title counts as none. -/
def titleElement (head : PageHead σ) : List σ :=
  match head.title with
  | some (c :: rest) =>
    Script.ofText "<title>".toList ++ Script.escape (c :: rest) ++
      Script.ofText "</title>\n".toList
  | _ => []

def styleLink (address : List σ) : List σ :=
  Script.ofText "<link rel=\"stylesheet\" href=\"".toList ++ Script.escapeAttribute address ++
    Script.ofText "\">\n".toList

/-- The page up to the end of its head. -/
def render (head : PageHead σ) : List σ :=
  Script.ofText "<!DOCTYPE html>\n".toList ++ head.pageTag ++
    Script.ofText "<head>\n<meta charset=\"utf-8\">\n".toList ++
    (head.metaTags.flatMap fun tag => metaTag tag.1 tag.2) ++ head.titleElement ++
    head.styles.flatMap styleLink ++ Script.ofText "</head>\n".toList

end PageHead

def renderPage {σ : Type} [Script σ] (head : PageHead σ) (body : Text) : List σ :=
  head.render ++ Script.ofText "<body>\n".toList ++
    Script.ofText (if body.isEmpty then [] else body ++ ['\n']) ++
    Script.ofText "</body>\n</html>\n".toList

end Markdown
