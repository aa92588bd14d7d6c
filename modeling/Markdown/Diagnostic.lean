import Markdown.Document
import Markdown.Reference.Unresolved

set_option autoImplicit false

namespace Markdown

structure Position where
  line : Nat
  character : Nat
deriving DecidableEq

inductive DiagnosticKind where
  | error
  | warning
deriving DecidableEq

structure Diagnostic where
  start : Position
  stop : Position
  kind : DiagnosticKind
  message : Text

namespace Diagnostic

/-- The program that makes the remarks. -/
def source : Text := "hashdown".toList

def ofNesting (error : NestingError) : Diagnostic :=
  ⟨⟨0, 0⟩, ⟨0, 0⟩, .error, error.message⟩

def ofUnresolved (usage : Unresolved) : Diagnostic :=
  let line := usage.line - 1
  let character := usage.column - 1
  ⟨⟨line, character⟩, ⟨line, character + usage.length⟩, .warning,
    "unresolved reference '".toList ++ usage.label ++ "'".toList⟩

end Diagnostic

/-- The remarks on a document, in the order in which they are shown, where so many levels can be
open. -/
def diagnose (capacity : Nat) (document : Text) : List Diagnostic :=
  let nesting := match (convert ⟨.standard, capacity⟩ document).html with
    | .ok _ => []
    | .error error => [Diagnostic.ofNesting error]
  nesting ++ (findUnresolved document).map .ofUnresolved

end Markdown
