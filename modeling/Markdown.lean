import Markdown.Diagnostic
import Markdown.Main
import Markdown.Pattern.Outcomes
import Markdown.Proofs.Code.Span
import Markdown.Proofs.Codec
import Markdown.Proofs.Command.Delivery
import Markdown.Proofs.Command.Precedence
import Markdown.Proofs.Command.Status
import Markdown.Proofs.Ending.Document
import Markdown.Proofs.Escaped
import Markdown.Proofs.Expansion.Store
import Markdown.Proofs.Html.Head
import Markdown.Proofs.Listing.Document
import Markdown.Proofs.Listing.End
import Markdown.Proofs.Literal.Document
import Markdown.Proofs.Literal.Kept
import Markdown.Proofs.Literal.Quoted
import Markdown.Proofs.Literal.Repetition
import Markdown.Proofs.Markup.Nesting
import Markdown.Proofs.Nesting.Bookkeeping
import Markdown.Proofs.Nesting.Levels
import Markdown.Proofs.Paragraph.Independence
import Markdown.Proofs.Pattern.Leads
import Markdown.Proofs.Quoting.Document
import Markdown.Proofs.Reference.Agreement
import Markdown.Proofs.Reference.Extraction
import Markdown.Proofs.Reference.History
import Markdown.Proofs.Reference.Inline
import Markdown.Proofs.Reference.Label
import Markdown.Proofs.Reference.Place
import Markdown.Proofs.Reference.Resolution
import Markdown.Proofs.Reference.Usage
import Markdown.Proofs.Renaming
import Markdown.Proofs.Selection.Document
import Markdown.Proofs.Structure.Document
