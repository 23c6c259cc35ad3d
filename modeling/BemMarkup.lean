import BemMarkup.Json.Document
import BemMarkup.Json.Error
import BemMarkup.Session.Chain
import BemMarkup.Proofs.Document.Characters
import BemMarkup.Proofs.Document.Layout
import BemMarkup.Proofs.Document.Ranges
import BemMarkup.Proofs.Document.Drafts
import BemMarkup.Proofs.Document.Tokens
import BemMarkup.Proofs.Document.Headings
import BemMarkup.Proofs.Document.Printing
import BemMarkup.Proofs.Document.Naming
import BemMarkup.Proofs.Document.Lookahead
import BemMarkup.Proofs.Document.Relocation
import BemMarkup.Proofs.Document.Rereading
import BemMarkup.Proofs.Document.Excerpts
import BemMarkup.Proofs.Document.Mending
import BemMarkup.Proofs.Document.ViablePrefix
import BemMarkup.Proofs.Document.Joining
import BemMarkup.Proofs.Document.Escapes
import BemMarkup.Proofs.Document.BareValues
import BemMarkup.Proofs.Document.Returns
import BemMarkup.Proofs.Document.Alignment
import BemMarkup.Proofs.Document.LineEndings
import BemMarkup.Proofs.Rendering.Cycles
import BemMarkup.Proofs.Rendering.Balance
import BemMarkup.Proofs.Rendering.StartTags
import BemMarkup.Proofs.Interpreter.Expansion
import BemMarkup.Proofs.Interpreter.Meaning
import BemMarkup.Proofs.Interpreter.Agreement
import BemMarkup.Proofs.Interpreter.Tables
import BemMarkup.Proofs.Compilation.Derivation
import BemMarkup.Proofs.Compilation.Closure
import BemMarkup.Proofs.Compilation.Markup
import BemMarkup.Proofs.Compilation.Redeclaration
import BemMarkup.Proofs.Compilation.Alike
import BemMarkup.Proofs.Session.Ancestry
import BemMarkup.Proofs.Session.Soundness
import BemMarkup.Proofs.Session.Stages
import BemMarkup.Proofs.Session.Memory
import BemMarkup.Proofs.Session.Classes
import BemMarkup.Proofs.Session.Transparency
import BemMarkup.Proofs.Session.Freezing
import BemMarkup.Proofs.Session.History
import BemMarkup.Proofs.Json.RoundTrip
import BemMarkup.Proofs.Compilation.Checks
import BemMarkup.Proofs.Compilation.Inlining
import BemMarkup.Proofs.Rendering.Locality
import BemMarkup.Proofs.Session.Extension
import BemMarkup.Proofs.Compilation.Restatement
import BemMarkup.Proofs.Session.Restatement
import BemMarkup.Proofs.Compilation.Frame
import BemMarkup.Proofs.Session.Children
import BemMarkup.Proofs.Document.ErrorPlaces
import BemMarkup.Proofs.Document.WellFormed
import BemMarkup.Proofs.Session.Quoting
import BemMarkup.Proofs.Interpreter.AttributeChains
import BemMarkup.Proofs.Document.LongestMatch
import BemMarkup.Proofs.Text.Folding
import BemMarkup.Proofs.Text.Lines
import BemMarkup.Proofs.Compilation.Termination
