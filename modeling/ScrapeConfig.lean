import ScrapeConfig.Config.Load
import ScrapeConfig.Main
import ScrapeConfig.Toml.Value
import ScrapeConfig.Proofs.Pattern.Closure
import ScrapeConfig.Proofs.Pattern.Meaning
import ScrapeConfig.Proofs.Pattern.Transitions
import ScrapeConfig.Proofs.Pattern.Subset
import ScrapeConfig.Proofs.Pattern.Tracking
import ScrapeConfig.Proofs.Pattern.LongestPrefix
import ScrapeConfig.Proofs.Scan.LongestMatch
import ScrapeConfig.Proofs.Document.Canonical
import ScrapeConfig.Proofs.Document.Concatenation
import ScrapeConfig.Proofs.Document.RoundTrip
import ScrapeConfig.Proofs.Scan.Munch
import ScrapeConfig.Proofs.Lexer.Totality
import ScrapeConfig.Proofs.Scan.OneByOne
import ScrapeConfig.Proofs.Layout.Blocks
import ScrapeConfig.Proofs.Lexer.Boundaries
import ScrapeConfig.Proofs.Lexer.Replies
import ScrapeConfig.Proofs.Scan.Interleaving
import ScrapeConfig.Proofs.Lexer.Threaded
import ScrapeConfig.Proofs.Document.Coverage
import ScrapeConfig.Proofs.Document.Relayout
import ScrapeConfig.Proofs.Document.LineEnds
import ScrapeConfig.Proofs.Document.Respelling
import ScrapeConfig.Proofs.Document.Continuation
import ScrapeConfig.Proofs.Document.Opening
import ScrapeConfig.Proofs.Document.Likeness
import ScrapeConfig.Proofs.Lexer.Emissions
import ScrapeConfig.Proofs.Lexer.Transcripts
import ScrapeConfig.Proofs.Options.WellFormed
import ScrapeConfig.Proofs.Toml.Representation
import ScrapeConfig.Proofs.Options.Calls
import ScrapeConfig.Proofs.Toml.Readings
import ScrapeConfig.Proofs.Config.RoundTrip
import ScrapeConfig.Proofs.Config.Validation
import ScrapeConfig.Proofs.Layout.History
import ScrapeConfig.Proofs.Layout.Rescaling
import ScrapeConfig.Proofs.Document.Misfit
import ScrapeConfig.Proofs.Document.Consumption
import ScrapeConfig.Proofs.Lexer.Legibility
import ScrapeConfig.Proofs.Lexer.Bytewise
import ScrapeConfig.Proofs.Document.Separation
import ScrapeConfig.Proofs.Document.Settings
import ScrapeConfig.Proofs.Document.Auths
import ScrapeConfig.Proofs.Pattern.Derivation
import ScrapeConfig.Proofs.Pattern.Determinization
import ScrapeConfig.Proofs.Pattern.CaseFolding
import ScrapeConfig.Proofs.Lexer.Hearing
import ScrapeConfig.Proofs.Pattern.EmptyInput
import ScrapeConfig.Proofs.Options.Merging
import ScrapeConfig.Proofs.Toml.Conversion
import ScrapeConfig.Proofs.Toml.Refusal
import ScrapeConfig.Proofs.Toml.Interruption
import ScrapeConfig.Proofs.Config.Copies
import ScrapeConfig.Proofs.Pattern.Words
