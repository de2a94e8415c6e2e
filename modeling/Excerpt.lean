import Excerpt.Spec.Walk
import Excerpt.Spec.Grammar
import Excerpt.Spec.OnePass
import Excerpt.Spec.Brackets
import Excerpt.Text.Numeral
import Excerpt.Text.Alphanumeric
import Excerpt.Binary64.Notation
import Excerpt.Binary64.Scaled
import Excerpt.Entries
import Excerpt.Json.Number
import Excerpt.Json.Reader
import Excerpt.Json.Writer
import Excerpt.Error
import Excerpt.Options.Json
import Excerpt.Projection
import Excerpt.Projection.Positions
import Excerpt.Extraction
import Excerpt.Log.Capture
import Excerpt.Log.Filter.Setting
import Excerpt.Toml.Document
import Excerpt.Config
import Excerpt.Cli.Command
import Excerpt.Main
import Excerpt.Proofs.StrictGrammar
import Excerpt.Proofs.OnePass
import Excerpt.Proofs.NestingLimit
import Excerpt.Proofs.Lockstep
import Excerpt.Proofs.CanonicalIndex
import Excerpt.Proofs.ElementNames
import Excerpt.Proofs.Leaves
import Excerpt.Proofs.Idempotence
import Excerpt.Proofs.SelectedLeaves
import Excerpt.Proofs.Visibility
import Excerpt.Proofs.Narrowing
import Excerpt.Proofs.CopiedValues
import Excerpt.Proofs.Readers
import Excerpt.Proofs.Modes
import Excerpt.Proofs.CutOff
import Excerpt.Proofs.CollectedRuns
import Excerpt.Proofs.Listing
import Excerpt.Proofs.OutputNesting
import Excerpt.Proofs.Delivery
import Excerpt.Proofs.Building
import Excerpt.Proofs.Pieces
import Excerpt.Proofs.Rounding
import Excerpt.Proofs.ShortestDigits
import Excerpt.Proofs.NumberWords
import Excerpt.Proofs.ReadBack
import Excerpt.Proofs.Extent
import Excerpt.Proofs.Passing
import Excerpt.Proofs.EarliestFault
import Excerpt.Proofs.Concatenation
import Excerpt.Proofs.GroupBelowKey
import Excerpt.Proofs.Interchange
import Excerpt.Proofs.Places
import Excerpt.Proofs.Skips
import Excerpt.Proofs.Frame
import Excerpt.Proofs.Reporting
import Excerpt.Proofs.Agreement
import Excerpt.Proofs.Restriction
