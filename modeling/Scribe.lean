import Scribe.Format.Toml
import Scribe.Proofs.Flow.LoopLabels
import Scribe.Proofs.Lexicon.Agreement
import Scribe.Proofs.Lexicon.Imports
import Scribe.Proofs.Operator.Alternatives
import Scribe.Proofs.Reading.Literal
import Scribe.Proofs.Script.Effects
import Scribe.Proofs.Script.Errors
import Scribe.Proofs.Script.Identity
import Scribe.Proofs.Script.LateBinding
import Scribe.Proofs.Script.Meaning
import Scribe.Proofs.Script.Nesting
import Scribe.Proofs.Script.Parameters
import Scribe.Proofs.Script.Promoted
import Scribe.Proofs.Script.Request
import Scribe.Proofs.Script.Types
import Scribe.Proofs.Text.Stroke
import Scribe.Proofs.Writing.ArrayCreation
import Scribe.Proofs.Writing.Requests
