import Midend.Main
import Midend.Proofs.Flow.Merged
import Midend.Proofs.Flow.Normal
import Midend.Proofs.Pass.Calculated
import Midend.Proofs.Pass.Exit
import Midend.Proofs.Pass.Complete
import Midend.Proofs.Lower.Faultless
import Midend.Proofs.Meaning.Initial
import Midend.Proofs.Lower.Accounted
import Midend.Proofs.Module.Hoisted
import Midend.Proofs.Lower.Unreachable
import Midend.Proofs.Graph.Replaced
import Midend.Proofs.Scope
import Midend.Proofs.Text.Names
import Midend.Proofs.Text.Types
import Midend.Proofs.Json.RoundTrip
import Midend.Proofs.Meaning.Reading
