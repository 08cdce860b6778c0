import Clausal.Flags
import Clausal.Main
import Clausal.Output.Writer
import Clausal.Proofs.Assignment
import Clausal.Proofs.Families
import Clausal.Proofs.Search.Completion
import Clausal.Proofs.Search.Models
import Clausal.Proofs.Search.Interruption
import Clausal.Proofs.Resolution.Passes
import Clausal.Proofs.Resolution.Completeness
import Clausal.Proofs.Resolution.Refutation
import Clausal.Proofs.Resolution.Growth
import Clausal.Proofs.Resolution.Resumption
import Clausal.Proofs.Resolution.Closure
import Clausal.Proofs.Reading.Grammar
import Clausal.Proofs.Reading.Acceptance
import Clausal.Proofs.Reading.RoundTrip
import Clausal.Proofs.Reading.EarliestError
import Clausal.Proofs.Search.FirstSuccess
import Clausal.Proofs.Search.Exploration
import Clausal.Proofs.Resolution.Stopping
import Clausal.Proofs.Report.Lines
import Clausal.Proofs.Report.Agreement
import Clausal.Proofs.Report.Wording
import Clausal.Proofs.Job.Interleaving
import Clausal.Proofs.Search.Stack
import Clausal.Proofs.Resolution.Bound
import Clausal.Proofs.Reading.ErrorKinds
import Clausal.Proofs.Reading.Spacing
import Clausal.Proofs.Log.Transcription
import Clausal.Proofs.Log.Account
import Clausal.Proofs.Log.Observation
import Clausal.Proofs.Representation
import Clausal.Proofs.Search.Residual
import Clausal.Proofs.Renaming.Formulas
import Clausal.Proofs.Renaming.Search
import Clausal.Proofs.Renaming.Resolution
import Clausal.Proofs.Renaming.Equivariance
import Clausal.Proofs.Output.Room
import Clausal.Proofs.Search.Descent
import Clausal.Proofs.Resolution.Origins
import Clausal.Proofs.Resolution.Unfolding
