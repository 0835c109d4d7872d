import Simian.Main
import Simian.CommandLine.Listing
import Simian.Node.Stored
import Simian.Proofs.RoundTrip
import Simian.Proofs.Recovery
import Simian.Proofs.Segmentation
import Simian.Proofs.Evaluation.Exceptions
import Simian.Proofs.Evaluation.Frame
import Simian.Proofs.Evaluation.Reached
import Simian.Proofs.Evaluation.Unstored
import Simian.Proofs.Evaluation.Lockstep
import Simian.Proofs.Evaluation.Tokenless
import Simian.Proofs.Evaluation.Calls
import Simian.Proofs.Evaluation.Arithmetic
import Simian.Proofs.Storing
import Simian.Proofs.Evaluation.InParts
import Simian.Proofs.Evaluation.Contents
import Simian.Proofs.Evaluation.Faultless
import Simian.Proofs.Evaluation.Depth
import Simian.Proofs.Evaluation.WordRange
import Simian.Proofs.Legible
import Simian.Proofs.Emission
import Simian.Proofs.Evaluation.Trace
import Simian.Proofs.Grammar.Account
import Simian.Proofs.Blame
import Simian.Proofs.Faults
import Simian.Proofs.Places
import Simian.Proofs.Window
import Simian.Proofs.Evaluation.History
import Simian.Proofs.Evaluation.Comparison
import Simian.Proofs.Decoding
import Simian.Proofs.Evaluation.Literals
import Simian.Proofs.Evaluation.Origin
import Simian.Proofs.Conversation
import Simian.Proofs.FrontEnds
import Simian.Proofs.Reduction
import Simian.Proofs.Evaluation.Arrays
