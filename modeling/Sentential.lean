import Sentential.Assignment.Reading
import Sentential.Proofs.Consequence
import Sentential.Proofs.Outcomes
import Sentential.Proofs.RoundTrip
import Sentential.Proofs.Evaluation
import Sentential.Proofs.Operands
import Sentential.Proofs.Embedding
import Sentential.Proofs.Traversal
import Sentential.Proofs.Numbering
import Sentential.Proofs.PartialMap
import Sentential.Proofs.Fragments
import Sentential.Proofs.Renaming
import Sentential.Proofs.NumberedSets
import Sentential.Proofs.Alternation
import Sentential.Proofs.Deduction
import Sentential.Proofs.Refusals
import Sentential.Proofs.Counterexamples
import Sentential.Proofs.Balance
import Sentential.Proofs.Necessity
import Sentential.Proofs.Equivalence
import Sentential.Proofs.Transcription
import Sentential.Proofs.Obstacles
import Sentential.Proofs.TruthTable
import Sentential.Proofs.DistinctLists
import Sentential.Proofs.Negation
import Sentential.Proofs.Listing
import Sentential.Proofs.Words
import Sentential.Proofs.ExactNumbers
import Sentential.Proofs.NumberedAnswers
