import SignalLogic.Formula.Equality
import SignalLogic.Formula.Nodes
import SignalLogic.Formula.Parts
import SignalLogic.Horizon
import SignalLogic.Parse
import SignalLogic.Pastification
import SignalLogic.Proofs.Delay
import SignalLogic.Proofs.LookAhead
import SignalLogic.Proofs.OpenFuture
import SignalLogic.Proofs.Demand
import SignalLogic.Proofs.Clamping
import SignalLogic.Proofs.Causality
import SignalLogic.Proofs.Onset
import SignalLogic.Proofs.Settling
import SignalLogic.Proofs.Grammar.Derivation
import SignalLogic.Proofs.Grammar.Unchecked
import SignalLogic.Proofs.Reading
import SignalLogic.Proofs.Deciding
import SignalLogic.Proofs.Grammar.Admission
import SignalLogic.Proofs.Grammar.Openings
import SignalLogic.Proofs.Grammar.Lexing
import SignalLogic.Proofs.Grammar.Literals
import SignalLogic.Proofs.Grammar.Operators
import SignalLogic.Proofs.Grammar.Soundness
import SignalLogic.Proofs.Grammar.Follow
import SignalLogic.Proofs.Grammar.Completeness
import SignalLogic.Proofs.Grammar.Parsing
import SignalLogic.Proofs.Double
import SignalLogic.Proofs.Grammar.Printing
import SignalLogic.Proofs.Grammar.Weight
import SignalLogic.Proofs.RoundTrip
import SignalLogic.Proofs.Reparsing
import SignalLogic.Proofs.Canonicity
import SignalLogic.Proofs.Assembly.Simulation
import SignalLogic.Proofs.Assembly.Soundness
import SignalLogic.Proofs.Evaluated
import SignalLogic.Proofs.Assembly.Reachable
import SignalLogic.Proofs.Assembly.Totality
import SignalLogic.Proofs.Equality
import SignalLogic.Proofs.Provenance
import SignalLogic.Proofs.FixedPoints
import SignalLogic.Proofs.Selection
import SignalLogic.Proofs.Attachment
import SignalLogic.Proofs.Batches
import SignalLogic.Proofs.Congruence
import SignalLogic.Proofs.Assembly.Decomposition
import SignalLogic.Proofs.PastTexts
import SignalLogic.Proofs.Shifts
import SignalLogic.Proofs.Tour
import SignalLogic.Proofs.Failing
import SignalLogic.Proofs.Grammar.Cutting
import SignalLogic.Proofs.Grammar.Faults
import SignalLogic.Proofs.Quotations
import SignalLogic.Proofs.Inversions
import SignalLogic.Proofs.Blame
import SignalLogic.Proofs.Traversal
