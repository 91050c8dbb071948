import Lockstep.Decoder.Latin1
import Lockstep.Matches
import Lockstep.Pattern
import Lockstep.Proofs.Capture.LastPair
import Lockstep.Proofs.Closure.Reuse
import Lockstep.Proofs.Decoder.Reading
import Lockstep.Proofs.Decoder.WellFormed
import Lockstep.Proofs.Graph.Fragments
import Lockstep.Proofs.Graph.Verdict
import Lockstep.Proofs.Nfa.Irredundant
import Lockstep.Proofs.Pattern.Brackets
import Lockstep.Proofs.Pattern.FindAll
import Lockstep.Proofs.Pattern.Loops
import Lockstep.Proofs.Pattern.NestedLoops
import Lockstep.Proofs.Scan.EndMarker
import Lockstep.Proofs.Scan.Reports
import Lockstep.Proofs.Scan.Resume
import Lockstep.Proofs.Scan.Reuse
import Lockstep.Proofs.Scan.Suffix
import Lockstep.Proofs.Scan.Supersede
import Lockstep.Proofs.Scan.Trails
import Lockstep.Proofs.Scan.Unfiltered
import Lockstep.Proofs.SparseSet.History
