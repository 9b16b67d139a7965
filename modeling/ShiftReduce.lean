import ShiftReduce.Grammar.Edit
import ShiftReduce.Grammar.Derivation
import ShiftReduce.Grammar.Passes
import ShiftReduce.Collection.Reached
import ShiftReduce.Collection.Stages
import ShiftReduce.Table.Run
import ShiftReduce.Main
import ShiftReduce.Proofs.Successors
import ShiftReduce.Proofs.CollectionView
import ShiftReduce.Proofs.Invariant
import ShiftReduce.Proofs.Propagation
import ShiftReduce.Proofs.Placement
import ShiftReduce.Proofs.Visits
import ShiftReduce.Proofs.Canonical
import ShiftReduce.Proofs.Paths
import ShiftReduce.Proofs.CoreQuotient
import ShiftReduce.Proofs.Runs
import ShiftReduce.Proofs.Soundness
import ShiftReduce.Proofs.Completeness
import ShiftReduce.Proofs.ValidItems
import ShiftReduce.Proofs.Progress
import ShiftReduce.Proofs.Saturation
import ShiftReduce.Proofs.Skeleton
import ShiftReduce.Proofs.Conflicts
import ShiftReduce.Proofs.Lookaheads
import ShiftReduce.Proofs.Additions
import ShiftReduce.Proofs.Sweeps
import ShiftReduce.Proofs.Stages
import ShiftReduce.Proofs.Stepping
import ShiftReduce.Proofs.StateCount
import ShiftReduce.Proofs.Termination
import ShiftReduce.Proofs.Safety
import ShiftReduce.Proofs.Passes
import ShiftReduce.Proofs.Isomorphism
import ShiftReduce.Proofs.Lexing
import ShiftReduce.Proofs.Reading
import ShiftReduce.Proofs.Filling
import ShiftReduce.Proofs.Storing
import ShiftReduce.Proofs.Ledger
import ShiftReduce.Proofs.Loading
import ShiftReduce.Proofs.Reports
import ShiftReduce.Proofs.Cursor
import ShiftReduce.Proofs.Exhaustion
import ShiftReduce.Proofs.ClosureMerge
import ShiftReduce.Proofs.Comparison
import ShiftReduce.Proofs.Indexing
import ShiftReduce.Proofs.ConflictReports
import ShiftReduce.Proofs.Precedence
import ShiftReduce.Proofs.Printing
import ShiftReduce.Proofs.Offending
import ShiftReduce.Proofs.Roster
import ShiftReduce.Proofs.Rounds
import ShiftReduce.Proofs.Sessions
import ShiftReduce.Proofs.Declarations
import ShiftReduce.Proofs.Interleaving
import ShiftReduce.Proofs.NameKinds
import ShiftReduce.Proofs.Checking
import ShiftReduce.Proofs.Grids
import ShiftReduce.Proofs.Queueing
