import ShiftReduce.Grammar.Ledger
import ShiftReduce.Item.Valid
import ShiftReduce.Machine.Listed
import ShiftReduce.Main
import ShiftReduce.First.Sweep
import ShiftReduce.Follow.Sweep
import ShiftReduce.Worklist
import ShiftReduce.Table.Writing
import ShiftReduce.Proofs.Reachability
import ShiftReduce.Proofs.FirstSets
import ShiftReduce.Proofs.FirstSweep
import ShiftReduce.Proofs.ItemClosure
import ShiftReduce.Proofs.LiveItems
import ShiftReduce.Proofs.Coherence
import ShiftReduce.Proofs.CanonicalStates
import ShiftReduce.Proofs.MergedStates
import ShiftReduce.Proofs.Quotient
import ShiftReduce.Proofs.TableRows
import ShiftReduce.Proofs.TableWriting
import ShiftReduce.Proofs.Runs
import ShiftReduce.Proofs.StackPath
import ShiftReduce.Proofs.TableCells
import ShiftReduce.Proofs.Soundness
import ShiftReduce.Proofs.LiveParses
import ShiftReduce.Proofs.ValidItems
import ShiftReduce.Proofs.ConflictFree
import ShiftReduce.Proofs.Completeness
import ShiftReduce.Proofs.Termination
import ShiftReduce.Proofs.Ambiguity
import ShiftReduce.Proofs.ErrorPosition
import ShiftReduce.Proofs.Simulation
import ShiftReduce.Proofs.ValidStates
import ShiftReduce.Proofs.MergedConflicts
import ShiftReduce.Proofs.ExpectedTerminals
import ShiftReduce.Proofs.Replay
import ShiftReduce.Proofs.FollowSets
import ShiftReduce.Proofs.ReachedStates
import ShiftReduce.Proofs.AcceptCell
import ShiftReduce.Proofs.Lookaheads
import ShiftReduce.Proofs.CanonicalDiscovery
import ShiftReduce.Proofs.Propagation
import ShiftReduce.Proofs.OneLookahead
import ShiftReduce.Proofs.Declarations
import ShiftReduce.Proofs.DeclaredGrammars
import ShiftReduce.Proofs.Ledgers
import ShiftReduce.Proofs.Renumbering
import ShiftReduce.Proofs.DeadRules
import ShiftReduce.Proofs.RenamedRuns
import ShiftReduce.Proofs.RenumberedStates
import ShiftReduce.Proofs.RuleOrder
import ShiftReduce.Proofs.LineParts
import ShiftReduce.Proofs.ProductionLines
import ShiftReduce.Proofs.DeclaredLines
import ShiftReduce.Proofs.WrittenGrammars
import ShiftReduce.Proofs.PrintedGrammars
import ShiftReduce.Item.Stored
import ShiftReduce.Proofs.TerminalSets
import ShiftReduce.Proofs.StoredItems
import ShiftReduce.Proofs.StoredRuns
import ShiftReduce.Proofs.ItemSetIdentity
