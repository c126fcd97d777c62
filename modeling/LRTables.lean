import LRTables.Automaton.Build
import LRTables.Automaton.Dot
import LRTables.CommandLine.Run
import LRTables.Grammar.File
import LRTables.Main
import LRTables.Table.Grid
import LRTables.Proofs.Entries
import LRTables.Proofs.Grammar.Derivation
import LRTables.Proofs.FirstSets.Growth
import LRTables.Proofs.Grammar.First
import LRTables.Proofs.FirstSets.Stable
import LRTables.Proofs.FirstSets.Least
import LRTables.Proofs.FirstSets.Chain
import LRTables.Proofs.Traversal
import LRTables.Proofs.Item.Closure
import LRTables.Proofs.Item.Least
import LRTables.Proofs.Item.Viable
import LRTables.Proofs.Automaton.Expansion
import LRTables.Proofs.Automaton.Quotient
import LRTables.Proofs.Automaton.Items
import LRTables.Proofs.Automaton.Determinism
import LRTables.Proofs.Table.Completeness
import LRTables.Proofs.Table.Soundness
import LRTables.Proofs.Table.Retracing
import LRTables.Proofs.Item.Canonical
import LRTables.Proofs.Table.Conflicts
import LRTables.Proofs.Automaton.Graph
import LRTables.Proofs.Automaton.Accessing
import LRTables.Proofs.Table.Acceptance
import LRTables.Proofs.Table.Columns
import LRTables.Proofs.Automaton.Bounds
import LRTables.Proofs.Outputs
import LRTables.Proofs.Grammar.Valid
import LRTables.Proofs.Grammar.Document
import LRTables.Proofs.Grammar.Fault
import LRTables.Proofs.Grammar.Tokens
import LRTables.Proofs.Automaton.Reachable
import LRTables.Proofs.CommandLine.Run
import LRTables.Proofs.Table.Sheet
import LRTables.Proofs.Automaton.Drawing
