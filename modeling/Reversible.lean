import Reversible.Circuit.Diagram
import Reversible.Equivalence
import Reversible.Factoring
import Reversible.LineReduction.Basic
import Reversible.Peephole
import Reversible.Proofs.Checks
import Reversible.Selection.Growing
import Reversible.Selection.Listed
import Reversible.Selection.Sliding
import Reversible.Proofs.Packing
import Reversible.Proofs.Action
import Reversible.Proofs.Relabelling
import Reversible.Proofs.Windows
import Reversible.Proofs.Expansion
import Reversible.Proofs.Synthesis.RowGates
import Reversible.Proofs.Synthesis.Transformation
import Reversible.Proofs.Factoring
import Reversible.Proofs.LineReduction.Attempt
import Reversible.Proofs.LineReduction.Function
import Reversible.Proofs.Synthesis.Completion
import Reversible.Proofs.Synthesis.Crowding
import Reversible.Proofs.Synthesis.Uniform
import Reversible.Proofs.LineReduction.Ambiguity
import Reversible.Proofs.Peephole.Run
import Reversible.Proofs.Synthesis.Resynthesis
import Reversible.Proofs.Reversal
import Reversible.Proofs.Synthesis.Canonical
import Reversible.Proofs.Synthesis.GateLimit
import Reversible.Proofs.Synthesis.GateCount
import Reversible.Proofs.Peephole.Selection
import Reversible.Proofs.Peephole.Function
import Reversible.Proofs.Cost
import Reversible.Proofs.QuantumCost
import Reversible.Proofs.Peephole.Cost
import Reversible.Proofs.Peephole.Saving
import Reversible.Proofs.Peephole.Termination
import Reversible.Proofs.Collisions
import Reversible.Proofs.Lifetimes
import Reversible.Proofs.Circuit.Construction
import Reversible.Proofs.LineReduction.Interface
import Reversible.Proofs.LineReduction.Reachable
import Reversible.Proofs.Equivalence
import Reversible.Proofs.Selection.Draining
import Reversible.Proofs.Selection.Growing
import Reversible.Proofs.Selection.Sliding
import Reversible.Proofs.Factoring.Saving
import Reversible.Proofs.Factoring.Search
import Reversible.Proofs.Factoring.Optimum
import Reversible.Proofs.Factoring.InPlace
import Reversible.Proofs.Factoring.Brackets
import Reversible.Proofs.Totals
import Reversible.Proofs.QuantumTable
import Reversible.Proofs.Bits.Edits
import Reversible.Proofs.TruthTable.Changes
import Reversible.Proofs.LineReduction.Separation
import Reversible.Proofs.Circuit.Diagram
