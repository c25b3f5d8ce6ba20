import Wordstack.Main
import Wordstack.Proofs.StackSafety
import Wordstack.Proofs.Agreement
import Wordstack.Proofs.Calls
import Wordstack.Proofs.Contagion
import Wordstack.Proofs.Origins
import Wordstack.Proofs.Statics
import Wordstack.Proofs.Correctness
import Wordstack.Proofs.Labels
import Wordstack.Proofs.Lines
import Wordstack.Proofs.Printing
import Wordstack.Proofs.Processor
import Wordstack.Proofs.Regions
import Wordstack.Proofs.Rescan
import Wordstack.Proofs.FormulaRuns
import Wordstack.Proofs.RoundTrip
import Wordstack.Proofs.Simulation
import Wordstack.Proofs.Symbols
import Wordstack.Proofs.Tiling
import Wordstack.Proofs.Resolution
import Wordstack.Proofs.Termination
import Wordstack.Proofs.ScopeTable
import Wordstack.Proofs.Fuel
import Wordstack.Proofs.Grouping
import Wordstack.Proofs.Items
import Wordstack.Proofs.Scoping
import Wordstack.Proofs.TypeLists
import Wordstack.Proofs.ExternalCalls
import Wordstack.Proofs.FallingOff
import Wordstack.Proofs.GlobalLayout
import Wordstack.Proofs.Lvalues
import Wordstack.Proofs.Division
import Wordstack.Proofs.Interning
import Wordstack.Proofs.Sizes
import Wordstack.Proofs.Restating
