import WeightedAutomata.Command.Store
import WeightedAutomata.Main
import WeightedAutomata.Proofs.Automaton.Cycle
import WeightedAutomata.Proofs.Automaton.Described
import WeightedAutomata.Proofs.Automaton.Expressible
import WeightedAutomata.Proofs.Automaton.Line
import WeightedAutomata.Proofs.Automaton.Map
import WeightedAutomata.Proofs.Automaton.Matrix
import WeightedAutomata.Proofs.Automaton.Path
import WeightedAutomata.Proofs.Automaton.Read
import WeightedAutomata.Proofs.Automaton.ReadBack
import WeightedAutomata.Proofs.Automaton.Rename
import WeightedAutomata.Proofs.Automaton.Search
import WeightedAutomata.Proofs.Automaton.Shape
import WeightedAutomata.Proofs.Automaton.Statements
import WeightedAutomata.Proofs.Automaton.Total
import WeightedAutomata.Proofs.Automaton.Write
import WeightedAutomata.Proofs.Command.Atomic
import WeightedAutomata.Proofs.Command.Machine
import WeightedAutomata.Proofs.Command.Store
import WeightedAutomata.Proofs.LineFault
import WeightedAutomata.Proofs.LineFile
import WeightedAutomata.Proofs.Number.DecimalText
import WeightedAutomata.Proofs.Number.Positional
import WeightedAutomata.Proofs.Number.Rounding
import WeightedAutomata.Proofs.Number.Shortest
import WeightedAutomata.Proofs.Potential.Gathered
import WeightedAutomata.Proofs.Potential.RoundTrip
import WeightedAutomata.Proofs.Refusal
import WeightedAutomata.Proofs.Reweight.Calls
import WeightedAutomata.Proofs.Reweight.Compose
import WeightedAutomata.Proofs.Reweight.Coordinate
import WeightedAutomata.Proofs.Reweight.Dual
import WeightedAutomata.Proofs.Reweight.Flank
import WeightedAutomata.Proofs.Reweight.InPlace
import WeightedAutomata.Proofs.Reweight.Incoming
import WeightedAutomata.Proofs.Reweight.Members
import WeightedAutomata.Proofs.Reweight.Membership
import WeightedAutomata.Proofs.Reweight.Outcome
import WeightedAutomata.Proofs.Reweight.Outgoing
import WeightedAutomata.Proofs.Reweight.PathLaw
import WeightedAutomata.Proofs.Reweight.PathWeight
import WeightedAutomata.Proofs.Reweight.Pushing
import WeightedAutomata.Proofs.Reweight.Rename
import WeightedAutomata.Proofs.Reweight.RoundTrip
import WeightedAutomata.Proofs.Reweight.Total
import WeightedAutomata.Proofs.Text.Integer
import WeightedAutomata.Proofs.Text.Lines
import WeightedAutomata.Proofs.Tuple.Approx
import WeightedAutomata.Proofs.Tuple.Built
import WeightedAutomata.Proofs.Tuple.Coordinate
import WeightedAutomata.Proofs.Tuple.Dot
import WeightedAutomata.Proofs.Tuple.Elements
import WeightedAutomata.Proofs.Tuple.Insert
import WeightedAutomata.Proofs.Tuple.Laws
import WeightedAutomata.Proofs.Tuple.Lookup
import WeightedAutomata.Proofs.Tuple.Merge
import WeightedAutomata.Proofs.Tuple.Nested
import WeightedAutomata.Proofs.Tuple.Parentheses
import WeightedAutomata.Proofs.Tuple.Pieces
import WeightedAutomata.Proofs.Tuple.Quantize
import WeightedAutomata.Proofs.Tuple.Quotient
import WeightedAutomata.Proofs.Tuple.Reread
import WeightedAutomata.Proofs.Tuple.Reverse
import WeightedAutomata.Proofs.Tuple.RoundTrip
import WeightedAutomata.Proofs.Tuple.Scale
import WeightedAutomata.Proofs.Tuple.Trail
import WeightedAutomata.Proofs.Tuple.TypeName
import WeightedAutomata.Proofs.Tuple.Update
import WeightedAutomata.Proofs.Weight.Chance
import WeightedAutomata.Proofs.Weight.CostText
import WeightedAutomata.Proofs.Weight.Division
import WeightedAutomata.Proofs.Weight.Laws
import WeightedAutomata.Proofs.Weight.Sum
import WeightedAutomata.Proofs.Weight.Tropical
