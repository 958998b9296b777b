import PatternAutomata.Automaton.InPlace
import PatternAutomata.Automaton.Path
import PatternAutomata.Automaton.Thompson
import PatternAutomata.Automaton.WellFormed
import PatternAutomata.Main
import PatternAutomata.Match.Engine
import PatternAutomata.Match.Recursion
import PatternAutomata.Pattern.Grammar
import PatternAutomata.Pattern.PlainEvaluation
import PatternAutomata.Proofs.Acceptance
import PatternAutomata.Proofs.Agreement
import PatternAutomata.Proofs.BackedConcats
import PatternAutomata.Proofs.Brackets
import PatternAutomata.Proofs.Chains
import PatternAutomata.Proofs.CommandLineAnswers
import PatternAutomata.Proofs.Conservation
import PatternAutomata.Proofs.Denotation
import PatternAutomata.Proofs.DumpReading
import PatternAutomata.Proofs.Embedding
import PatternAutomata.Proofs.EquivalentEdges
import PatternAutomata.Proofs.GuardDiscipline
import PatternAutomata.Proofs.GuardedSearch
import PatternAutomata.Proofs.HandWiring
import PatternAutomata.Proofs.IsolatedBlocks
import PatternAutomata.Proofs.Legibility
import PatternAutomata.Proofs.Lexemes
import PatternAutomata.Proofs.MissingOperands
import PatternAutomata.Proofs.OperandCount
import PatternAutomata.Proofs.OperandLists
import PatternAutomata.Proofs.OperatorBlocks
import PatternAutomata.Proofs.OperatorLaws
import PatternAutomata.Proofs.Order
import PatternAutomata.Proofs.Origin
import PatternAutomata.Proofs.Postorder
import PatternAutomata.Proofs.ReachableStates
import PatternAutomata.Proofs.Reading
import PatternAutomata.Proofs.Rearrangement
import PatternAutomata.Proofs.Regrouping
import PatternAutomata.Proofs.Simulation
import PatternAutomata.Proofs.SizeBounds
import PatternAutomata.Proofs.SizeLimits
import PatternAutomata.Proofs.StackBounds
import PatternAutomata.Proofs.StackEvaluation
import PatternAutomata.Proofs.StepwiseOperators
import PatternAutomata.Proofs.StepwiseRuns
import PatternAutomata.Proofs.TextErrors
import PatternAutomata.Proofs.TextJoining
import PatternAutomata.Proofs.ThompsonShape
import PatternAutomata.Proofs.Trail
import PatternAutomata.Proofs.VisitCount
import PatternAutomata.Proofs.WellFormedness
import PatternAutomata.Provenance
import PatternAutomata.Workspace
