import PatternAutomata.Match.DepthFirst
import PatternAutomata.Match.StateSets

/-!
# Engines

The two ways of deciding whether an automaton accepts a text, under one name.
-/

namespace PatternAutomata

inductive Engine where
  | depthFirst
  | stateSets
deriving DecidableEq, Repr

namespace Engine

def accepts : Engine → Automaton → String → Bool
  | depthFirst => DepthFirst.accepts
  | stateSets => StateSets.accepts

/-- What the engine reports while it decides. -/
def report (engine : Engine) (a : Automaton) (input : String) : List LogEntry :=
  match engine with
  | depthFirst => (DepthFirst.search a input).report
  | stateSets => StateSets.report a input

end Engine

end PatternAutomata
