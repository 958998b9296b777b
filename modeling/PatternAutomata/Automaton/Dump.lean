import PatternAutomata.Automaton.Basic
import PatternAutomata.Text.Quoted

/-!
# Dumps

An automaton as text, a few lines for each state: its number, a mark on the
accepting ones, the destinations on each symbol and those of the epsilon
edges. A list of destinations keeps its order and its repetitions, so nothing
about the automaton is lost.
-/

namespace PatternAutomata

open Text

namespace Dump

/-- A number in a column of at least four places. -/
def column (n : Nat) : String :=
  let digits := toString n
  String.ofList (List.replicate (4 - digits.length) ' ') ++ digits

def ids (dests : List StateId) : String :=
  "[" ++ ", ".intercalate (dests.map toString) ++ "]"

def edgeLine (label : String) (dests : List StateId) : String :=
  "       " ++ label ++ " -> " ++ ids dests ++ "\n"

def stateLines (id : StateId) (s : State) : String :=
  "  " ++ column id ++ (if s.accepting then " FINAL" else "") ++ "\n"
    ++ String.join (s.edges.entries.map fun e => edgeLine (Quoted.char (Symbol.toChar e.1)) e.2)
    ++ (if s.epsilons.isEmpty then "" else edgeLine "ε" s.epsilons)

end Dump

/-- All of an automaton as text. -/
def Automaton.dump (a : Automaton) : String :=
  s!"start: {a.entry}\nend: {a.exit}\nstates:\n"
    ++ String.join (a.states.toList.mapIdx Dump.stateLines)

end PatternAutomata
