import PatternAutomata.Automaton.Basic
import PatternAutomata.Error

/-!
# Wiring by hand

States and edges added one by one. The operations check their arguments, so a
refused call leaves nothing behind and an accepted one adds exactly one state
or one edge.
-/

namespace PatternAutomata.Automaton

/-- Adds a state without edges; the result names it. -/
def addState (a : Automaton) (accepting : Bool) : StateId × Automaton :=
  (a.size, { a with states := a.states.push { accepting } })

def checkState (a : Automaton) (id : StateId) : Except BuildError Unit :=
  if id < a.size then .ok ()
  else .error (.invalidArgument (.unknownState id a.size))

/-- Adds an edge that reads the symbol of the given value. -/
def addSymbol (a : Automaton) (src value dest : Nat) : Except BuildError Automaton :=
  match Symbol.ofNat? value with
  | none => .error (.invalidArgument (.symbolOutOfRange value))
  | some symbol => do
      a.checkState dest
      a.checkState src
      return { a with states := a.states.modify src (·.addEdge symbol dest) }

def addEpsilon (a : Automaton) (src dest : StateId) : Except BuildError Automaton := do
  a.checkState dest
  a.checkState src
  return { a with states := a.states.modify src (·.addEpsilons [dest]) }

end PatternAutomata.Automaton
