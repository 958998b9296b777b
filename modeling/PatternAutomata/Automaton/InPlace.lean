import PatternAutomata.Automaton.Wiring

/-!
# Wiring in place

The operations of `Wiring` as they are for a caller who holds an automaton that
they change. A call takes one step after the other. An error ends it where it
stands, and nothing takes back what the steps before have done.
-/

namespace PatternAutomata

/-- Steps that change an automaton. What they have changed stays changed, also if
one of them fails. -/
abbrev InPlace : Type → Type := ExceptT BuildError (StateM Automaton)

namespace InPlace

/-- What a call on an automaton comes to, and the automaton it leaves behind. -/
def on {α : Type} (call : InPlace α) (a : Automaton) : Except BuildError α × Automaton :=
  StateT.run (ExceptT.run call) a

def requireSymbol (value : Nat) : InPlace Symbol :=
  match Symbol.ofNat? value with
  | none => throw (.invalidArgument (.symbolOutOfRange value))
  | some symbol => return symbol

def requireState (id : StateId) : InPlace Unit := do
  (← get).checkState id

/-- Changes a state, if the automaton has one of that number. -/
def change (id : StateId) (f : State → State) : InPlace Unit := do
  requireState id
  modify fun a => { a with states := a.states.modify id f }

def addState (accepting : Bool) : InPlace StateId := do
  let id := (← get).size
  modify fun a => { a with states := a.states.push { accepting } }
  return id

def addSymbol (src value dest : Nat) : InPlace Unit := do
  let symbol ← requireSymbol value
  requireState dest
  change src (·.addEdge symbol dest)

def addEpsilon (src dest : StateId) : InPlace Unit := do
  requireState dest
  change src (·.addEpsilons [dest])

/-- One of the calls by which a caller wires an automaton. -/
inductive Call where
  | addState (accepting : Bool)
  | addSymbol (src value dest : Nat)
  | addEpsilon (src dest : StateId)
deriving DecidableEq, Repr

/-- The automaton that a call leaves behind, whether it succeeds or not. -/
def Call.leaves (a : Automaton) : Call → Automaton
  | .addState accepting => ((InPlace.addState accepting).on a).2
  | .addSymbol src value dest => ((InPlace.addSymbol src value dest).on a).2
  | .addEpsilon src dest => ((InPlace.addEpsilon src dest).on a).2

end InPlace

end PatternAutomata
