import PatternAutomata.Automaton.Basic
import Std.Data.HashSet

/-!
# One step of a depth-first search

Whether an automaton accepts a whole text can be decided by following one path
at a time. From a state, the edges on the next character are tried first, each
in its order, and then the epsilon edges; the search ends as soon as a path has
read everything and stands in an accepting state.

Epsilon cycles are cut by remembering visited states. What is remembered
belongs to a *guard*: an epsilon edge keeps the guard, and reading a character
issues a new one, so a state counts as new again behind every character that a
path has read. The paths still to be tried are kept on an explicit stack.
-/

namespace PatternAutomata.DepthFirst

/-- A path still to be tried: where it stands, what it has left to read, and
the guard under which its states are remembered. -/
structure Frame where
  state : StateId
  rest : List Char
  guard : Nat
deriving DecidableEq

/-- The states that were visited, each with the guard it was visited under. -/
abbrev Visited := Std.HashSet (Nat × StateId)

/-- A search under way. The head of the stack is tried first. -/
structure Search where
  stack : List Frame
  guards : Nat
  visited : Visited

/-- The answer of a search, and how many states it visited, counted once for
each guard. -/
structure Outcome where
  accepted : Bool
  visits : Nat
deriving DecidableEq, Repr

inductive Progress where
  | running (s : Search)
  | finished (o : Outcome)

/-- The frames behind the edges on the next character, each under a new guard. They
go on the stack from the last edge to the first, and guards are issued as they do. -/
def readFrames (a : Automaton) (f : Frame) (guards : Nat) : List Frame :=
  match f.rest with
  | [] => []
  | c :: rest =>
      let dests := a.onChar f.state c
      let latest := guards + dests.length
      dests.mapIdx fun i dest => ⟨dest, rest, latest - i⟩

/-- The frames behind the epsilon edges, under the same guard. -/
def epsilonFrames (a : Automaton) (f : Frame) : List Frame :=
  (a.epsilons f.state).map fun dest => { f with state := dest }

def Search.start (a : Automaton) (input : List Char) : Search :=
  ⟨[⟨a.entry, input, 0⟩], 0, ∅⟩

/-- Takes the top frame from the stack, and expands it if its state is new
under its guard. -/
def step (a : Automaton) : Search → Progress
  | ⟨[], _, visited⟩ => .finished ⟨false, visited.size⟩
  | ⟨f :: below, guards, visited⟩ =>
      if (f.guard, f.state) ∈ visited then .running ⟨below, guards, visited⟩
      else
        let visited := visited.insert (f.guard, f.state)
        if f.rest.isEmpty && a.accepts f.state then .finished ⟨true, visited.size⟩
        else
          let read := readFrames a f guards
          .running ⟨read ++ (epsilonFrames a f ++ below), guards + read.length, visited⟩

end PatternAutomata.DepthFirst
