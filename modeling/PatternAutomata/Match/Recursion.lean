import Mathlib.Algebra.GroupWithZero.Nat
import PatternAutomata.Automaton.StateSet

/-!
# Recursive search

The depth-first search said as a recursion over paths, without a stack and
without guards. It fails at once in a state that its set holds already.
Otherwise it puts the state into the set and tries the edges on the next
character, each with a set of its own, and then the epsilon edges with the same
set. The count is how often a state was put into a set.
-/

namespace PatternAutomata

mutual

/-- `Explores a rest id seen ok seen' n`: the search from a state, with `rest`
still to be read, answers `ok`, leaves the set `seen'` behind, and puts states
into sets `n` times. -/
inductive Explores (a : Automaton) :
    List Char → StateId → StateSet → Bool → StateSet → Nat → Prop where
  | known {rest : List Char} {id : StateId} {seen : StateSet} :
      id ∈ seen → Explores a rest id seen false seen 0
  | accepted {id : StateId} {seen : StateSet} :
      id ∉ seen → a.accepts id → Explores a [] id seen true (seen.insert id) 1
  | exhausted {id : StateId} {seen later : StateSet} {ok : Bool} {n : Nat} :
      id ∉ seen → a.accepts id = false →
      ExploresEpsilons a [] (a.epsilons id) (seen.insert id) ok later n →
      Explores a [] id seen ok later (n + 1)
  | readOn {c : Char} {rest : List Char} {id : StateId} {seen : StateSet} {n : Nat} :
      id ∉ seen → ExploresReads a rest (a.onChar id c) true n →
      Explores a (c :: rest) id seen true (seen.insert id) (n + 1)
  | goOn {c : Char} {rest : List Char} {id : StateId} {seen later : StateSet} {ok : Bool}
      {n m : Nat} :
      id ∉ seen → ExploresReads a rest (a.onChar id c) false n →
      ExploresEpsilons a (c :: rest) (a.epsilons id) (seen.insert id) ok later m →
      Explores a (c :: rest) id seen ok later (n + m + 1)

/-- The search behind the edges on a character, each with an empty set. -/
inductive ExploresReads (a : Automaton) : List Char → List StateId → Bool → Nat → Prop where
  | none {rest : List Char} : ExploresReads a rest [] false 0
  | found {rest : List Char} {dest : StateId} {dests : List StateId} {later : StateSet}
      {n : Nat} :
      Explores a rest dest ∅ true later n → ExploresReads a rest (dest :: dests) true n
  | next {rest : List Char} {dest : StateId} {dests : List StateId} {later : StateSet}
      {ok : Bool} {n m : Nat} :
      Explores a rest dest ∅ false later n → ExploresReads a rest dests ok m →
      ExploresReads a rest (dest :: dests) ok (n + m)

/-- The search behind the epsilon edges, which share one set. -/
inductive ExploresEpsilons (a : Automaton) :
    List Char → List StateId → StateSet → Bool → StateSet → Nat → Prop where
  | none {rest : List Char} {seen : StateSet} : ExploresEpsilons a rest [] seen false seen 0
  | found {rest : List Char} {dest : StateId} {dests : List StateId} {seen later : StateSet}
      {n : Nat} :
      Explores a rest dest seen true later n →
      ExploresEpsilons a rest (dest :: dests) seen true later n
  | next {rest : List Char} {dest : StateId} {dests : List StateId}
      {seen between later : StateSet} {ok : Bool} {n m : Nat} :
      Explores a rest dest seen false between n →
      ExploresEpsilons a rest dests between ok later m →
      ExploresEpsilons a rest (dest :: dests) seen ok later (n + m)

end

/-- How often a search that finds nothing puts a state into a set: once for
every state that epsilon edges lead to, and again behind each edge on the next
character. -/
def visitBound (a : Automaton) : List Char → StateId → Nat
  | [], id => (a.epsilonClosure {id}).size
  | c :: rest, id =>
      (a.epsilonClosure {id}).size
        + ((a.epsilonClosure {id}).toList.map fun q =>
            ((a.onChar q c).map (visitBound a rest)).sum).sum

end PatternAutomata
