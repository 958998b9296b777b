import PatternAutomata.Automaton.EdgeTable

/-!
# Automata

A nondeterministic automaton with one entry and one exit. Its states are
numbered from 0, and an edge names its destination by that number. A state may
also be left by epsilon edges, which read nothing.

Nothing in the type keeps a number in range: an automaton is data, and an id
that no state has is a dead end for everything that walks over edges.
-/

namespace PatternAutomata

/-- One state: whether input may run out in it, and the edges that leave it. -/
structure State where
  accepting : Bool := false
  edges : EdgeTable := .empty
  /-- The destinations of the epsilon edges, in the order they were added. -/
  epsilons : List StateId := []
deriving DecidableEq

namespace State

/-- The state as it stands when `k` states have been put before its automaton. -/
def shift (k : Nat) (s : State) : State :=
  { s with edges := s.edges.map (· + k), epsilons := s.epsilons.map (· + k) }

def addEdge (s : State) (symbol : Symbol) (dest : StateId) : State :=
  { s with edges := s.edges.insert symbol dest }

def addEpsilons (s : State) (dests : List StateId) : State :=
  { s with epsilons := s.epsilons ++ dests }

/-- Input no longer ends here: it goes on to the given states. -/
def continueTo (s : State) (dests : List StateId) : State :=
  { s.addEpsilons dests with accepting := false }

@[simp] theorem accepting_shift (k : Nat) (s : State) :
    (s.shift k).accepting = s.accepting := rfl

@[simp] theorem on_shift (k : Nat) (s : State) (symbol : Symbol) :
    (s.shift k).edges.on symbol = (s.edges.on symbol).map (· + k) :=
  EdgeTable.on_map ..

@[simp] theorem epsilons_shift (k : Nat) (s : State) :
    (s.shift k).epsilons = s.epsilons.map (· + k) := rfl

@[simp] theorem edges_continueTo (s : State) (dests : List StateId) :
    (s.continueTo dests).edges = s.edges := rfl

@[simp] theorem epsilons_continueTo (s : State) (dests : List StateId) :
    (s.continueTo dests).epsilons = s.epsilons ++ dests := rfl

@[simp] theorem accepting_continueTo (s : State) (dests : List StateId) :
    (s.continueTo dests).accepting = false := rfl

@[simp] theorem shift_zero (s : State) : s.shift 0 = s := by
  simp [shift, EdgeTable.map]

theorem shift_shift (j k : Nat) (s : State) :
    (s.shift j).shift k = s.shift (j + k) := by
  have h : (fun id : StateId => id + k) ∘ (fun id => id + j) = fun id => id + (j + k) := by
    funext id
    simp [Nat.add_assoc]
  simp [shift, EdgeTable.map_map, h]

end State

/-- A nondeterministic automaton with epsilon edges. -/
structure Automaton where
  states : Array State
  entry : StateId
  exit : StateId
deriving DecidableEq

namespace Automaton

def size (a : Automaton) : Nat := a.states.size

def isEmpty (a : Automaton) : Bool := a.states.isEmpty

def state? (a : Automaton) (id : StateId) : Option State := a.states[id]?

/-- The states that reading a symbol leads to, in the order of the edges. -/
def on (a : Automaton) (id : StateId) (symbol : Symbol) : List StateId :=
  (a.state? id).elim [] (·.edges.on symbol)

/-- The states that reading a character leads to. No edge reads a character
that stands for no symbol. -/
def onChar (a : Automaton) (id : StateId) (c : Char) : List StateId :=
  (Symbol.ofChar? c).elim [] (a.on id)

/-- The states one epsilon edge away, in the order of the edges. -/
def epsilons (a : Automaton) (id : StateId) : List StateId :=
  (a.state? id).elim [] (·.epsilons)

def accepts (a : Automaton) (id : StateId) : Bool :=
  (a.state? id).elim false (·.accepting)

theorem state?_eq_none_iff {a : Automaton} {id : StateId} :
    a.state? id = none ↔ a.size ≤ id := by
  simp [state?, size]

theorem epsilons_of_size_le {a : Automaton} {id : StateId} (h : a.size ≤ id) :
    a.epsilons id = [] := by
  simp [epsilons, state?_eq_none_iff.2 h]

theorem on_of_size_le {a : Automaton} {id : StateId} (h : a.size ≤ id)
    (symbol : Symbol) : a.on id symbol = [] := by
  simp [on, state?_eq_none_iff.2 h]

theorem accepts_of_size_le {a : Automaton} {id : StateId} (h : a.size ≤ id) :
    a.accepts id = false := by
  simp [accepts, state?_eq_none_iff.2 h]

/-! Only a state of the automaton has edges or accepts. -/

theorem lt_size_of_mem_epsilons {a : Automaton} {p q : StateId} (h : q ∈ a.epsilons p) :
    p < a.size := by
  refine Nat.lt_of_not_le fun hp => ?_
  simp [epsilons_of_size_le hp] at h

theorem lt_size_of_mem_onChar {a : Automaton} {p q : StateId} {c : Char}
    (h : q ∈ a.onChar p c) : p < a.size := by
  refine Nat.lt_of_not_le fun hp => ?_
  rw [onChar] at h
  cases hs : Symbol.ofChar? c with
  | none => simp [hs] at h
  | some s => simp [hs, on_of_size_le hp] at h

theorem lt_size_of_accepts {a : Automaton} {p : StateId} (h : a.accepts p = true) :
    p < a.size := by
  refine Nat.lt_of_not_le fun hp => ?_
  simp [accepts_of_size_le hp] at h

end Automaton

end PatternAutomata
