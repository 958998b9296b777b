import PatternAutomata.Automaton.Path
import PatternAutomata.Automaton.WellFormed

/-!
# Thompson automata

The shape of the automata in Thompson's construction. It is what makes gluing
such automata together harmless: nothing comes back to the entry, nothing goes
on from the exit, and no state lies beside the paths between the two.
-/

namespace PatternAutomata

/-- How a state looks that input does not end in: it reads one symbol, or it
reads nothing and goes on in one way or in two. -/
inductive State.Inner : State → Prop
  | reads (symbol : Symbol) (dest : StateId) : Inner { edges := .single symbol dest }
  | goesOn (dest : StateId) : Inner { epsilons := [dest] }
  | forks (first second : StateId) : Inner { epsilons := [first, second] }

namespace Automaton

/-- Some edge leads from the one state to the other. -/
def Edge (a : Automaton) (p q : StateId) : Prop :=
  q ∈ a.epsilons p ∨ ∃ symbol, q ∈ a.on p symbol

/-- The state lies on a path from the entry to the exit. -/
def OnPath (a : Automaton) (p : StateId) : Prop :=
  ∃ u v, a.Path a.entry u p ∧ a.Path p v a.exit

structure Thompson (a : Automaton) : Prop extends a.WellFormed where
  /-- Input may run out at the exit, and no edge leaves it. -/
  exit_state : a.state? a.exit = some { accepting := true }
  inner : ∀ p s, a.state? p = some s → p ≠ a.exit → s.Inner
  no_edge_to_entry : ∀ p, ¬ a.Edge p a.entry
  onPath : ∀ p < a.size, a.OnPath p

theorem Edge.lt_size {a : Automaton} {p q : StateId} (h : a.Edge p q) : p < a.size := by
  rcases h with h | ⟨symbol, h⟩
  · exact lt_size_of_mem_epsilons h
  · refine Nat.lt_of_not_le fun hp => ?_
    simp [on_of_size_le hp] at h

theorem Closed.lt_of_edge {a : Automaton} {p q : StateId} (h : a.Closed) (hq : a.Edge p q) :
    q < a.size := by
  rcases hq with hq | ⟨symbol, hq⟩
  · exact h.lt_of_mem_epsilons hq
  · refine h.lt_of_mem_onChar (c := Symbol.toChar symbol) (p := p) ?_
    rwa [onChar, Symbol.ofChar?_toChar]

theorem edge_iff {a : Automaton} {p q : StateId} {s : State} (hs : a.state? p = some s) :
    a.Edge p q ↔ q ∈ s.epsilons ∨ ∃ symbol, q ∈ s.edges.on symbol := by
  simp [Edge, epsilons, on, hs]

theorem OnPath.exit {a : Automaton} {p : StateId} (h : a.OnPath p) : a.OnPath a.exit := by
  obtain ⟨u, v, hin, hout⟩ := h
  exact ⟨u ++ v, [], hin.append hout, .refl a.exit⟩

end Automaton

end PatternAutomata
