import PatternAutomata.Automaton.Basic

/-!
# Well-formed automata

What holds of every automaton that the operators make, however they are mixed
with wiring by hand: the entry and the exit are two of its states, input may
run out at the exit, and no edge leads out of the automaton.
-/

namespace PatternAutomata.Automaton

/-- Every edge leads to a state of the automaton. -/
structure Closed (a : Automaton) : Prop where
  edges_lt : ∀ s ∈ a.states, ∀ e ∈ s.edges.entries, ∀ dest ∈ e.2, dest < a.size
  epsilons_lt : ∀ s ∈ a.states, ∀ dest ∈ s.epsilons, dest < a.size

namespace Closed

variable {a : Automaton} {p q : StateId}

theorem lt_of_mem_epsilons (h : a.Closed) (hq : q ∈ a.epsilons p) : q < a.size := by
  rw [epsilons] at hq
  cases hs : a.state? p with
  | none => simp [hs] at hq
  | some s =>
      rw [hs, Option.elim_some] at hq
      exact h.epsilons_lt s (Array.mem_of_getElem? hs) q hq

theorem lt_of_mem_onChar {c : Char} (h : a.Closed) (hq : q ∈ a.onChar p c) : q < a.size := by
  rw [onChar] at hq
  cases hc : Symbol.ofChar? c with
  | none => simp [hc] at hq
  | some symbol =>
      rw [hc, Option.elim_some, on] at hq
      cases hs : a.state? p with
      | none => simp [hs] at hq
      | some s =>
          rw [hs, Option.elim_some] at hq
          obtain ⟨e, he, hdest⟩ := EdgeTable.exists_mem_entries_of_mem_on hq
          exact h.edges_lt s (Array.mem_of_getElem? hs) e he q hdest

end Closed

structure WellFormed (a : Automaton) : Prop extends a.Closed where
  entry_lt : a.entry < a.size
  exit_lt : a.exit < a.size
  entry_ne_exit : a.entry ≠ a.exit
  accepts_exit : a.accepts a.exit
  /-- A symbol that stands in a table has at least one destination. -/
  edges_ne_nil : ∀ s ∈ a.states, ∀ e ∈ s.edges.entries, e.2 ≠ []

end PatternAutomata.Automaton
