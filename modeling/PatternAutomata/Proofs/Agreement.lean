import PatternAutomata.Match.Engine
import PatternAutomata.Proofs.GuardedSearch
import PatternAutomata.Proofs.ReachableStates

/-!
# Both engines decide the language

One engine follows a path at a time and cuts it where a state comes back under
its guard, the other follows all paths at once. Each of them has been compared
with paths already, on automata of any shape, and so they agree with each
other: on cycles of epsilon edges, on edges that lead nowhere and on
characters that no edge can read.
-/

namespace PatternAutomata.Engine

variable {a : Automaton} {input : String}

theorem accepts_iff (engine : Engine) :
    engine.accepts a input = true ↔ input.toList ∈ a.language := by
  cases engine with
  | depthFirst => exact DepthFirst.accepts_iff
  | stateSets => exact StateSets.accepts_iff

/-- The two engines give the same answer, which is whether some path from the
entry to an accepting state reads the text. -/
theorem depthFirst_eq_stateSets (a : Automaton) (input : String) :
    DepthFirst.accepts a input = StateSets.accepts a input ∧
      (StateSets.accepts a input = true ↔ input.toList ∈ a.language) := by
  refine ⟨?_, StateSets.accepts_iff⟩
  rw [Bool.eq_iff_iff, DepthFirst.accepts_iff, StateSets.accepts_iff]

end PatternAutomata.Engine
