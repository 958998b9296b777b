import PatternAutomata.Match.Effort
import PatternAutomata.Log

/-!
# Depth-first matching

The search of `Search`, run to its end. It keeps nothing between two paths, so
an ambiguous automaton can make it visit a number of states that is
exponential in the length of the text.
-/

namespace PatternAutomata.DepthFirst

/-- Takes steps until the search is finished. -/
def run (a : Automaton) (s : Search) : Outcome :=
  match _h : step a s with
  | .finished o => o
  | .running t => run a t
termination_by effort a s
decreasing_by exact effort_lt_of_step ‹_›

/-- Searches for a path that reads the whole text and ends in an accepting
state. -/
def search (a : Automaton) (input : String) : Outcome :=
  run a (.start a input.toList)

def accepts (a : Automaton) (input : String) : Bool :=
  (search a input).accepted

/-- What a finished search reports. -/
def Outcome.report (o : Outcome) : List LogEntry :=
  [.searched o.accepted o.visits]

theorem run_of_step_eq_running {a : Automaton} {s t : Search} (h : step a s = .running t) :
    run a s = run a t := by
  rw [run]
  split <;> simp_all

theorem run_of_step_eq_finished {a : Automaton} {s : Search} {o : Outcome}
    (h : step a s = .finished o) : run a s = o := by
  rw [run]
  split <;> simp_all

end PatternAutomata.DepthFirst
