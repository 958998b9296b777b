import PatternAutomata.Automaton.Basic
import Std.Data.ExtTreeSet

/-!
# Sets of states

Finite sets of states, listed in ascending order, and what can be done with
them: following a symbol, and closing over epsilon edges.

The closure is computed with a worklist. A state enters the list when it
enters the set, so the epsilon edges that still lead out of the set and the
length of the list pay for every round, cycles or not.
-/

namespace PatternAutomata

/-- A set of states; two sets with the same members are equal. -/
abbrev StateSet := Std.ExtTreeSet StateId

namespace StateSet

/-- Adds those of the destinations that the set lacks to the set and to the
states that wait to be looked at. -/
def discover : List StateId → StateSet → List StateId → StateSet × List StateId
  | [], seen, waiting => (seen, waiting)
  | dest :: rest, seen, waiting =>
      if dest ∈ seen then discover rest seen waiting
      else discover rest (seen.insert dest) (dest :: waiting)

end StateSet

namespace Automaton

/-- The destination of every epsilon edge, once for each edge. -/
def epsilonTargets (a : Automaton) : List StateId :=
  a.states.toList.flatMap (·.epsilons)

/-- How many epsilon edges lead out of a set. -/
def unseenTargets (a : Automaton) (seen : StateSet) : Nat :=
  a.epsilonTargets.countP (· ∉ seen)

theorem mem_epsilonTargets {a : Automaton} {src dest : StateId}
    (h : dest ∈ a.epsilons src) : dest ∈ a.epsilonTargets := by
  unfold epsilons at h
  cases hs : a.state? src with
  | none => simp [hs] at h
  | some s =>
      simp only [hs, Option.elim_some] at h
      exact List.mem_flatMap.2 ⟨s, Array.mem_toList_iff.2 (Array.mem_of_getElem? hs), h⟩

theorem unseenTargets_insert_lt {a : Automaton} {seen : StateSet} {dest : StateId}
    (hdest : dest ∈ a.epsilonTargets) (h : dest ∉ seen) :
    a.unseenTargets (seen.insert dest) < a.unseenTargets seen := by
  unfold unseenTargets
  generalize a.epsilonTargets = targets at hdest
  induction targets with
  | nil => simp at hdest
  | cons t rest ih =>
      have hle : rest.countP (· ∉ seen.insert dest) ≤ rest.countP (· ∉ seen) :=
        List.countP_mono_left fun x _ hx => by
          simp only [decide_eq_true_eq, Std.ExtTreeSet.mem_insert] at hx ⊢
          exact fun hmem => hx (.inr hmem)
      rw [List.countP_cons, List.countP_cons]
      by_cases ht : t = dest
      · rw [if_neg (by simp [ht]), if_pos (by simpa [ht] using h)]
        omega
      · have hiff : t ∉ seen.insert dest ↔ t ∉ seen := by simp [Ne.symm ht]
        have hlt := ih (by simpa [Ne.symm ht] using hdest)
        simp only [hiff]
        omega

theorem discover_decreases {a : Automaton} {dests : List StateId} (seen : StateSet)
    (waiting : List StateId) (h : ∀ dest ∈ dests, dest ∈ a.epsilonTargets) :
    a.unseenTargets (StateSet.discover dests seen waiting).1
        + (StateSet.discover dests seen waiting).2.length
      ≤ a.unseenTargets seen + waiting.length := by
  induction dests generalizing seen waiting with
  | nil => simp [StateSet.discover]
  | cons dest rest ih =>
      have hrest := fun d hd => h d (List.mem_cons_of_mem _ hd)
      rw [StateSet.discover]
      split
      · exact ih seen waiting hrest
      · rename_i hnew
        have hlt := unseenTargets_insert_lt (h dest List.mem_cons_self) hnew
        have hle := ih (seen.insert dest) (dest :: waiting) hrest
        rw [List.length_cons] at hle
        omega

/-- Follows epsilon edges from the waiting states until they lead to no state
that is not in the set already. -/
def saturate (a : Automaton) (seen : StateSet) (waiting : List StateId) : StateSet :=
  match waiting with
  | [] => seen
  | id :: rest =>
      let found := StateSet.discover (a.epsilons id) seen rest
      a.saturate found.1 found.2
termination_by a.unseenTargets seen + waiting.length
decreasing_by
  have := discover_decreases seen rest
    fun dest (h : dest ∈ a.epsilons id) => mem_epsilonTargets h
  simp only [List.length_cons]
  omega

/-- The members of a set and all states that epsilon edges lead to from there. -/
def epsilonClosure (a : Automaton) (set : StateSet) : StateSet :=
  a.saturate set set.toList

/-- The states that some member of a set leads to by reading a symbol. -/
def move (a : Automaton) (set : StateSet) (symbol : Symbol) : StateSet :=
  .ofList (set.toList.flatMap (a.on · symbol))

def acceptsAny (a : Automaton) (set : StateSet) : Bool :=
  set.toList.any a.accepts

end Automaton

end PatternAutomata
