import Mathlib.Computability.Language
import Mathlib.Order.CompletePartialOrder
import PatternAutomata.Automaton.Basic

/-!
# Paths

What an automaton accepts, said without an algorithm: a path follows edges,
its word is made of the characters that the edges read, and a word is accepted
when it labels a path from the entry to an accepting state.
-/

namespace PatternAutomata.Automaton

/-- `a.Path p w q`: edges lead from `p` to `q` and read exactly `w`, with
epsilon edges anywhere. -/
inductive Path (a : Automaton) : StateId → List Char → StateId → Prop where
  | refl (p : StateId) : Path a p [] p
  | epsilon {p q r : StateId} {w : List Char} :
      q ∈ a.epsilons p → Path a q w r → Path a p w r
  | read {p q r : StateId} {c : Char} {w : List Char} :
      q ∈ a.onChar p c → Path a q w r → Path a p (c :: w) r

/-- Epsilon edges alone lead from one state to the other. -/
def EpsilonReach (a : Automaton) : StateId → StateId → Prop :=
  Relation.ReflTransGen fun p q => q ∈ a.epsilons p

/-- The words that some path from a state to an accepting state reads. -/
def wordsFrom (a : Automaton) (p : StateId) : Language Char :=
  { w | ∃ q, a.Path p w q ∧ a.accepts q }

def exitWordsFrom (a : Automaton) (p : StateId) : Language Char :=
  { w | a.Path p w a.exit }

def sideWordsFrom (a : Automaton) (p : StateId) : Language Char :=
  { w | ∃ q, q ≠ a.exit ∧ a.Path p w q ∧ a.accepts q }

/-- The words that some path from the entry to an accepting state reads. -/
def language (a : Automaton) : Language Char :=
  { w | ∃ q, a.Path a.entry w q ∧ a.accepts q }

/-- The words that lead to the exit. -/
def exitWords (a : Automaton) : Language Char :=
  { w | a.Path a.entry w a.exit }

/-- The words that lead to an accepting state other than the exit. -/
def sideWords (a : Automaton) : Language Char :=
  { w | ∃ q, q ≠ a.exit ∧ a.Path a.entry w q ∧ a.accepts q }

namespace Path

variable {a : Automaton} {p q r : StateId} {u v : List Char}

theorem append (h : a.Path p u q) (k : a.Path q v r) : a.Path p (u ++ v) r := by
  induction h with
  | refl _ => exact k
  | epsilon hq _ ih => exact .epsilon hq (ih k)
  | read hq _ ih => exact .read hq (ih k)

/-- A path that reads one word and then another passes a state in between. -/
theorem exists_of_append (h : a.Path p (u ++ v) r) : ∃ q, a.Path p u q ∧ a.Path q v r := by
  generalize hw : u ++ v = w at h
  induction h generalizing u with
  | refl p =>
      obtain ⟨rfl, rfl⟩ := List.append_eq_nil_iff.1 hw
      exact ⟨p, .refl p, .refl p⟩
  | epsilon hq _ ih =>
      obtain ⟨s, hs, hsr⟩ := ih hw
      exact ⟨s, .epsilon hq hs, hsr⟩
  | @read p q r c w hq htail ih =>
      cases u with
      | nil =>
          rw [List.nil_append] at hw
          exact ⟨p, .refl p, hw ▸ .read hq htail⟩
      | cons b u =>
          obtain ⟨rfl, htl⟩ := List.cons.inj hw
          obtain ⟨s, hs, hsr⟩ := ih htl
          exact ⟨s, .read hq hs, hsr⟩

theorem nil_iff : a.Path p [] q ↔ a.EpsilonReach p q := by
  constructor
  · intro h
    generalize hw : ([] : List Char) = w at h
    induction h with
    | refl p => exact .refl
    | epsilon hq _ ih => exact .head hq (ih hw)
    | read => simp at hw
  · intro h
    induction h using Relation.ReflTransGen.head_induction_on with
    | refl => exact .refl q
    | head hq _ ih => exact .epsilon hq ih

theorem singleton_iff {c : Char} :
    a.Path p [c] q ↔
      ∃ r, a.EpsilonReach p r ∧ ∃ s ∈ a.onChar r c, a.EpsilonReach s q := by
  constructor
  · intro h
    generalize hw : [c] = w at h
    induction h with
    | refl => simp at hw
    | epsilon hs _ ih =>
        obtain ⟨r, hr, hq⟩ := ih hw
        exact ⟨r, .head hs hr, hq⟩
    | @read p s q b w hs htail =>
        obtain ⟨rfl, rfl⟩ := List.cons.inj hw
        exact ⟨p, .refl, s, hs, nil_iff.1 htail⟩
  · rintro ⟨r, hr, s, hs, hq⟩
    exact (nil_iff.2 hr).append (.read hs (nil_iff.2 hq))

/-- A path that reads one more character ends with an edge on that character
and epsilon edges behind it. -/
theorem concat_iff {c : Char} :
    a.Path p (u ++ [c]) q ↔
      ∃ r, a.Path p u r ∧ ∃ s ∈ a.onChar r c, a.EpsilonReach s q := by
  constructor
  · intro h
    obtain ⟨o, ho, hq⟩ := h.exists_of_append
    obtain ⟨r, hr, hs⟩ := singleton_iff.1 hq
    have hpr := ho.append (nil_iff.2 hr)
    rw [List.append_nil] at hpr
    exact ⟨r, hpr, hs⟩
  · rintro ⟨r, hr, hs⟩
    exact hr.append (singleton_iff.2 ⟨r, .refl, hs⟩)

end Path

end PatternAutomata.Automaton
