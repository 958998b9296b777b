import PatternAutomata.Match.StateSets
import PatternAutomata.Proofs.EpsilonClosure

/-!
# The state sets hold exactly the reachable states

The walk over a text carries one set, and this file says which: behind a
prefix of the text, the states that some path from the entry reads exactly
that prefix to. The set is closed over epsilon edges at every turn, so a path
may be cut behind any character it reads and the piece in between is one edge
on that character followed by epsilon edges, which is what a step does.

The walk stops at an empty set. Nothing leaves the empty set, so the walk is a
plain fold over the text, and stopping is invisible in the answer.
-/

namespace PatternAutomata

namespace Automaton

variable {a : Automaton} {set : StateSet} {q : StateId}

theorem mem_move {symbol : Symbol} :
    q ∈ a.move set symbol ↔ ∃ p ∈ set, q ∈ a.on p symbol := by
  simp only [move, Std.ExtTreeSet.mem_ofList, List.contains_iff_mem, List.mem_flatMap,
    Std.ExtTreeSet.mem_toList]

theorem acceptsAny_iff : a.acceptsAny set = true ↔ ∃ q ∈ set, a.accepts q = true := by
  simp only [acceptsAny, List.any_eq_true, Std.ExtTreeSet.mem_toList]

end Automaton

namespace StateSets

open Automaton

variable {a : Automaton} {current : StateSet} {q : StateId}

theorem mem_step {c : Char} :
    q ∈ step a current c ↔ ∃ p ∈ current, ∃ s ∈ a.onChar p c, a.EpsilonReach s q := by
  unfold step onChar
  cases Symbol.ofChar? c with
  | none => simp
  | some symbol =>
      simp only [Option.elim_some, mem_epsilonClosure, mem_move]
      constructor
      · rintro ⟨s, ⟨p, hp, hs⟩, hq⟩
        exact ⟨p, hp, s, hs, hq⟩
      · rintro ⟨p, hp, s, hs, hq⟩
        exact ⟨s, ⟨p, hp, hs⟩, hq⟩

theorem foldl_step_empty (text : List Char) : text.foldl (step a) ∅ = ∅ := by
  induction text with
  | nil => rfl
  | cons c rest ih =>
      have hstep : step a ∅ c = ∅ := by
        ext q
        simp [mem_step]
      rw [List.foldl_cons, hstep, ih]

theorem walk_eq_foldl (text : List Char) : walk a current text = text.foldl (step a) current := by
  induction text generalizing current with
  | nil => rfl
  | cons c rest ih =>
      rw [walk, List.foldl_cons]
      split <;> rename_i h
      · have hcurrent : current = ∅ := Std.ExtTreeSet.isEmpty_iff.1 h
        rw [hcurrent, ← List.foldl_cons, foldl_step_empty]
      · exact ih

theorem mem_start : q ∈ start a ↔ a.EpsilonReach a.entry q :=
  mem_epsilonClosure_singleton

theorem mem_foldl_step {text : List Char} :
    q ∈ text.foldl (step a) (start a) ↔ a.Path a.entry text q := by
  induction text using List.reverseRecOn generalizing q with
  | nil => rw [List.foldl_nil, mem_start, Path.nil_iff]
  | append_singleton text c ih =>
      rw [List.foldl_concat, mem_step, Path.concat_iff]
      simp only [ih]

theorem accepts_iff {input : String} : accepts a input = true ↔ input.toList ∈ a.language := by
  rw [accepts, acceptsAny_iff, walk_eq_foldl]
  simp only [mem_foldl_step]
  rfl

end StateSets

end PatternAutomata
