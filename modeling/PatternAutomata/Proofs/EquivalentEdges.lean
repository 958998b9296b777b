import PatternAutomata.Proofs.HandWiring
import PatternAutomata.Proofs.Trail

/-!
# Edges that make no difference

Two ways to write down the same automaton. An epsilon edge is redundant if other
epsilon edges lead where it leads (`redundant_epsilon_unseen`), and edges may be
put into another order or be repeated (`SameEdges.unseen`). Neither engine gives
another answer for it.

The depth-first search tries the edges in their order, so it goes other ways and
stops at other places. Only when it fails it has nothing left to try, and then
even the count of its visits is the same. A repeated edge on a symbol is the one
thing that the count shows.
-/

namespace PatternAutomata.Automaton

open InPlace

variable {a b : Automaton} {p src dest : StateId}

/-! ## An epsilon edge more -/

namespace Rewired

theorem epsilons_src (h : a.Rewired b src (State.GainsEpsilon dest)) :
    b.epsilons src = a.epsilons src ++ [dest] := by
  obtain ⟨s, t, hs, ht, hgains⟩ := h.changed
  rw [epsilons, epsilons, hs, ht]
  exact hgains.epsilons_eq

theorem epsilons_of_ne (h : a.Rewired b src (State.GainsEpsilon dest)) (hp : p ≠ src) :
    b.epsilons p = a.epsilons p := by
  rw [epsilons, epsilons, h.state?_eq p hp]

theorem onChar_eq (h : a.Rewired b src (State.GainsEpsilon dest)) (p : StateId) (c : Char) :
    b.onChar p c = a.onChar p c := by
  have hon (symbol : Symbol) : b.on p symbol = a.on p symbol := by
    obtain ⟨s, t, hs, ht, hgains⟩ := h.changed
    by_cases hp : p = src
    · rw [hp, on, on, hs, ht, Option.elim_some, Option.elim_some, hgains.edges_eq]
    · rw [on, on, h.state?_eq p hp]
  rw [onChar, onChar, funext hon]

/-- The new edge can be replaced by old ones, so each of the two automata does
what the other does. -/
theorem matches_of_reach (h : a.Rewired b src (State.GainsEpsilon dest))
    (hreach : a.EpsilonReach src dest) : b.Matches a := by
  have hgrown := h.mono fun _ _ => State.GainsEpsilon.grows
  refine ⟨hgrown.simulates, ⟨h.entry_eq.symm, fun p q hq => ?_, fun p c q hq => ?_⟩,
    hgrown.accepts_eq⟩
  · by_cases hp : p = src
    · rw [hp, h.epsilons_src, List.mem_append, List.mem_singleton] at hq
      rcases hq with hq | rfl
      · exact .single (hp ▸ hq)
      · exact hp ▸ hreach
    · rw [h.epsilons_of_ne hp] at hq
      exact .single hq
  · rwa [h.onChar_eq] at hq

end Rewired

/-- An epsilon edge between two states of which the second is in the closure of
the first. It can be added, and nothing shows on any text: both engines answer as
before, the state sets are the same, and a search that fails makes as many visits. -/
theorem redundant_epsilon_unseen (hsrc : src < a.size) (hdest : dest < a.size)
    (h : dest ∈ a.epsilonClosure {src}) :
    ∃ b, a.addEpsilon src dest = .ok b ∧
      ∀ input : String, b.LooksAlike a input ∧
        (DepthFirst.accepts a input = false →
          (DepthFirst.search b input).visits = (DepthFirst.search a input).visits) := by
  have hroom : ¬ (a.size ≤ dest ∨ a.size ≤ src) := by
    rw [not_or]
    exact ⟨Nat.not_le.2 hdest, Nat.not_le.2 hsrc⟩
  obtain ⟨b, hb, -, hrewired, -⟩ := (wires_addEpsilon a src dest).of_not_refused hroom
  have hmatches := hrewired.matches_of_reach (mem_epsilonClosure_singleton.1 h)
  refine ⟨b, hb, fun input => ⟨hmatches.looksAlike input, hmatches.visits_eq fun p c => ?_⟩⟩
  rw [hrewired.onChar_eq]

theorem not_accepts_of_large {input : String} {c : Char} (hc : c ∈ input.toList)
    (hlarge : 255 < c.toNat) : DepthFirst.accepts a input = false := by
  refine Bool.eq_false_of_not_eq_true fun hacc => ?_
  obtain ⟨q, hpath, -⟩ := DepthFirst.accepts_iff.1 hacc
  exact absurd (hpath.toNat_le c hc) (Nat.not_le.2 hlarge)

/-- A loop on a state that lies on a cycle of epsilon edges. -/
theorem redundant_epsilon_unseen_cycle :
    let a := (ofSymbol 97).star.star
    3 ∈ a.epsilons 2 ∧ 2 ∈ a.epsilons 3 ∧ 3 < a.size ∧ 3 ∈ a.epsilonClosure {3} ∧
      ∃ b, a.addEpsilon 3 3 = .ok b ∧ b.LooksAlike a "aa" ∧
        (DepthFirst.search b "aλ").visits = (DepthFirst.search a "aλ").visits := by
  intro a
  have hsize : a.size = 6 := by simp [a]
  have hlt : 3 < a.size := by omega
  have hclosure : 3 ∈ a.epsilonClosure {3} := mem_epsilonClosure_singleton.2 .refl
  have hrejected : DepthFirst.accepts a "aλ" = false :=
    not_accepts_of_large (c := 'λ') (by decide) (by decide)
  obtain ⟨b, hb, hunseen⟩ := redundant_epsilon_unseen hlt hlt hclosure
  exact ⟨by decide +kernel, by decide +kernel, hlt, hclosure, b, hb, (hunseen "aa").1,
    (hunseen "aλ").2 hrejected⟩

/-! ## Other lists of the same edges -/

/-- The automata have as many states, the same entry and the same accepting
states, and the lists of destinations have the same members. -/
structure SameEdges (b a : Automaton) : Prop where
  size_eq : b.size = a.size
  entry_eq : b.entry = a.entry
  accepts_eq : ∀ p < a.size, b.accepts p = a.accepts p
  mem_epsilons_iff : ∀ p < a.size, ∀ q, q ∈ b.epsilons p ↔ q ∈ a.epsilons p
  mem_on_iff : ∀ p < a.size, ∀ symbol q, q ∈ b.on p symbol ↔ q ∈ a.on p symbol

namespace SameEdges

theorem symm (h : b.SameEdges a) : a.SameEdges b where
  size_eq := h.size_eq.symm
  entry_eq := h.entry_eq.symm
  accepts_eq p hp := (h.accepts_eq p (h.size_eq ▸ hp)).symm
  mem_epsilons_iff p hp q := (h.mem_epsilons_iff p (h.size_eq ▸ hp) q).symm
  mem_on_iff p hp symbol q := (h.mem_on_iff p (h.size_eq ▸ hp) symbol q).symm

theorem simulates (h : b.SameEdges a) : b.Simulates a where
  entry_eq := h.entry_eq
  reach_of_mem p q hq := .single ((h.mem_epsilons_iff p (lt_size_of_mem_epsilons hq) q).2 hq)
  mem_onChar p c q hq := by
    have hp : p < a.size := lt_size_of_mem_onChar hq
    exact onChar_subset (fun symbol q hq => (h.mem_on_iff p hp symbol q).2 hq) c hq

theorem matching (h : b.SameEdges a) : b.Matches a where
  forth := h.simulates
  back := h.symm.simulates
  accepts_eq p := by
    by_cases hp : p < a.size
    · exact h.accepts_eq p hp
    · have hp : a.size ≤ p := Nat.le_of_not_lt hp
      rw [accepts_of_size_le hp, accepts_of_size_le (h.size_eq ▸ hp)]

theorem perm_onChar (h : b.SameEdges a)
    (hperm : ∀ p < a.size, ∀ symbol, (b.on p symbol).Perm (a.on p symbol)) (p : StateId)
    (c : Char) : (b.onChar p c).Perm (a.onChar p c) := by
  rw [onChar, onChar]
  cases Symbol.ofChar? c with
  | none => exact .nil
  | some symbol =>
      rw [Option.elim_some, Option.elim_some]
      by_cases hp : p < a.size
      · exact hperm p hp symbol
      · have hp : a.size ≤ p := Nat.le_of_not_lt hp
        rw [on_of_size_le hp, on_of_size_le (h.size_eq ▸ hp)]

/-- Neither the order of edges nor their repetition shows in an answer of either
engine or in the state sets. If the edges on symbols are at least repeated as
often, it does not show in the visits of a search that fails. -/
theorem unseen (h : b.SameEdges a) (input : String) :
    b.LooksAlike a input ∧
      ((∀ p < a.size, ∀ symbol, (b.on p symbol).Perm (a.on p symbol)) →
        DepthFirst.accepts a input = false →
          (DepthFirst.search b input).visits = (DepthFirst.search a input).visits) :=
  ⟨h.matching.looksAlike input, fun hperm => h.matching.visits_eq (h.perm_onChar hperm)⟩

/-- Edges in another order, two of the epsilon edges twice, and a cycle. -/
theorem unseen_reordered :
    let a : Automaton := ⟨#[{ edges := (EdgeTable.single 97 1).insert 97 2, epsilons := [1, 2] },
      { accepting := true }, { epsilons := [0] }], 0, 1⟩
    let b : Automaton := ⟨#[{ edges := (EdgeTable.single 97 2).insert 97 1, epsilons := [2, 1, 2] },
      { accepting := true }, { epsilons := [0, 0] }], 0, 1⟩
    b.SameEdges a ∧ b.LooksAlike a "aa" ∧
      (DepthFirst.search b "aλ").visits = (DepthFirst.search a "aλ").visits := by
  intro a b
  have hentry (symbol : Symbol) : (b.on 0 symbol).Perm (a.on 0 symbol) := by
    show (((EdgeTable.single 97 2).insert 97 1).on symbol).Perm
      (((EdgeTable.single 97 1).insert 97 2).on symbol)
    rw [EdgeTable.on_insert, EdgeTable.on_insert, EdgeTable.on_single, EdgeTable.on_single]
    split
    · exact .swap 1 2 []
    · exact .nil
  have hsame : b.SameEdges a := by
    refine ⟨rfl, rfl, by decide, fun p hp q => ?_, fun p hp symbol q => ?_⟩
    · match p, hp with
      | 0, _ => show q ∈ [2, 1, 2] ↔ q ∈ [1, 2]; grind
      | 1, _ => exact Iff.rfl
      | 2, _ => show q ∈ [0, 0] ↔ q ∈ [0]; grind
    · match p, hp with
      | 0, _ => exact (hentry symbol).mem_iff
      | 1, _ => exact Iff.rfl
      | 2, _ => exact Iff.rfl
  have hperm : ∀ p < a.size, ∀ symbol, (b.on p symbol).Perm (a.on p symbol)
    | 0, _, symbol => hentry symbol
    | 1, _, _ => .nil
    | 2, _, _ => .nil
  have hrejected : DepthFirst.accepts a "aλ" = false :=
    not_accepts_of_large (c := 'λ') (by decide) (by decide)
  exact ⟨hsame, (unseen hsame "aa").1, (unseen hsame "aλ").2 hperm hrejected⟩

end SameEdges

end PatternAutomata.Automaton
