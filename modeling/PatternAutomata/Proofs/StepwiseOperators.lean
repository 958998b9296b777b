import PatternAutomata.Proofs.WellFormedness
import PatternAutomata.Stepwise

/-!
# The operators step by step

On well-formed operands every step of an operator can be done, and what comes
out in the end is what the operator is defined to be. All that is asked of an
operand is that its entry and its exit are states of it.

The automaton that grows has two parts most of the time, the states that were
there and the block behind them, and each step changes one of the two.
-/

namespace PatternAutomata

/-! ## Arrays in two parts -/

section Arrays

variable {α : Type} {xs ys : Array α} {f g : α → α} {i k : Nat}

theorem modify_append_left (hi : i < xs.size) : (xs ++ ys).modify i f = xs.modify i f ++ ys := by
  refine Array.ext_getElem? fun j => ?_
  rw [Array.getElem?_modify, Array.getElem?_append, Array.getElem?_append, Array.size_modify,
    Array.getElem?_modify]
  by_cases hj : j < xs.size
  · rw [if_pos hj, if_pos hj]
  · rw [if_neg (by omega), if_neg hj, if_neg hj]

theorem modify_append_right (hk : xs.size = k) :
    (xs ++ ys).modify (i + k) f = xs ++ ys.modify i f := by
  refine Array.ext_getElem? fun j => ?_
  rw [Array.getElem?_modify, Array.getElem?_append, Array.getElem?_append, Array.getElem?_modify]
  by_cases hj : j < xs.size
  · rw [if_neg (by omega), if_pos hj, if_pos hj]
  · rw [if_neg hj, if_neg hj]
    by_cases hij : i + k = j
    · rw [if_pos hij, if_pos (by omega)]
    · rw [if_neg hij, if_neg (by omega)]

theorem modify_modify : (xs.modify i f).modify i g = xs.modify i (g ∘ f) := by
  refine Array.ext' ?_
  rw [Array.toList_modify, Array.toList_modify, Array.toList_modify, List.modify_modify_eq]

end Arrays

/-! ## Growing automata -/

theorem State.addEpsilons_continueTo (s : State) (dests more : List StateId) :
    (s.continueTo dests).addEpsilons more = s.continueTo (dests ++ more) := by
  simp [continueTo, addEpsilons]

theorem State.continueTo_nil (s : State) : s.continueTo [] = { s with accepting := false } := by
  simp [continueTo, addEpsilons]

namespace Automaton

variable {a : Automaton} {xs ys : Array State} {entry exit src dest k : Nat} {next : List StateId}

theorem size_mk_append : size ⟨xs ++ ys, entry, exit⟩ = ys.size + xs.size :=
  Array.size_append.trans (Nat.add_comm _ _)

theorem connect?_eq_some (hsrc : src < a.size) (hdest : dest < a.size) :
    a.connect? src dest = some { a with states := a.states.modify src (·.addEpsilons [dest]) } :=
  (if_pos hdest).trans (if_pos hsrc)

/-- A state before the last block gets an edge. -/
theorem connect?_front (hsrc : src < xs.size) (hdest : dest < ys.size + xs.size) :
    connect? ⟨xs ++ ys, entry, exit⟩ src dest =
      some ⟨xs.modify src (·.addEpsilons [dest]) ++ ys, entry, exit⟩ := by
  rw [connect?_eq_some (size_mk_append ▸ Nat.lt_add_left _ hsrc) (size_mk_append ▸ hdest),
    modify_append_left hsrc]

theorem modify_block (a : Automaton) (k : Nat) (next : List StateId) (dest : StateId) :
    (a.block k next).modify a.exit (·.addEpsilons [dest]) = a.block k (next ++ [dest]) := by
  rw [block, modify_modify]
  exact congrArg _ (funext fun s => s.addEpsilons_continueTo next [dest])

/-- The exit of the last block gets an edge. -/
theorem connect?_exit (hk : xs.size = k) (ha : a.exit < a.size) (hdest : dest < a.size + k) :
    connect? ⟨xs ++ a.block k next, entry, exit⟩ (a.exit + k) dest =
      some ⟨xs ++ a.block k (next ++ [dest]), entry, exit⟩ := by
  have hsize : size ⟨xs ++ a.block k next, entry, exit⟩ = a.size + k := by
    rw [size_mk_append, size_block, hk]
  rw [connect?_eq_some (hsize ▸ Nat.add_lt_add_right ha k) (hsize ▸ hdest), modify_append_right hk,
    modify_block]

/-- A block that was taken in, with its exit not accepting any more. -/
theorem setAccepting_absorb (a b : Automaton) :
    (a.absorb b).setAccepting (b.exit + a.size) false =
      ⟨a.states ++ b.block a.size [], a.entry, a.exit⟩ := by
  have hstates : (a.states ++ b.states.map (·.shift a.size)).modify (b.exit + a.size)
      (fun s => { s with accepting := false }) = a.states ++ b.block a.size [] := by
    rw [modify_append_right (size.eq_1 a).symm, block]
    exact congrArg _ (congrArg _ (funext fun s => s.continueTo_nil.symm))
  exact congrArg (fun states => Automaton.mk states a.entry a.exit) hstates

end Automaton

namespace Stepwise

open Automaton

variable {a b : Automaton}

/-! ## What the steps come to -/

theorem concat_eq (ha : a.WellFormed) (hb : b.WellFormed) : concat a b = some (a.concat b) := by
  -- The first exit is changed twice, before the second operand comes in and after.
  have hgrown : (a.setAccepting a.exit false).absorb b =
      ⟨a.states.modify a.exit (fun s => { s with accepting := false }) ++
        b.states.map (·.shift a.size), a.entry, a.exit⟩ := by
    rw [absorb, setAccepting, size, Array.size_modify]
    rfl
  rw [concat, hgrown, connect?_front, modify_modify]
  · rfl
  · rw [Array.size_modify]
    exact ha.exit_lt
  · rw [Array.size_map, Array.size_modify]
    exact Nat.add_lt_add_right hb.entry_lt a.size

theorem addAlternative_eq (hentry : a.entry < a.size) (hexit : a.exit < a.size)
    (hb : b.WellFormed) :
    addAlternative a b = some ⟨a.states.modify a.entry (·.addEpsilons [b.entry + a.size]) ++
      b.block a.size [a.exit], a.entry, a.exit⟩ := by
  have hinto : b.entry + a.size < (b.block a.size []).size + a.states.size := by
    rw [size_block]
    exact Nat.add_lt_add_right hb.entry_lt a.size
  rw [addAlternative, setAccepting_absorb, connect?_front hentry hinto]
  exact connect?_exit (Array.size_modify ..) hb.exit_lt (Nat.lt_add_left _ hexit)

theorem union_eq (ha : a.WellFormed) (hb : b.WellFormed) : union a b = some (a.union b) := by
  -- Stated for any front: by the second turn the entry has an edge to the first operand.
  have hsecond (front : Array State) (hfront : front.size = 2) :
      addAlternative ⟨front ++ a.block 2 [1], 0, 1⟩ b =
        some ⟨front.modify 0 (·.addEpsilons [b.entry + (a.size + 2)]) ++ a.block 2 [1] ++
          b.block (a.size + 2) [1], 0, 1⟩ := by
    have hsize : size ⟨front ++ a.block 2 [1], 0, 1⟩ = a.size + 2 := by
      rw [size_mk_append, size_block, hfront]
    have hone : 1 < a.size + 2 := Nat.lt_add_left _ Nat.one_lt_two
    rw [addAlternative_eq (hsize ▸ Nat.lt_of_succ_lt hone) (hsize ▸ hone) hb, hsize,
      modify_append_left (hfront ▸ Nat.zero_lt_two)]
  refine Option.bind_eq_some_iff.2 ⟨_, addAlternative_eq Nat.zero_lt_two Nat.one_lt_two ha, ?_⟩
  exact hsecond _ rfl

theorem star_eq (ha : a.WellFormed) : star a = some a.star := by
  have hentry : a.entry + 2 < a.size + 2 := Nat.add_lt_add_right ha.entry_lt 2
  have hone : 1 < a.size + 2 := Nat.lt_add_left _ Nat.one_lt_two
  have hsize (next : List StateId) : (a.block 2 next).size + 2 = a.size + 2 := by rw [size_block]
  rw [star, setAccepting_absorb]
  refine Option.bind_eq_some_iff.2 ⟨_, connect?_exit rfl ha.exit_lt hentry, ?_⟩
  refine Option.bind_eq_some_iff.2 ⟨_, connect?_exit rfl ha.exit_lt hone, ?_⟩
  refine Option.bind_eq_some_iff.2 ⟨_, connect?_front Nat.zero_lt_two (hsize _ ▸ hentry), ?_⟩
  exact connect?_front Nat.zero_lt_two (hsize _ ▸ hone)

theorem plus_eq (ha : a.WellFormed) : plus a = some a.plus := by
  rw [plus, star_eq ha]
  exact concat_eq ha ha.star

end Stepwise

end PatternAutomata
