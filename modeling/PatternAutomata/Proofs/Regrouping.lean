import PatternAutomata.Proofs.OperatorLaws
import PatternAutomata.Proofs.StepwiseOperators

/-!
# Concatenations in other groups

Concatenation is associative, not only for the words that are accepted but for
the automata, with the number of every state and the order of all edges. The
two ways do not do the same work. If the first two operands come first, the
third one is moved once, past both, and the joint in front of it is made in an
automaton that is already whole. If the last two come first, the third one is
moved twice and the joint is moved with them. So what has to be shown is that
moves add up (`map_shift_map_shift`) and that a joint may be made before a move
or after it (`map_shift_modify_exit`), whatever edges the operands have.
-/

namespace PatternAutomata

/-! ## Joints and moves -/

theorem State.shift_continueTo (k : Nat) (s : State) (dests : List StateId) :
    (s.continueTo dests).shift k = (s.shift k).continueTo (dests.map (· + k)) := by
  simp [shift, continueTo, addEpsilons]

theorem map_modify {α β : Type} {f : α → α} {g : α → β} {h : β → β}
    (hfg : ∀ x, g (f x) = h (g x)) (xs : Array α) (i : Nat) :
    (xs.modify i f).map g = (xs.map g).modify i h := by
  refine Array.ext_getElem? fun j => ?_
  rw [Array.getElem?_map, Array.getElem?_modify, Array.getElem?_modify, Array.getElem?_map]
  by_cases hij : i = j
  · rw [if_pos hij, if_pos hij, Option.map_map, Option.map_map]
    exact congrArg (Option.map · xs[j]?) (funext hfg)
  · rw [if_neg hij, if_neg hij]

namespace Automaton

variable {a b c : Automaton}

theorem map_shift_modify_exit (a : Automaton) (k : Nat) (dest : StateId) :
    (a.states.modify a.exit (·.continueTo [dest])).map (·.shift k) =
      (a.states.map (·.shift k)).modify a.exit (·.continueTo [dest + k]) :=
  map_modify (fun s => s.shift_continueTo k [dest]) a.states a.exit

theorem map_shift_map_shift (xs : Array State) (j k : Nat) :
    (xs.map (·.shift j)).map (·.shift k) = xs.map (·.shift (j + k)) := by
  rw [Array.map_map]
  exact Array.map_congr_left fun s _ => s.shift_shift j k

/-! ## Three operands -/

theorem concat_assoc (a b c : Automaton) : (a.concat b).concat c = a.concat (b.concat c) := by
  have hmoved (i : Nat) : i + (a.size + b.size) = i + b.size + a.size := by omega
  have hfront : (a.states.modify a.exit (·.continueTo [b.entry + a.size])).size = a.size :=
    Array.size_modify ..
  calc (a.concat b).concat c
      = ⟨(a.states.modify a.exit (·.continueTo [b.entry + a.size]) ++
            b.states.map (·.shift a.size)).modify (b.exit + a.size)
              (·.continueTo [c.entry + (a.size + b.size)]) ++
            c.states.map (·.shift (a.size + b.size)), a.entry, c.exit + (a.size + b.size)⟩ := by
        rw [concat, size_concat]
        rfl
    _ = ⟨a.states.modify a.exit (·.continueTo [b.entry + a.size]) ++
            ((b.states.modify b.exit (·.continueTo [c.entry + b.size])).map (·.shift a.size) ++
              (c.states.map (·.shift b.size)).map (·.shift a.size)),
          a.entry, c.exit + b.size + a.size⟩ := by
        rw [modify_append_right hfront, map_shift_modify_exit, map_shift_map_shift, hmoved, hmoved,
          Nat.add_comm a.size, Array.append_assoc]
    _ = a.concat (b.concat c) := by
        rw [← Array.map_append]
        rfl

/-- Three automata can be concatenated in either order of work, however they were
wired, and what comes out is the same. -/
theorem Obtainable.concat_regrouped (ha : Obtainable a) (hb : Obtainable b) (hc : Obtainable c) :
    (a.concat b).concat c = a.concat (b.concat c) ∧
      (do Stepwise.concat (← Stepwise.concat a b) c) = some ((a.concat b).concat c) ∧
      (do Stepwise.concat a (← Stepwise.concat b c)) = some ((a.concat b).concat c) := by
  have hwa := ha.wellFormed
  have hwb := hb.wellFormed
  have hwc := hc.wellFormed
  refine ⟨concat_assoc a b c, ?_, ?_⟩
  · rw [Stepwise.concat_eq hwa hwb]
    exact Stepwise.concat_eq (hwa.concat hwb) hwc
  · rw [Stepwise.concat_eq hwb hwc, concat_assoc]
    exact Stepwise.concat_eq hwa (hwb.concat hwc)

/-- Operands with an edge into their entry, an edge out of their exit and a
second accepting state. -/
theorem Obtainable.concat_regrouped_looped :
    looped.Obtainable ∧
      (looped.concat looped.star).concat looped = looped.concat (looped.star.concat looped) ∧
      (do Stepwise.concat (← Stepwise.concat looped looped.star) looped) =
        some ((looped.concat looped.star).concat looped) ∧
      (do Stepwise.concat looped (← Stepwise.concat looped.star looped)) =
        some ((looped.concat looped.star).concat looped) :=
  ⟨obtainable_looped,
    obtainable_looped.concat_regrouped obtainable_looped.star obtainable_looped⟩

end Automaton

end PatternAutomata
