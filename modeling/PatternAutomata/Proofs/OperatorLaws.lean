import Mathlib.Algebra.Order.Kleene
import PatternAutomata.Proofs.GuardedSearch
import PatternAutomata.Proofs.WellFormedness

/-!
# What the operators mean

The language of each operator in terms of its operands, for operands with
edges into their entry, edges out of their exit and any number of accepting
states. Only the exit of an operand is joined to what follows. A word that
ends in another accepting state ends there in the result as well, and nothing
can follow it.

The words of an operand are therefore taken in two parts: `exitWords` are
joined, `sideWords` are not.
-/

namespace PatternAutomata.Automaton

open Computability

variable {a b c : Automaton} {k n : Nat} {M : Language Char}

theorem WellFormed.language_eq (h : a.WellFormed) :
    a.language = a.sideWords + a.exitWords := by
  ext w
  refine ⟨fun ⟨q, hpath, hacc⟩ => ?_, fun hw => ?_⟩
  · by_cases hq : q = a.exit
    · rw [hq] at hpath
      exact .inr hpath
    · exact .inl ⟨q, hq, hpath, hacc⟩
  · rcases hw with ⟨q, _, hpath, hacc⟩ | hpath
    · exact ⟨q, hpath, hacc⟩
    · exact ⟨a.exit, hpath, h.accepts_exit⟩

theorem wordsThrough_entry (a : Automaton) (M : Language Char) :
    a.wordsThrough a.entry M = a.sideWords + a.exitWords * M := rfl

theorem Embeds.wordsFrom_entry (h : Embeds a c k none) (ha : a.WellFormed) :
    c.wordsFrom (a.entry + k) = a.language := by
  have hone : a.language = a.wordsThrough a.entry 1 := by
    rw [wordsThrough_entry, mul_one, ha.language_eq]
  rw [hone]
  refine le_antisymm (h.wordsFrom_le ha.toClosed ha.entry_lt ?_ ?_) (h.wordsThrough_le ?_)
  · exact fun _ => Language.nil_mem_one
  · simp
  · intro w hw
    obtain rfl : w = [] := hw
    refine ⟨a.exit + k, .refl _, ?_⟩
    rw [h.accepts_of_none ha.exit_lt]
    exact ha.accepts_exit

theorem Embeds.wordsFrom_entry_of_next (h : Embeds a c k (some [n])) (ha : a.WellFormed) :
    c.wordsFrom (a.entry + k) = a.sideWords + a.exitWords * c.wordsFrom n := by
  rw [← wordsThrough_entry]
  refine le_antisymm (h.wordsFrom_le ha.toClosed ha.entry_lt ?_ ?_) (h.wordsThrough_le ?_)
  · rw [h.accepts_exit ha.exit_lt]
    simp
  · intro m hm
    rw [Option.getD_some, List.mem_singleton] at hm
    exact .inl (hm ▸ le_refl _)
  · exact h.wordsFrom_next_le ha.exit_lt (by simp)

theorem language_concat (ha : a.WellFormed) (hb : b.WellFormed) :
    (a.concat b).language = a.sideWords + a.exitWords * b.language := by
  rw [← (embeds_concat_right a b).wordsFrom_entry hb,
    ← (embeds_concat_left a b).wordsFrom_entry_of_next ha]
  rfl

theorem language_union (ha : a.WellFormed) (hb : b.WellFormed) :
    (a.union b).language = a.language + b.language := by
  have hleft := (embeds_union_left a b).wordsFrom_entry_of_next ha
  have hright := (embeds_union_right a b).wordsFrom_entry_of_next hb
  rw [(final_union a b).wordsFrom_eq, mul_one] at hleft hright
  rw [ha.language_eq, hb.language_eq, ← hleft, ← hright]
  ext w
  rw [Language.mem_add]
  refine (relay_union a b).mem_wordsFrom_iff.trans ?_
  simp

/-! ## Repetition

What a repetition reads solves an equation in itself, since the exit of the
operand leads back to its entry. Of the solutions it is the least, and that is
what the star of a language is made for. -/

theorem kstar_mul_eq (E Y : Language Char) : E∗ * Y = Y + E * (E∗ * Y) := by
  calc E∗ * Y = (1 + E * E∗) * Y := by rw [one_add_mul_kstar]
    _ = Y + E * (E∗ * Y) := by rw [add_mul, one_mul, mul_assoc]

/-- One more turn leads to nothing new. -/
theorem wordsThrough_kstar_le (a : Automaton) :
    a.wordsThrough a.entry (a.exitWords∗ * (1 + a.sideWords)) ≤
      a.exitWords∗ * (1 + a.sideWords) := by
  rw [wordsThrough_entry]
  nth_rewrite 2 [kstar_mul_eq]
  exact add_le_add_left le_add_self _

/-- Behind the exit of the operand any number of turns can be made. -/
theorem kstar_le_wordsFrom_exit (ha : a.WellFormed) :
    a.exitWords∗ * (1 + a.sideWords) ≤ a.star.wordsFrom (a.exit + 2) := by
  have hback : a.star.wordsFrom (a.entry + 2) ≤ a.star.wordsFrom (a.exit + 2) :=
    (embeds_star a).wordsFrom_next_le ha.exit_lt (by simp)
  have hend : a.star.wordsFrom 1 ≤ a.star.wordsFrom (a.exit + 2) :=
    (embeds_star a).wordsFrom_next_le ha.exit_lt (by simp)
  have hturn : a.wordsThrough a.entry (a.star.wordsFrom (a.exit + 2)) ≤
      a.star.wordsFrom (a.exit + 2) :=
    ((embeds_star a).wordsThrough_le le_rfl).trans hback
  rw [(final_star a).wordsFrom_eq] at hend
  rw [wordsThrough_entry, add_le_iff] at hturn
  exact kstar_mul_le (add_le hend hturn.1) hturn.2

theorem language_star (ha : a.WellFormed) :
    a.star.language = a.exitWords∗ + a.exitWords∗ * a.sideWords := by
  have hsum : a.exitWords∗ + a.exitWords∗ * a.sideWords = a.exitWords∗ * (1 + a.sideWords) := by
    rw [mul_add, mul_one]
  have hone : (1 : Language Char) ≤ a.exitWords∗ * (1 + a.sideWords) := by
    rw [← hsum]
    exact one_le_kstar.trans le_self_add
  have hfront : a.star.language = a.star.wordsFrom (a.entry + 2) + 1 := by
    rw [← (final_star a).wordsFrom_eq]
    ext w
    rw [Language.mem_add]
    refine (relay_star a).mem_wordsFrom_iff.trans ?_
    simp
  rw [hsum, hfront]
  refine le_antisymm (add_le ?_ hone) ?_
  · refine le_trans ((embeds_star a).wordsFrom_le ha.toClosed ha.entry_lt ?_ ?_)
      (wordsThrough_kstar_le a)
    · exact fun _ => hone Language.nil_mem_one
    · intro m hm
      rw [Option.getD_some, List.mem_cons, List.mem_singleton] at hm
      rcases hm with rfl | rfl
      · exact .inr ⟨rfl, ha.entry_lt, wordsThrough_kstar_le a⟩
      · exact .inl ((final_star a).wordsFrom_eq ▸ hone)
  · have hturns := (embeds_star a).wordsThrough_le (i := a.entry) (kstar_le_wordsFrom_exit ha)
    rw [wordsThrough_entry] at hturns
    rw [kstar_mul_eq]
    calc 1 + a.sideWords + a.exitWords * (a.exitWords∗ * (1 + a.sideWords))
        = a.sideWords + a.exitWords * (a.exitWords∗ * (1 + a.sideWords)) + 1 := by
          rw [add_assoc, add_comm]
      _ ≤ a.star.wordsFrom (a.entry + 2) + 1 := add_le_add_left hturns 1

theorem language_plus (ha : a.WellFormed) :
    a.plus.language = a.exitWords * a.exitWords∗ + a.exitWords∗ * a.sideWords := by
  rw [plus, language_concat ha ha.star, language_star ha]
  calc a.sideWords + a.exitWords * (a.exitWords∗ + a.exitWords∗ * a.sideWords)
      = a.exitWords * a.exitWords∗ +
          (a.sideWords + a.exitWords * (a.exitWords∗ * a.sideWords)) := by
        rw [mul_add, ← add_assoc, add_comm a.sideWords, add_assoc]
    _ = a.exitWords * a.exitWords∗ + a.exitWords∗ * a.sideWords := by
        rw [← kstar_mul_eq]

/-! ## What the search accepts -/

def accepted (a : Automaton) : Language Char :=
  { w | DepthFirst.accepts a (String.ofList w) = true }

theorem accepted_eq_language (a : Automaton) : a.accepted = a.language := by
  ext w
  refine DepthFirst.accepts_iff.trans ?_
  rw [String.toList_ofList]

/-- The languages of the operators, on operands that any operations have made.
Where nothing was wired by hand there are no side words, and what is left is
concatenation, union and the two repetitions of languages. -/
theorem accepted_operators (ha : Obtainable a) (hb : Obtainable b) :
    (a.concat b).accepted = a.sideWords + a.exitWords * b.accepted ∧
      (a.union b).accepted = a.accepted + b.accepted ∧
      a.star.accepted = a.exitWords∗ + a.exitWords∗ * a.sideWords ∧
      a.plus.accepted = a.exitWords * a.exitWords∗ + a.exitWords∗ * a.sideWords ∧
      (Constructed a → a.sideWords = 0 ∧ a.exitWords = a.accepted) := by
  have hwa := ha.wellFormed
  have hwb := hb.wellFormed
  simp only [accepted_eq_language]
  refine ⟨language_concat hwa hwb, language_union hwa hwb, language_star hwa,
    language_plus hwa, fun hc => ?_⟩
  have hside := hc.acceptsAtExit.sideWords_eq_zero
  refine ⟨hside, ?_⟩
  rw [hwa.language_eq, hside, zero_add]

/-- An operand with a loop through its exit and with an accepting state beside
the exit. -/
theorem accepted_operators_looped :
    Obtainable looped ∧ ['a', 'a', 'b'] ∈ looped.sideWords ∧
      (looped.concat looped).accepted = looped.sideWords + looped.exitWords * looped.accepted ∧
      (looped.union looped).accepted = looped.accepted + looped.accepted ∧
      looped.star.accepted = looped.exitWords∗ + looped.exitWords∗ * looped.sideWords ∧
      looped.plus.accepted =
        looped.exitWords * looped.exitWords∗ + looped.exitWords∗ * looped.sideWords ∧
      (Constructed looped → looped.sideWords = 0 ∧ looped.exitWords = looped.accepted) := by
  refine ⟨obtainable_looped, ?_, accepted_operators obtainable_looped obtainable_looped⟩
  exact ⟨2, by decide, .read (q := 1) (by decide) (.epsilon (q := 0) (by decide)
    (.read (q := 1) (by decide) (.epsilon (q := 0) (by decide)
      (.read (q := 2) (by decide) (.refl 2))))), by decide⟩

end PatternAutomata.Automaton
