import PatternAutomata.Proofs.OperatorLaws
import PatternAutomata.Proofs.StackEvaluation
import PatternAutomata.Proofs.TreeOperands

/-!
# A compiled pattern matches its language

The last stage, and the chain of all of them: a text that the grammar derives
compiles to what is built for its tree, and what is built for a tree reads the
language of the tree. It does so whether symbols in a row are kept as text or
not, since text becomes an automaton for that text in the end.

What is built stays among the automata that accept at their exit only, where
the laws of the operators are those of languages (`Recognizes`).
-/

namespace PatternAutomata

open Computability

/-! ## Automata for a language -/

namespace Automaton

/-- The automaton accepts a language, and at its exit only. -/
structure Recognizes (a : Automaton) (M : Language Char) : Prop where
  wellFormed : a.WellFormed
  acceptsAtExit : a.AcceptsAtExit
  language_eq : a.language = M

namespace Recognizes

variable {a b : Automaton} {M N : Language Char}

theorem exitWords_eq (h : a.Recognizes M) : a.exitWords = M := by
  have hsum := h.wellFormed.language_eq
  rw [h.acceptsAtExit.sideWords_eq_zero, zero_add, h.language_eq] at hsum
  exact hsum.symm

theorem concat (h : a.Recognizes M) (k : b.Recognizes N) : (a.concat b).Recognizes (M * N) where
  wellFormed := h.wellFormed.concat k.wellFormed
  acceptsAtExit := .concat h.wellFormed h.acceptsAtExit k.acceptsAtExit
  language_eq := by
    rw [language_concat h.wellFormed k.wellFormed, h.acceptsAtExit.sideWords_eq_zero, zero_add,
      h.exitWords_eq, k.language_eq]

theorem union (h : a.Recognizes M) (k : b.Recognizes N) : (a.union b).Recognizes (M + N) where
  wellFormed := h.wellFormed.union k.wellFormed
  acceptsAtExit := .union h.wellFormed k.wellFormed h.acceptsAtExit k.acceptsAtExit
  language_eq := by
    rw [language_union h.wellFormed k.wellFormed, h.language_eq, k.language_eq]

theorem star (h : a.Recognizes M) : a.star.Recognizes M∗ where
  wellFormed := h.wellFormed.star
  acceptsAtExit := .star h.wellFormed h.acceptsAtExit
  language_eq := by
    rw [language_star h.wellFormed, h.acceptsAtExit.sideWords_eq_zero, mul_zero, add_zero,
      h.exitWords_eq]

theorem plus (h : a.Recognizes M) : a.plus.Recognizes (M * M∗) :=
  h.concat h.star

theorem emptyWord : Automaton.emptyWord.Recognizes 1 where
  wellFormed := .emptyWord
  acceptsAtExit := .emptyWord
  language_eq := by
    ext w
    rw [← final_emptyWord.wordsFrom_eq]
    refine relay_emptyWord.mem_wordsFrom_iff.trans ?_
    simp

theorem ofChar {c : Char} (ha : Automaton.ofChar c = .ok a) : a.Recognizes {[c]} := by
  rw [Automaton.ofChar] at ha
  split at ha
  · simp at ha
  · rename_i s hs
    obtain rfl := Except.ok.inj ha
    refine ⟨.ofSymbol s, .ofSymbol s, ?_⟩
    ext w
    have hread : ∀ x q, q ∈ (Automaton.ofSymbol s).onChar 0 x ↔ x = c ∧ q = 1 := by
      intro x q
      rw [mem_onChar_ofSymbol, Symbol.ofChar?_eq_some_iff,
        Symbol.ofChar?_eq_some_iff.1 hs, Char.toNat_inj, eq_comm (a := c)]
    constructor
    · rintro ⟨q, hpath, hacc⟩
      cases hpath with
      | refl => simp [accepts, state?, Automaton.ofSymbol] at hacc
      | epsilon hq _ => simp [epsilons, state?, Automaton.ofSymbol] at hq
      | @read _ r _ x tail hr htail =>
          obtain ⟨rfl, rfl⟩ := (hread x r).1 hr
          have hone : tail ∈ (Automaton.ofSymbol s).wordsFrom 1 := ⟨q, htail, hacc⟩
          rw [(final_ofSymbol s).wordsFrom_eq] at hone
          rw [(Language.mem_one tail).1 hone]
          rfl
    · intro hw
      obtain rfl : w = [c] := hw
      exact ⟨1, .read ((hread c 1).2 ⟨rfl, rfl⟩) (.refl 1), (final_ofSymbol s).accepts_eq⟩

end Recognizes

end Automaton

/-! ## Operands for a language -/

theorem singleton_mul_singleton (u v : List Char) : ({u} : Language Char) * {v} = {u ++ v} :=
  Set.image2_singleton

/-- The operand stands for the language; text stands for itself. -/
def Operand.Means : Operand → Language Char → Prop
  | .automaton a, M => a.Recognizes M
  | .text s, M => M = {s.toList}

namespace Operand.Means

variable {M N : Language Char} {x y : Operand} {a : Automaton}

theorem recognizes_foldlM {cs : List Char} {b : Automaton} (h : a.Recognizes M)
    (hb : cs.foldlM (fun a c => return a.concat (← Automaton.ofChar c)) a =
      (.ok b : Except BuildError Automaton)) : b.Recognizes (M * {cs}) := by
  induction cs generalizing a M with
  | nil =>
      obtain rfl := pure_eq_ok.1 hb
      exact (mul_one M).symm ▸ h
  | cons c cs ih =>
      obtain ⟨d, hd, hrest⟩ := foldlM_cons_eq_ok.1 hb
      obtain ⟨e, he, heq⟩ := bind_eq_ok.1 hd
      obtain rfl := pure_eq_ok.1 heq
      have hcs := ih (h.concat (.ofChar he)) hrest
      rwa [mul_assoc, singleton_mul_singleton] at hcs

theorem recognizes_ofText {s : String} (ha : Automaton.ofText s = .ok a) :
    a.Recognizes {s.toList} := by
  rw [Automaton.ofText] at ha
  split at ha
  · rename_i hs
    obtain rfl := Except.ok.inj ha
    rw [hs]
    exact .emptyWord
  · rename_i c rest hs
    obtain ⟨first, hfirst, hrest⟩ := bind_eq_ok.1 ha
    have hall := recognizes_foldlM (.ofChar hfirst) hrest
    rwa [singleton_mul_singleton, List.singleton_append, ← hs] at hall

theorem build (h : x.Means M) (ha : x.build = .ok a) : a.Recognizes M := by
  cases x with
  | automaton b => exact Except.ok.inj ha ▸ h
  | text s => exact h ▸ recognizes_ofText ha

end Operand.Means

/-! ## Trees and patterns -/

variable {limit : SizeLimit} {t : Tree} {pattern : String} {a : Automaton} {L : Language Char}

theorem Tree.Makes.means {x : Operand} (h : t.Makes x) : x.Means t.language := by
  induction h with
  | symbol pos c => simp [Operand.Means, Tree.language]
  | emptyGroup pos => exact .emptyWord
  | join pos _ _ ihl ihr =>
      rw [Operand.Means] at ihl ihr
      rw [Operand.Means, Tree.language, ihl, ihr, singleton_mul_singleton, String.toList_append]
  | concat pos _ _ _ ha hb ihl ihr =>
      have hleft := Automaton.Recognizes.emptyWord.concat (ihl.build ha)
      rw [one_mul] at hleft
      exact hleft.concat (ihr.build hb)
  | union pos _ _ ha hb ihl ihr => exact (ihl.build ha).union (ihr.build hb)
  | star pos _ ha ih => exact (ih.build ha).star
  | plus pos _ ha ih => exact (ih.build ha).plus

theorem Tree.recognizes_of_build (ha : t.build limit = .ok a) : a.Recognizes t.language := by
  obtain ⟨x, hx, hb⟩ := exists_makes_of_build ha
  exact hx.means.build hb

/-- A pattern that compiles, whatever the limit, gives an automaton for the
language that the pattern denotes. -/
theorem Denotes.recognizes_of_compile (h : Denotes pattern L)
    (ha : Pattern.compile limit pattern = .ok a) : a.Recognizes L := by
  cases h with
  | empty =>
      obtain rfl := Except.ok.inj ha
      exact .emptyWord
  | tree ht => exact Tree.recognizes_of_build (ht.compile_eq limit ▸ ha)

/-- The compiled pattern accepts a text exactly when the text is in the
language that the pattern denotes. -/
theorem Denotes.accepts_iff_of_compile (h : Denotes pattern L)
    (ha : Pattern.compile limit pattern = .ok a) (input : String) :
    DepthFirst.accepts a input = true ↔ input.toList ∈ L := by
  rw [DepthFirst.accepts_iff, (h.recognizes_of_compile ha).language_eq]

theorem Denotes.accepts_iff_of_compile_star :
    ∃ a, Denotes "(ab|c)*" ({['a']} * {['b']} + {['c']})∗ ∧
      Pattern.compile (some 20) "(ab|c)*" = .ok a ∧
      (DepthFirst.accepts a "cab" = true ↔
        "cab".toList ∈ (({['a']} * {['b']} + {['c']})∗ : Language Char)) := by
  have hab : Derives .alternatives 1 (['a'] ++ ['b'])
      (.concat 2 (.symbol 1 'a') (.symbol 2 'b')) :=
    .sequence (.concat (.repetition (.atom (.symbol (by decide)))) (.atom (.symbol (by decide))))
  have hgroup := Derives.group (.union hab (.repetition (.atom (.symbol (c := 'c') (by decide)))))
  have hwhole : Derives.Whole "(ab|c)*" _ := .sequence (.repetition (.star (.atom hgroup)))
  have hdenotes : Denotes "(ab|c)*" ({['a']} * {['b']} + {['c']})∗ := .tree hwhole
  obtain ⟨a, ha⟩ :=
    exists_eq_ok_of_isOk (x := Pattern.compile (some 20) "(ab|c)*") (by decide +kernel)
  exact ⟨a, hdenotes, ha, Denotes.accepts_iff_of_compile hdenotes ha "cab"⟩

end PatternAutomata
