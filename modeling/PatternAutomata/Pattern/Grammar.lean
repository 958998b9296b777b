import Mathlib.Algebra.GroupWithZero.Nat
import PatternAutomata.Pattern.Tree

/-!
# Grammar

Which texts are patterns, and the tree of each. Repetition binds tightest,
then sequence, then alternatives, and the last two associate to the left. The
empty text is a pattern of its own, which has no tree.

The grammar says for itself which characters stand for themselves. That the
tokens of a text are made by the same rules is a theorem
(`Token.ofChar?_eq_none_iff`, `Token.ofChar?_eq_symbol_iff`).
-/

namespace PatternAutomata

/-- The characters that no pattern may have in it. -/
def IsUnsupported (c : Char) : Prop :=
  c ∈ ['[', ']', '\x7b', '\x7d', '^', '$', '\x5c', '.', '?']

instance : DecidablePred IsUnsupported :=
  fun c => inferInstanceAs (Decidable (c ∈ _))

/-- The characters that stand for themselves: all but those above, the operators
and the brackets. -/
def IsSymbol (c : Char) : Prop :=
  ¬ IsUnsupported c ∧ c ∉ ['|', '*', '+', '(', ')']

instance : DecidablePred IsSymbol :=
  fun c => inferInstanceAs (Decidable (¬ IsUnsupported c ∧ _))

namespace Token

theorem ofChar?_eq_none_iff {c : Char} : ofChar? c = none ↔ IsUnsupported c := by
  change _ ↔ c ∈ reserved
  unfold ofChar?
  split <;> simp_all

theorem ofChar?_eq_symbol_iff {c : Char} : ofChar? c = some (symbol c) ↔ IsSymbol c := by
  rw [IsSymbol, ← ofChar?_eq_none_iff]
  unfold ofChar?
  by_cases hreserved : c ∈ reserved
  · simp [hreserved]
  · rw [if_neg hreserved, Option.some.injEq]
    split <;> simp_all

end Token

/-- How loosely the parts of a text may hang together. -/
inductive Level where
  | atom
  | repetition
  | sequence
  | alternatives
deriving DecidableEq, Repr

/-- The number of bytes that characters take up in a pattern. -/
def byteLength (cs : List Char) : Nat :=
  (cs.map Char.utf8Size).sum

/-- `Derives level pos cs t`: the characters that begin at an offset are
written for the tree, and hang together as the level demands. -/
inductive Derives : Level → Nat → List Char → Tree → Prop where
  | symbol {pos : Nat} {c : Char} :
      IsSymbol c → Derives .atom pos [c] (.symbol pos c)
  | emptyGroup {pos : Nat} : Derives .atom pos ['(', ')'] (.emptyGroup (pos + 1))
  | group {pos : Nat} {cs : List Char} {t : Tree} :
      Derives .alternatives (pos + 1) cs t → Derives .atom pos ('(' :: cs ++ [')']) t
  | atom {pos : Nat} {cs : List Char} {t : Tree} :
      Derives .atom pos cs t → Derives .repetition pos cs t
  | star {pos : Nat} {cs : List Char} {t : Tree} :
      Derives .repetition pos cs t →
        Derives .repetition pos (cs ++ ['*']) (.star (pos + byteLength cs) t)
  | plus {pos : Nat} {cs : List Char} {t : Tree} :
      Derives .repetition pos cs t →
        Derives .repetition pos (cs ++ ['+']) (.plus (pos + byteLength cs) t)
  | repetition {pos : Nat} {cs : List Char} {t : Tree} :
      Derives .repetition pos cs t → Derives .sequence pos cs t
  | concat {pos : Nat} {cs ds : List Char} {l r : Tree} :
      Derives .sequence pos cs l → Derives .repetition (pos + byteLength cs) ds r →
        Derives .sequence pos (cs ++ ds) (.concat (pos + byteLength cs) l r)
  | sequence {pos : Nat} {cs : List Char} {t : Tree} :
      Derives .sequence pos cs t → Derives .alternatives pos cs t
  | union {pos : Nat} {cs ds : List Char} {l r : Tree} :
      Derives .alternatives pos cs l → Derives .sequence (pos + byteLength cs + 1) ds r →
        Derives .alternatives pos (cs ++ '|' :: ds) (.union (pos + byteLength cs) l r)

/-- The text is a pattern, and this is its tree. -/
def Derives.Whole (pattern : String) (t : Tree) : Prop :=
  Derives .alternatives 0 pattern.toList t

/-- `Denotes p L`: the text is a pattern for the language. -/
inductive Denotes : String → Language Char → Prop where
  | empty : Denotes "" 1
  | tree {pattern : String} {t : Tree} : Derives.Whole pattern t → Denotes pattern t.language

end PatternAutomata
