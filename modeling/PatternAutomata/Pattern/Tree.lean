import Mathlib.Computability.Language
import PatternAutomata.Pattern.Evaluation

/-!
# Trees

The tree of a pattern, with the offset of each token that it is made of, and
three readings of it: the order in which its tokens are evaluated, the language
it stands for, and the operand that is built for it.
-/

namespace PatternAutomata

inductive Tree where
  | symbol (pos : Nat) (c : Char)
  | emptyGroup (pos : Nat)
  | concat (pos : Nat) (left right : Tree)
  | union (pos : Nat) (left right : Tree)
  | star (pos : Nat) (operand : Tree)
  | plus (pos : Nat) (operand : Tree)
deriving DecidableEq, Repr

namespace Tree

/-- Every operator behind its operands, and the left operand first. -/
def postorder : Tree → List Lexeme
  | symbol pos c => [⟨pos, .symbol c⟩]
  | emptyGroup pos => [⟨pos, .emptyGroup⟩]
  | concat pos l r => l.postorder ++ r.postorder ++ [⟨pos, .concat⟩]
  | union pos l r => l.postorder ++ r.postorder ++ [⟨pos, .union⟩]
  | star pos t => t.postorder ++ [⟨pos, .star⟩]
  | plus pos t => t.postorder ++ [⟨pos, .plus⟩]

def language : Tree → Language Char
  | symbol _ c => {[c]}
  | emptyGroup _ => 1
  | concat _ l r => l.language * r.language
  | union _ l r => l.language + r.language
  | star _ t => KStar.kstar t.language
  | plus _ t => t.language * KStar.kstar t.language

/-- The greatest number of repetitions of the copying kind within one another. -/
def plusDepth : Tree → Nat
  | symbol _ _ | emptyGroup _ => 0
  | concat _ l r | union _ l r => max l.plusDepth r.plusDepth
  | star _ t => t.plusDepth
  | plus _ t => t.plusDepth + 1

/-- Two operands in sequence: text stays text as long as it can. -/
def joined (limit : SizeLimit) : Operand → Operand → Except BuildError Operand
  | .text l, .text r => .ok (.text (l ++ r))
  | l, r => return .automaton (← limit.enforce (← Automaton.concatAll [l, r]))

/-- The operand of a tree, built from the operands of its parts. -/
def operand (limit : SizeLimit) : Tree → Except BuildError Operand
  | symbol _ c => .ok (.text (.singleton c))
  | emptyGroup _ => .ok (.automaton .emptyWord)
  | concat _ l r => do
      let left ← l.operand limit
      let right ← r.operand limit
      joined limit left right
  | union _ l r => do
      let left ← l.operand limit
      let right ← r.operand limit
      return .automaton (← limit.enforce (← Automaton.unionAll [left, right]))
  | star _ t => do
      let x ← t.operand limit
      return .automaton (← limit.enforce (← x.build).star)
  | plus _ t => do
      let x ← t.operand limit
      return .automaton (← limit.enforce (← x.build).plus)

def build (limit : SizeLimit) (t : Tree) : Except BuildError Automaton := do
  limit.enforce (← (← t.operand limit).build)

end Tree

end PatternAutomata
