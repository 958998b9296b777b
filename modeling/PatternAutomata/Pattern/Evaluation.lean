import PatternAutomata.Automaton.Operand
import PatternAutomata.Pattern.Token

/-!
# Evaluation

Builds the automaton of a pattern in reverse Polish order on a stack of
operands. Symbols that follow one another are kept as text for as long as
nothing but concatenation is applied to them, and become an automaton only
then. A bound on the number of states is put to every automaton that an
operator makes.
-/

namespace PatternAutomata

/-- The most states that an automaton may have; `none` sets no bound. -/
abbrev SizeLimit := Option Nat

namespace SizeLimit

/-- The bound that holds unless another one is asked for. -/
def standard : SizeLimit := some (1 <<< 20)

def enforce (limit : SizeLimit) (a : Automaton) : Except BuildError Automaton :=
  match limit with
  | some n => if n < a.size then .error (.tooComplex n) else .ok a
  | none => .ok a

end SizeLimit

namespace Evaluation

inductive Reduction where
  /-- A stack that holds nothing whose size has to be looked at. -/
  | settled (stack : List Operand)
  /-- An automaton that was made by an operator, and the stack below it. -/
  | built (a : Automaton) (below : List Operand)

/-- Applies one lexeme to the stack, whose head is the last operand. -/
def reduce (x : Lexeme) (stack : List Operand) : Except BuildError Reduction :=
  match x.token, stack with
  | .symbol c, _ => .ok (.settled (.text (.singleton c) :: stack))
  | .emptyGroup, _ => .ok (.settled (.automaton .emptyWord :: stack))
  | .leftParen, _ | .rightParen, _ => .ok (.settled stack)
  | .concat, .text right :: .text left :: below =>
      .ok (.settled (.text (left ++ right) :: below))
  | .concat, right :: left :: below => return .built (← Automaton.concatAll [left, right]) below
  | .union, right :: left :: below => return .built (← Automaton.unionAll [left, right]) below
  | .star, operand :: below => return .built (← operand.build).star below
  | .plus, operand :: below => return .built (← operand.build).plus below
  | _, _ => .error (.malformed (.missingOperand x.pos x.token.glyph))

/-- Applies one lexeme, and refuses what it builds if that is too large. -/
def step (limit : SizeLimit) (stack : List Operand) (x : Lexeme) :
    Except BuildError (List Operand) := do
  match ← reduce x stack with
  | .settled stack => return stack
  | .built a below => return .automaton (← limit.enforce a) :: below

/-- The automaton that is left on the stack in the end. No operand at all is
the pattern without any token, which stands for the empty word. -/
def finish (limit : SizeLimit) : List Operand → Except BuildError Automaton
  | [] => .ok .emptyWord
  | [operand] => do limit.enforce (← operand.build)
  | stack => .error (.malformed (.unreduced stack.length))

end Evaluation

/-- The automaton of lexemes in reverse Polish order. -/
def Lexeme.evaluate (limit : SizeLimit) (xs : List Lexeme) : Except BuildError Automaton := do
  Evaluation.finish limit (← xs.foldlM (Evaluation.step limit) [])

end PatternAutomata
