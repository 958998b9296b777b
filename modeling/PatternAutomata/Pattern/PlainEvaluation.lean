import PatternAutomata.Pattern.Evaluation

/-!
# Evaluation without text

The evaluation that keeps no text between two operators: every concatenation
makes an automaton at once, however small its operands are. It sets no bound
on the number of states, and is what evaluation with text is measured by.
-/

namespace PatternAutomata

namespace PlainEvaluation

def step (stack : List Operand) (x : Lexeme) : Except BuildError (List Operand) :=
  match x.token, stack with
  | .concat, right :: left :: below =>
      return .automaton (← Automaton.concatAll [left, right]) :: below
  | _, _ => Evaluation.step none stack x

end PlainEvaluation

/-- The automaton of lexemes in reverse Polish order, made without text. -/
def Lexeme.evaluatePlainly (xs : List Lexeme) : Except BuildError Automaton := do
  Evaluation.finish none (← xs.foldlM PlainEvaluation.step [])

end PatternAutomata
