import PatternAutomata.Log
import PatternAutomata.Pattern.Evaluation
import PatternAutomata.Pattern.ReversePolish

/-!
# Compiling a pattern

From the text of a pattern to its automaton: the text is cut into lexemes, the
concatenations that are not written are put in, the operators are moved behind
their operands, and the result is evaluated. `compileReporting` does the same
and also tells how far it came (`fst_compileReporting`).
-/

namespace PatternAutomata.Pattern

/-- The lexemes of a pattern in reverse Polish order. -/
def inReversePolish (pattern : String) : Except BuildError (List Lexeme) := do
  let written ← Lexeme.ofPattern pattern
  (Lexeme.reversePolish (Lexeme.insertConcats written)).mapError .malformed

def compile (limit : SizeLimit) (pattern : String) : Except BuildError Automaton := do
  Lexeme.evaluate limit (← inReversePolish pattern)

/-- The automaton of a pattern, and a report on each stage that was completed. -/
def compileReporting (limit : SizeLimit) (pattern : String) :
    Except BuildError Automaton × List LogEntry :=
  match Lexeme.ofPattern pattern with
  | .error e => (.error e, [])
  | .ok written =>
      let complete := Lexeme.insertConcats written
      match Lexeme.reversePolish complete with
      | .error e => (.error (.malformed e), [.annotated pattern complete])
      | .ok ordered =>
          match Lexeme.evaluate limit ordered with
          | .error e => (.error e, [.annotated pattern complete, .reordered pattern ordered])
          | .ok a =>
              (.ok a, [.annotated pattern complete, .reordered pattern ordered,
                .compiled pattern a.size])

theorem fst_compileReporting (limit : SizeLimit) (pattern : String) :
    (compileReporting limit pattern).1 = compile limit pattern := by
  unfold compileReporting compile inReversePolish
  cases Lexeme.ofPattern pattern with
  | error e => rfl
  | ok written =>
      simp only [bind, Except.bind]
      cases Lexeme.reversePolish (Lexeme.insertConcats written) with
      | error e => rfl
      | ok ordered =>
          change _ = Lexeme.evaluate limit ordered
          dsimp only
          cases Lexeme.evaluate limit ordered <;> rfl

end PatternAutomata.Pattern
