import PatternAutomata.Pattern.Token

/-!
# Reverse Polish order

Puts every operator behind its operands, so that brackets are not needed any
more. Operators wait on a stack until one that binds less tightly comes along,
their group ends, or the pattern ends; an opening bracket on that stack keeps
the operators before a group from being released within it.
-/

namespace PatternAutomata

namespace ReversePolish

/-- A pattern that has been put in order up to some lexeme. -/
structure Progress where
  output : Array Lexeme := .empty
  /-- The operators and brackets that wait, the last one first. -/
  waiting : List Lexeme := []
  previous : Option Token := none
deriving DecidableEq

/-- Takes one more lexeme. A closing bracket right behind an opening one makes
an empty group, at the offset of the closing one. -/
def step (p : Progress) (x : Lexeme) : Except SyntaxFault Progress :=
  match x.token with
  | .symbol _ | .emptyGroup => .ok ⟨p.output.push x, p.waiting, x.token⟩
  | .leftParen => .ok ⟨p.output, x :: p.waiting, x.token⟩
  | .rightParen =>
      let inner := p.waiting.takeWhile (·.token ≠ .leftParen)
      match p.waiting.dropWhile (·.token ≠ .leftParen) with
      | [] => .error (.unopenedGroup x.pos)
      | _ :: outer =>
          let output :=
            if p.previous = some .leftParen then p.output.push ⟨x.pos, .emptyGroup⟩
            else p.output
          .ok ⟨output ++ inner, outer, x.token⟩
  | .concat | .union | .star | .plus =>
      let tighter := p.waiting.takeWhile (x.token.precedence ≤ ·.token.precedence)
      let others := p.waiting.dropWhile (x.token.precedence ≤ ·.token.precedence)
      .ok ⟨p.output ++ tighter, x :: others, x.token⟩

/-- Releases what still waits, unless there is a group that was never closed. -/
def finish (p : Progress) : Except SyntaxFault (List Lexeme) :=
  match p.waiting.find? (·.token = .leftParen) with
  | some x => .error (.unclosedGroup x.pos)
  | none => .ok (p.output ++ p.waiting).toList

end ReversePolish

/-- The lexemes with every operator behind its operands. -/
def Lexeme.reversePolish (xs : List Lexeme) : Except SyntaxFault (List Lexeme) := do
  ReversePolish.finish (← xs.foldlM ReversePolish.step {})

end PatternAutomata
