import PatternAutomata.Error

/-!
# Tokens

What a pattern is made of: symbols, operators and brackets, each at the offset
of a byte of the pattern. Two tokens are never written. Concatenation is meant
wherever two operands meet, and the empty group stands for a pair of brackets
with nothing between them.
-/

namespace PatternAutomata

inductive Token where
  | symbol (c : Char)
  | emptyGroup
  | concat
  | union
  | star
  | plus
  | leftParen
  | rightParen
deriving DecidableEq, Repr

namespace Token

def glyph : Token → Char
  | symbol c => c
  | emptyGroup => 'ε'
  | concat => '.'
  | union => '|'
  | star => '*'
  | plus => '+'
  | leftParen => '('
  | rightParen => ')'

/-- How tightly an operator binds. An opening bracket binds less tightly than
every operator, and so holds back the operators outside its group. -/
def precedence : Token → Nat
  | leftParen => 1
  | union => 2
  | concat => 3
  | star | plus => 4
  | symbol _ | emptyGroup | rightParen => 0

/-- Whether an operand can be complete with this token. -/
def closesOperand (t : Token) : Bool :=
  t ≠ leftParen && t ≠ union

/-- Whether an operand can begin with this token. -/
def opensOperand (t : Token) : Bool :=
  t ≠ rightParen && t ≠ union && t ≠ star && t ≠ plus

/-- The characters kept for operators that patterns do not have. -/
def reserved : List Char :=
  ['[', ']', '\x7b', '\x7d', '^', '$', '\x5c', '.', '?']

/-- The token that a character is written for; a reserved character is none. -/
def ofChar? (c : Char) : Option Token :=
  if c ∈ reserved then none
  else some <|
    match c with
    | '|' => union
    | '*' => star
    | '+' => plus
    | '(' => leftParen
    | ')' => rightParen
    | c => symbol c

end Token

/-- A token and the offset, in bytes, that it stands for. -/
structure Lexeme where
  pos : Nat
  token : Token
deriving DecidableEq, Repr

namespace Lexeme

/-- The lexemes of a text that begins at an offset, up to the first reserved
character. -/
def scan (pos : Nat) : List Char → Except BuildError (List Lexeme)
  | [] => .ok []
  | c :: rest =>
      match Token.ofChar? c with
      | none => .error (.unsupported pos c)
      | some token => return ⟨pos, token⟩ :: (← scan (pos + c.utf8Size) rest)

/-- The lexemes of a pattern, as they are written. -/
def ofPattern (pattern : String) : Except BuildError (List Lexeme) :=
  scan 0 pattern.toList

/-- Puts a concatenation wherever an operand is followed by another. It takes
the offset of the second one. -/
def insertConcats : List Lexeme → List Lexeme
  | [] => []
  | [x] => [x]
  | x :: y :: rest =>
      if x.token.closesOperand && y.token.opensOperand then
        x :: ⟨y.pos, .concat⟩ :: insertConcats (y :: rest)
      else x :: insertConcats (y :: rest)

def glyphs (xs : List Lexeme) : String :=
  String.ofList (xs.map (·.token.glyph))

end Lexeme

end PatternAutomata
