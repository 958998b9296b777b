import PatternAutomata.Automaton.Construction
import PatternAutomata.Error

/-!
# Operands

What the operators on lists take: an automaton, or text that still has to
become one. Text becomes a chain with two states for each character, and it
fails where a character stands for no symbol.
-/

namespace PatternAutomata

namespace Automaton

def ofChar (c : Char) : Except BuildError Automaton :=
  match Symbol.ofChar? c with
  | none => .error (.invalidArgument (.symbolOutOfRange c.toNat))
  | some s => .ok (ofSymbol s)

def ofText (text : String) : Except BuildError Automaton :=
  match text.toList with
  | [] => .ok emptyWord
  | c :: rest => do
      let first ← ofChar c
      rest.foldlM (fun a c => return a.concat (← ofChar c)) first

end Automaton

/-- One element of a sequence or of a list of alternatives. -/
inductive Operand where
  | automaton (a : Automaton)
  | text (s : String)

namespace Operand

def build : Operand → Except BuildError Automaton
  | automaton a => .ok a
  | text s => Automaton.ofText s

end Operand

namespace Automaton

/-- Accepts one word of each operand in turn; no operands give the empty word. -/
def concatAll (operands : List Operand) : Except BuildError Automaton :=
  operands.foldlM (fun a x => return a.concat (← x.build)) emptyWord

/-- Accepts the words of every operand, of which there has to be one. -/
def unionAll (operands : List Operand) : Except BuildError Automaton :=
  match operands with
  | [] => .error (.invalidArgument .noAlternatives)
  | x :: rest => do
      let first ← x.build
      rest.foldlM (fun a x => return a.union (← x.build)) first

end Automaton

end PatternAutomata
