import PatternAutomata.Text.Quoted

/-!
# What can go wrong

Building an automaton fails for a reason that the constructors below name;
the wording stands in `message` and nowhere else. Offsets count the bytes of
the pattern in UTF-8.
-/

namespace PatternAutomata

open Text

/-- An argument that an operation on automata has to refuse. -/
inductive ArgumentFault where
  /-- A value above 255, for which there is no symbol. -/
  | symbolOutOfRange (value : Nat)
  | unknownState (id size : Nat)
  | noAlternatives
  /-- A complaint in the words of the caller. -/
  | stated (text : String)
deriving DecidableEq, Repr

namespace ArgumentFault

def message : ArgumentFault → String
  | symbolOutOfRange value =>
      "transition symbol 0x" ++ String.ofList (Quoted.hexDigits value)
        ++ " is outside 0..=255"
  | unknownState id size =>
      s!"state {id} does not belong to this automaton ({size} states)"
  | noAlternatives => "alt needs at least one alternative"
  | stated text => text

end ArgumentFault

/-- A pattern whose operators and groups do not fit together. -/
inductive SyntaxFault where
  | unopenedGroup (pos : Nat)
  | unclosedGroup (pos : Nat)
  | missingOperand (pos : Nat) (op : Char)
  /-- Several values where one was to be left. -/
  | unreduced (remaining : Nat)
deriving DecidableEq, Repr

namespace SyntaxFault

def message : SyntaxFault → String
  | unopenedGroup pos => s!"unopened group at offset {pos}"
  | unclosedGroup pos => s!"unclosed group opened at offset {pos}"
  | missingOperand pos op => s!"operator '{op}' at offset {pos} is missing an operand"
  | unreduced remaining => s!"malformed expression ({remaining} values left unreduced)"

end SyntaxFault

inductive BuildError where
  | invalidArgument (fault : ArgumentFault)
  | malformed (fault : SyntaxFault)
  /-- A character that patterns keep for operators they do not have. -/
  | unsupported (pos : Nat) (found : Char)
  | tooComplex (limit : Nat)
deriving DecidableEq, Repr

namespace BuildError

def message : BuildError → String
  | invalidArgument fault => "invalid argument: " ++ fault.message
  | malformed fault => "syntax error: " ++ fault.message
  | unsupported pos found =>
      s!"unsupported pattern syntax {Quoted.char found} at offset {pos}"
  | tooComplex limit => s!"regex pattern is too complex (more than {limit} states)"

/-- The text of the deeper error behind this one, if there is one. -/
def cause? : BuildError → Option String
  | malformed fault => some fault.message
  | _ => none

/-- The message, and behind it that of the deeper error. -/
def messages (e : BuildError) : List String :=
  e.message :: e.cause?.toList

end BuildError

end PatternAutomata
