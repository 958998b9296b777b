import PatternAutomata.Automaton.StateSet
import PatternAutomata.Pattern.Token
import PatternAutomata.Text.Quoted

/-!
# Log entries

Compiling and matching can report what they do. A report is a list of entries
in the order in which the things happened. An entry has what it reports on as
data; the wording stands in `text` and nowhere else.
-/

namespace PatternAutomata

open Text

inductive LogLevel where
  | debug
  | trace
deriving DecidableEq, Repr

inductive LogEntry where
  /-- The lexemes of a pattern, with the concatenations that are not written. -/
  | annotated (pattern : String) (lexemes : List Lexeme)
  /-- The lexemes in reverse Polish order. -/
  | reordered (pattern : String) (lexemes : List Lexeme)
  | compiled (pattern : String) (size : Nat)
  /-- The verdict of a depth-first search, with the number of states it visited. -/
  | searched (accepted : Bool) (visits : Nat)
  /-- The set of states behind a character, with the number of characters read
  before it. -/
  | stepped (c : Char) (index : Nat) (set : StateSet)

/-- The members in ascending order, between braces. -/
def StateSet.render (set : StateSet) : String :=
  "\x7b" ++ ", ".intercalate (set.toList.map toString) ++ "\x7d"

namespace LogEntry

def level : LogEntry → LogLevel
  | compiled .. => .debug
  | annotated .. | reordered .. | searched .. | stepped .. => .trace

def text : LogEntry → String
  | annotated pattern lexemes => s!"annotated {Quoted.text pattern} as {Lexeme.glyphs lexemes}"
  | reordered pattern lexemes => s!"postfix for {Quoted.text pattern} is {Lexeme.glyphs lexemes}"
  | compiled pattern size => s!"compiled {Quoted.text pattern} into {size} states"
  | searched accepted visits =>
      let verdict := if accepted then "accepted" else "rejected"
      s!"{verdict} after visiting {visits} states"
  | stepped c index set => s!"after {Quoted.char c} at {index}: {set.render}"

end LogEntry

end PatternAutomata
