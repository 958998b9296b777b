import PatternAutomata.Automaton.Dump
import PatternAutomata.Match.DepthFirst
import PatternAutomata.Pattern.Compile

/-!
# The command line

What the program does with its arguments, as a function: the exit status and
all that it writes. A failure is a list of messages, the outermost first: what
the program was about to do, if it says so, and the messages of the error. How
they are laid out in one report is left to a parameter, and `numbered` is the
layout that the program has.
-/

namespace PatternAutomata.CommandLine

open Text

/-- How a run of the program ends, and what it has written by then. -/
structure Exit where
  code : UInt32
  stdout : String
  stderr : String
deriving DecidableEq, Repr

inductive Request where
  | help
  | dump (pattern : String)
  | matchAll (pattern : String) (inputs : List String)
  | demo
  | unknown
deriving DecidableEq, Repr

def Request.ofArgs : List String → Request
  | "-h" :: _ | "--help" :: _ => .help
  | ["dump", pattern] => .dump pattern
  | "match" :: pattern :: input :: inputs => .matchAll pattern (input :: inputs)
  | ["demo"] => .demo
  | _ => .unknown

def usage : String :=
  "Usage: thompson <COMMAND>\n\n"
    ++ "Commands:\n"
    ++ "  dump  <pattern>             Print the NFA a pattern compiles to\n"
    ++ "  match <pattern> <input>...  Match a pattern against whole inputs\n"
    ++ "  demo                        Run the built-in experiments\n\n"
    ++ "Set RUST_LOG=thompson=trace to see the compiler and matcher at work.\n"

/-- How the messages of a failure are put together, the outermost first. -/
abbrev Layout := List String → String

/-- The outermost message, and the others below it. They are numbered when there
is more than one of them. -/
def numbered : Layout
  | [] => ""
  | [message] => message
  | [message, cause] => s!"{message}\n\nCaused by:\n    {cause}"
  | message :: causes =>
      let items := causes.mapIdx fun i cause =>
        let number := String.ofList (List.leftpad 5 ' ' (toString i).toList)
        s!"\n{number}: {cause}"
      s!"{message}\n\nCaused by:" ++ String.join items

/-- A run that fails after it has written something. -/
def failure (layout : Layout) (written : String) (messages : List String) : Exit :=
  ⟨1, written, s!"Error: {layout messages}\n"⟩

/-- The automaton of a pattern. The messages tell which pattern did not compile. -/
def compile (pattern : String) : Except (List String) Automaton :=
  (Pattern.compile .standard pattern).mapError fun error =>
    s!"failed to compile pattern {Quoted.text pattern}" :: error.messages

/-- One line for each input: the input and whether it is accepted. -/
def verdicts (a : Automaton) (inputs : List String) : String :=
  String.join (inputs.map fun input => s!"{input} {DepthFirst.accepts a input}\n")

def withPattern (layout : Layout) (pattern : String) (write : Automaton → String) : Exit :=
  match compile pattern with
  | .error messages => failure layout "" messages
  | .ok a => ⟨0, write a, ""⟩

/-- The inputs that every automaton of the demonstration is tried on. -/
def candidates : List String :=
  ["", "ab", "bb", "a", "abbb", "bbab", "baba", "bbbbbbababbbbb", "bc", "abbc"]

/-- One or more times `ab` or `bb`, without a pattern. -/
def oneOrMore : Except BuildError Automaton := do
  let pair ← Automaton.unionAll [.text "ab", .text "bb"]
  Automaton.concatAll [.automaton pair, .automaton pair.star]

/-- An `a` and three or four times `b`, without a pattern. -/
def bounded : Except BuildError Automaton := do
  let counts ← Automaton.unionAll [.text "bbb", .text "bbbb"]
  Automaton.concatAll [.text "a", .automaton counts]

/-- The automata of the demonstration, each with its title. -/
def experiments : List (String × Except (List String) Automaton) :=
  ["(ab|bb)*", "(ab|bb)+", "(ab|bb)*bc"].map (fun pattern => (pattern, compile pattern))
    ++ [("(ab|bb)+ (by hand)", oneOrMore), ("ab\x7b3,4\x7d (by hand)", bounded)].map
      fun (title, made) => (title, made.mapError BuildError.messages)

def experiment (title : String) (a : Automaton) : String :=
  let rule := String.ofList (List.replicate 20 '-')
  s!"{rule} Regex: {title} {rule}\n" ++ verdicts a candidates ++ "\n"

/-- One experiment after the other. An automaton that cannot be built ends the
demonstration, and what was written before stays. -/
def demo (layout : Layout) : List (String × Except (List String) Automaton) → String → Exit
  | [], written => ⟨0, written, ""⟩
  | (_, .error messages) :: _, written => failure layout written messages
  | (title, .ok a) :: rest, written => demo layout rest (written ++ experiment title a)

def respond (layout : Layout) (args : List String) : Exit :=
  match Request.ofArgs args with
  | .help => ⟨0, "", usage⟩
  | .dump pattern =>
      withPattern layout pattern fun a => s!"=== Pattern: '{pattern}' ===\n" ++ a.dump
  | .matchAll pattern inputs => withPattern layout pattern (verdicts · inputs)
  | .demo => demo layout experiments ""
  | .unknown => ⟨1, "", usage⟩

def run (args : List String) : Exit :=
  respond numbered args

end PatternAutomata.CommandLine
