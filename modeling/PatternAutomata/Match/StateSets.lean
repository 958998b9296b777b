import PatternAutomata.Log

/-!
# Matching with sets of states

Decides whether an automaton accepts a whole text by following all paths at
once: one set holds every state that the characters read so far can lead to.
A text is accepted when the set holds an accepting state in the end. Nothing
leaves the empty set, so the walk may stop there.
-/

namespace PatternAutomata.StateSets

/-- The states that no character has to be read for. -/
def start (a : Automaton) : StateSet :=
  a.epsilonClosure {a.entry}

/-- The states that one more character leads to. -/
def step (a : Automaton) (current : StateSet) (c : Char) : StateSet :=
  match Symbol.ofChar? c with
  | none => ∅
  | some s => a.epsilonClosure (a.move current s)

/-- The set after the whole text, or the empty set as soon as it is reached. -/
def walk (a : Automaton) (current : StateSet) : List Char → StateSet
  | [] => current
  | c :: rest => if current.isEmpty then current else walk a (step a current c) rest

/-- Each character that the walk reads, with the set it leads to. -/
def trail (a : Automaton) (current : StateSet) : List Char → List (Char × StateSet)
  | [] => []
  | c :: rest =>
      if current.isEmpty then []
      else
        let next := step a current c
        (c, next) :: trail a next rest

def accepts (a : Automaton) (input : String) : Bool :=
  a.acceptsAny (walk a (start a) input.toList)

/-- What a walk reports: the set behind each character, with the number of
characters read before it. -/
def report (a : Automaton) (input : String) : List LogEntry :=
  (trail a (start a) input.toList).mapIdx fun i (c, set) => .stepped c i set

end PatternAutomata.StateSets
