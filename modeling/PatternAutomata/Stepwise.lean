import PatternAutomata.Workspace

/-!
# Wiring step by step

`Construction` says what an automaton looks like when an operator is done with
it. Here the operators do their work one edge at a time, on an automaton that
grows while they do. They wire states without asking whether there are such
states, so a step with a number that no state has cannot be done (`none`), and
neither can all that it is a part of. This is not an error of the caller, who
gave no numbers, but a defect of the operator.

From the single step up, all that makes automata is here, to the commands of a
workspace.
-/

namespace PatternAutomata

/-! ## Steps -/

namespace Automaton

/-- A fresh entry, a fresh exit that accepts, and no edge between them. -/
def blank : Automaton where
  states := .mk [{}, { accepting := true }]
  entry := 0
  exit := 1

/-- Changes a state, which has to be there. -/
def change? (a : Automaton) (id : StateId) (f : State → State) : Option Automaton :=
  if id < a.size then some { a with states := a.states.modify id f } else none

/-- Adds an epsilon edge between two states that have to be there. -/
def connect? (a : Automaton) (src dest : StateId) : Option Automaton :=
  if dest < a.size then a.change? src (·.addEpsilons [dest]) else none

/-- Adds an edge on a symbol between two states that have to be there. -/
def connectOn? (a : Automaton) (src : StateId) (symbol : Symbol) (dest : StateId) :
    Option Automaton :=
  if dest < a.size then a.change? src (·.addEdge symbol dest) else none

/-- Lets input run out in a state or not; a state that is not there is left alone. -/
def setAccepting (a : Automaton) (id : StateId) (accepting : Bool) : Automaton :=
  { a with states := a.states.modify id fun s => { s with accepting } }

/-- Takes in the states of another automaton, behind the states already there. -/
def absorb (a b : Automaton) : Automaton :=
  { a with states := a.states ++ b.states.map (·.shift a.size) }

end Automaton

/-- The result of steps that may be impossible, or an error. -/
abbrev Stepwise (ε : Type) : Type → Type := ExceptT ε Option

namespace Stepwise

open Automaton (blank)

/-! ## Operators -/

def emptyWord : Option Automaton :=
  blank.connect? blank.entry blank.exit

def ofSymbol (s : Symbol) : Option Automaton :=
  blank.connectOn? blank.entry s blank.exit

def concat (a b : Automaton) : Option Automaton := do
  let joined ← ((a.setAccepting a.exit false).absorb b).connect? a.exit (b.entry + a.size)
  return { joined with exit := b.exit + a.size }

/-- Puts one more way from the entry to the exit into an automaton. -/
def addAlternative (a b : Automaton) : Option Automaton := do
  let grown := (a.absorb b).setAccepting (b.exit + a.size) false
  let entered ← grown.connect? a.entry (b.entry + a.size)
  entered.connect? (b.exit + a.size) a.exit

def union (a b : Automaton) : Option Automaton := do
  addAlternative (← addAlternative blank a) b

def star (a : Automaton) : Option Automaton := do
  let grown := (blank.absorb a).setAccepting (a.exit + blank.size) false
  let looped ← grown.connect? (a.exit + blank.size) (a.entry + blank.size)
  let left ← looped.connect? (a.exit + blank.size) blank.exit
  let entered ← left.connect? blank.entry (a.entry + blank.size)
  entered.connect? blank.entry blank.exit

def plus (a : Automaton) : Option Automaton := do
  concat a (← star a)

/-! ## Wiring by hand -/

def addSymbol (a : Automaton) (src value dest : Nat) : Stepwise BuildError Automaton :=
  match Symbol.ofNat? value with
  | none => throw (.invalidArgument (.symbolOutOfRange value))
  | some symbol => do
      a.checkState dest
      a.checkState src
      a.change? src (·.addEdge symbol dest)

def addEpsilon (a : Automaton) (src dest : StateId) : Stepwise BuildError Automaton := do
  a.checkState dest
  a.checkState src
  a.change? src (·.addEpsilons [dest])

/-! ## Operands -/

def ofChar (c : Char) : Stepwise BuildError Automaton :=
  addSymbol blank blank.entry c.toNat blank.exit

def ofText (text : String) : Stepwise BuildError Automaton :=
  match text.toList with
  | [] => emptyWord
  | c :: rest => do
      let first ← ofChar c
      rest.foldlM (fun a c => do concat a (← ofChar c)) first

def build : Operand → Stepwise BuildError Automaton
  | .automaton a => return a
  | .text s => ofText s

def concatAll (operands : List Operand) : Stepwise BuildError Automaton := do
  let first ← emptyWord
  operands.foldlM (fun a x => do concat a (← build x)) first

def unionAll (operands : List Operand) : Stepwise BuildError Automaton :=
  match operands with
  | [] => throw (.invalidArgument .noAlternatives)
  | x :: rest => do
      let first ← build x
      rest.foldlM (fun a x => do union a (← build x)) first

/-! ## Patterns -/

open Evaluation (Reduction)

def reduce (x : Lexeme) (stack : List Operand) : Stepwise BuildError Reduction :=
  match x.token, stack with
  | .symbol c, _ => return .settled (.text (.singleton c) :: stack)
  | .emptyGroup, _ => return .settled (.automaton (← emptyWord) :: stack)
  | .leftParen, _ | .rightParen, _ => return .settled stack
  | .concat, .text right :: .text left :: below => return .settled (.text (left ++ right) :: below)
  | .concat, right :: left :: below => return .built (← concatAll [left, right]) below
  | .union, right :: left :: below => return .built (← unionAll [left, right]) below
  | .star, operand :: below => return .built (← star (← build operand)) below
  | .plus, operand :: below => return .built (← plus (← build operand)) below
  | _, _ => throw (.malformed (.missingOperand x.pos x.token.glyph))

def evaluationStep (limit : SizeLimit) (stack : List Operand) (x : Lexeme) :
    Stepwise BuildError (List Operand) := do
  match ← reduce x stack with
  | .settled stack => return stack
  | .built a below => return .automaton (← limit.enforce a) :: below

def finish (limit : SizeLimit) : List Operand → Stepwise BuildError Automaton
  | [] => emptyWord
  | [operand] => do limit.enforce (← build operand)
  | stack => throw (.malformed (.unreduced stack.length))

def evaluate (limit : SizeLimit) (xs : List Lexeme) : Stepwise BuildError Automaton := do
  finish limit (← xs.foldlM (evaluationStep limit) [])

def compile (limit : SizeLimit) (pattern : String) : Stepwise BuildError Automaton := do
  evaluate limit (← Pattern.inReversePolish pattern)

/-! ## Workspaces -/

open Workspace

def make (w : Workspace) (recipe : Recipe) : Stepwise Fault Automaton :=
  match recipe with
  | .emptyWord => emptyWord
  | .symbol s => ofSymbol s
  | .char c => (ofChar c).adapt .notBuilt
  | .text s => (ofText s).adapt .notBuilt
  | .concat first second => do concat (← w.get first) (← w.get second)
  | .union first second => do union (← w.get first) (← w.get second)
  | .star name => do star (← w.get name)
  | .plus name => do plus (← w.get name)
  | .concatAll xs => do
      let operands ← (xs.mapM w.operand : Except Fault (List Operand))
      (concatAll operands).adapt .notBuilt
  | .unionAll xs => do
      let operands ← (xs.mapM w.operand : Except Fault (List Operand))
      (unionAll operands).adapt .notBuilt
  | .ingredient x => do (build (← w.operand x)).adapt .notBuilt
  | .copy name => w.get name
  | .pattern p => (compile w.limit p).adapt .notBuilt

def perform (w : Workspace) (command : Command) : Stepwise Fault (Answer × Workspace) :=
  match command with
  | .make name recipe => do
      let a ← make w recipe
      return (.made a, w.put name a)
  | .setLimit limit => return (.limitSet, { w with limit })
  | .addState name accepting => do
      let (id, a) := (← w.get name).addState accepting
      return (.stateAdded id a, w.put name a)
  | .addSymbol name src value dest => do
      let a ← (addSymbol (← w.get name) src value dest).adapt .notBuilt
      return (.edgeAdded src a, w.put name a)
  | .addEpsilon name src dest => do
      let a ← (addEpsilon (← w.get name) src dest).adapt .notBuilt
      return (.edgeAdded src a, w.put name a)

/-- The workspace behind a command, which a failed one leaves alone. -/
def after (w : Workspace) (command : Command) : Option Workspace := do
  match ← ExceptT.run (perform w command) with
  | .ok (_, next) => return next
  | .error _ => return w

/-- The workspace behind a list of commands, if all their steps can be done. -/
def run (w : Workspace) (commands : List Command) : Option Workspace :=
  commands.foldlM after w

end Stepwise

end PatternAutomata
