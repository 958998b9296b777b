import PatternAutomata.Automaton.Wiring
import PatternAutomata.Pattern.Compile
import Std.Data.HashMap

/-!
# Workspaces

Automata under names, and the commands that make and change them. A command
takes its operands by name and leaves them as they are, so an automaton only
changes when it is wired by hand or when its name is given to another one. A
command that fails changes nothing.
-/

namespace PatternAutomata

structure Workspace where
  automata : Std.HashMap String Automaton := {}
  /-- The bound that patterns are compiled under. -/
  limit : SizeLimit := .standard

namespace Workspace

/-- One element of a sequence or of a list of alternatives. -/
inductive Ingredient where
  | text (s : String)
  | named (name : String)
deriving DecidableEq, Repr

inductive Recipe where
  | emptyWord
  | symbol (s : Symbol)
  | char (c : Char)
  | text (s : String)
  | concat (first second : String)
  | union (first second : String)
  | star (operand : String)
  | plus (operand : String)
  | concatAll (xs : List Ingredient)
  | unionAll (xs : List Ingredient)
  | ingredient (x : Ingredient)
  | copy (operand : String)
  | pattern (p : String)
deriving DecidableEq, Repr

inductive Command where
  /-- Makes an automaton and stores it under a name. -/
  | make (name : String) (recipe : Recipe)
  | setLimit (limit : SizeLimit)
  | addState (name : String) (accepting : Bool)
  | addSymbol (name : String) (src value dest : Nat)
  | addEpsilon (name : String) (src dest : StateId)
deriving DecidableEq, Repr

inductive Answer where
  | made (a : Automaton)
  | limitSet
  | stateAdded (id : StateId) (a : Automaton)
  | edgeAdded (src : StateId) (a : Automaton)
deriving DecidableEq

inductive Fault where
  | unknownName (name : String)
  | notBuilt (error : BuildError)
deriving DecidableEq, Repr

def Fault.message : Fault → String
  | unknownName name => "no automaton " ++ name
  | notBuilt error => error.message

def get (w : Workspace) (name : String) : Except Fault Automaton :=
  match w.automata[name]? with
  | some a => .ok a
  | none => .error (.unknownName name)

/-- Stores an automaton, in the place of one that had the name before. -/
def put (w : Workspace) (name : String) (a : Automaton) : Workspace :=
  { w with automata := w.automata.insert name a }

theorem get_put (w : Workspace) (name : String) (a : Automaton) :
    (w.put name a).get name = .ok a := by
  simp [get, put]

def operand (w : Workspace) : Ingredient → Except Fault Operand
  | .text s => .ok (.text s)
  | .named name => return .automaton (← w.get name)

/-- The automaton that a recipe makes. All names are looked up, in their
order, before anything is built. -/
def make (w : Workspace) (recipe : Recipe) : Except Fault Automaton :=
  match recipe with
  | .emptyWord => .ok .emptyWord
  | .symbol s => .ok (.ofSymbol s)
  | .char c => (Automaton.ofChar c).mapError .notBuilt
  | .text s => (Automaton.ofText s).mapError .notBuilt
  | .concat first second => return (← w.get first).concat (← w.get second)
  | .union first second => return (← w.get first).union (← w.get second)
  | .star name => return (← w.get name).star
  | .plus name => return (← w.get name).plus
  | .concatAll xs => do
      (Automaton.concatAll (← xs.mapM w.operand)).mapError .notBuilt
  | .unionAll xs => do
      (Automaton.unionAll (← xs.mapM w.operand)).mapError .notBuilt
  | .ingredient x => do
      (← w.operand x).build.mapError .notBuilt
  | .copy name => w.get name
  | .pattern p => (Pattern.compile w.limit p).mapError .notBuilt

def perform (w : Workspace) (command : Command) : Except Fault (Answer × Workspace) :=
  match command with
  | .make name recipe => do
      let a ← w.make recipe
      return (.made a, w.put name a)
  | .setLimit limit => .ok (.limitSet, { w with limit })
  | .addState name accepting => do
      let (id, a) := (← w.get name).addState accepting
      return (.stateAdded id a, w.put name a)
  | .addSymbol name src value dest => do
      let a ← ((← w.get name).addSymbol src value dest).mapError .notBuilt
      return (.edgeAdded src a, w.put name a)
  | .addEpsilon name src dest => do
      let a ← ((← w.get name).addEpsilon src dest).mapError .notBuilt
      return (.edgeAdded src a, w.put name a)

/-- The workspace behind a command; a failed one leaves it alone. -/
def after (w : Workspace) (command : Command) : Workspace :=
  match w.perform command with
  | .ok (_, next) => next
  | .error _ => w

/-- The workspace behind a list of commands, whether or not they succeed. -/
def run (w : Workspace) (commands : List Command) : Workspace :=
  commands.foldl after w

end Workspace

end PatternAutomata
