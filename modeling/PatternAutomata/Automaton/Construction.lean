import PatternAutomata.Automaton.Basic

/-!
# Construction

The operators that build automata. Each of them puts the states of its
operands, renumbered as one block, behind states that are already there, and
joins the blocks by epsilon edges: a block is entered at its entry and left
from its exit.

States 0 and 1 of an automaton made by anything but `concat` and `plus` are
its entry and its exit. The words given for an operator are those it accepts
for operands that accept at their exit only; an operand with other accepting
states keeps them, and with them the words that end there.
-/

namespace PatternAutomata.Automaton

/-- Accepts the empty word only. -/
def emptyWord : Automaton where
  states := .mk [{ epsilons := [1] }, { accepting := true }]
  entry := 0
  exit := 1

def ofSymbol (s : Symbol) : Automaton where
  states := .mk [{ edges := .single s 1 }, { accepting := true }]
  entry := 0
  exit := 1

/-- The states for a place `k` states further on, with the exit continued to
the given states instead of ending the input. -/
def block (a : Automaton) (k : Nat) (next : List StateId) : Array State :=
  (a.states.map (·.shift k)).modify a.exit (·.continueTo next)

/-- The words of `a`, each followed by a word of `b`. -/
def concat (a b : Automaton) : Automaton :=
  let k := a.size
  { states := a.states.modify a.exit (·.continueTo [b.entry + k]) ++ b.states.map (·.shift k)
    entry := a.entry
    exit := b.exit + k }

def union (a b : Automaton) : Automaton where
  states := .mk [{ epsilons := [a.entry + 2, b.entry + (a.size + 2)] }, { accepting := true }]
    ++ a.block 2 [1] ++ b.block (a.size + 2) [1]
  entry := 0
  exit := 1

/-- The words made of any number of words of `a`, one after the other. -/
def star (a : Automaton) : Automaton where
  states := .mk [{ epsilons := [a.entry + 2, 1] }, { accepting := true }]
    ++ a.block 2 [a.entry + 2, 1]
  entry := 0
  exit := 1

/-- The words made of one or more words of `a`. The states of `a` stand in the
result twice. -/
def plus (a : Automaton) : Automaton :=
  a.concat a.star

@[simp] theorem size_emptyWord : emptyWord.size = 2 := rfl

@[simp] theorem size_ofSymbol (s : Symbol) : (ofSymbol s).size = 2 := rfl

@[simp] theorem size_block (a : Automaton) (k : Nat) (next : List StateId) :
    (a.block k next).size = a.size := by
  simp [block, size]

@[simp] theorem size_concat (a b : Automaton) : (a.concat b).size = a.size + b.size := by
  simp [concat, size]

@[simp] theorem size_union (a b : Automaton) :
    (a.union b).size = a.size + b.size + 2 := by
  simp only [union, size, Array.size_append, size_block, List.size_toArray,
    List.length_cons, List.length_nil]
  omega

@[simp] theorem size_star (a : Automaton) : a.star.size = a.size + 2 := by
  simp only [star, size, Array.size_append, size_block, List.size_toArray,
    List.length_cons, List.length_nil]
  omega

@[simp] theorem size_plus (a : Automaton) : a.plus.size = a.size + a.size + 2 := by
  simp [plus]
  omega

end PatternAutomata.Automaton
