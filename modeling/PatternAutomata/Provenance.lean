import PatternAutomata.Automaton.Wiring
import PatternAutomata.Pattern.Compile

/-!
# Where automata come from

The ways to get hold of an automaton: the operators, the compiler, and wiring
by hand of one that was got before. An automaton that only the operators and
the compiler had a part in is *constructed*.
-/

namespace PatternAutomata.Automaton

/-- The automaton comes out of finitely many operations, and out of operations
that wire by hand only if `wired` is true. -/
inductive Made (wired : Bool) : Automaton → Prop where
  | emptyWord : Made wired emptyWord
  | ofSymbol (s : Symbol) : Made wired (ofSymbol s)
  | ofChar {c : Char} {a : Automaton} : Automaton.ofChar c = .ok a → Made wired a
  | concat {a b : Automaton} : Made wired a → Made wired b → Made wired (a.concat b)
  | union {a b : Automaton} : Made wired a → Made wired b → Made wired (a.union b)
  | star {a : Automaton} : Made wired a → Made wired a.star
  | plus {a : Automaton} : Made wired a → Made wired a.plus
  | build {x : Operand} {a : Automaton} :
      (∀ b, x = .automaton b → Made wired b) → x.build = .ok a → Made wired a
  | concatAll {xs : List Operand} {a : Automaton} :
      (∀ b, .automaton b ∈ xs → Made wired b) → Automaton.concatAll xs = .ok a → Made wired a
  | unionAll {xs : List Operand} {a : Automaton} :
      (∀ b, .automaton b ∈ xs → Made wired b) → Automaton.unionAll xs = .ok a → Made wired a
  | compile {limit : SizeLimit} {pattern : String} {a : Automaton} :
      Pattern.compile limit pattern = .ok a → Made wired a
  | addState {a : Automaton} (accepting : Bool) :
      wired = true → Made wired a → Made wired (a.addState accepting).2
  | addSymbol {a b : Automaton} {src value dest : Nat} :
      wired = true → Made wired a → a.addSymbol src value dest = .ok b → Made wired b
  | addEpsilon {a b : Automaton} {src dest : StateId} :
      wired = true → Made wired a → a.addEpsilon src dest = .ok b → Made wired b

/-- Made by the operators and the compiler alone. -/
abbrev Constructed : Automaton → Prop := Made false

/-- Made in any way, wiring by hand included. -/
abbrev Obtainable : Automaton → Prop := Made true

/-- An automaton such as no operator makes: an edge leads from the exit back to
the entry, and input may also run out beside the exit. -/
def looped : Automaton where
  states := #[{ edges := (EdgeTable.empty.insert 97 1).insert 98 2 },
    { accepting := true, epsilons := [0] }, { accepting := true }]
  entry := 0
  exit := 1

/-- Three calls make it from a single symbol. -/
theorem obtainable_looped : looped.Obtainable := by
  have hstate : Obtainable ((ofSymbol 97).addState true).2 := .addState true rfl (.ofSymbol 97)
  have hside : Obtainable _ := @Made.addSymbol true _ _ 0 98 2 rfl hstate rfl
  exact @Made.addEpsilon true _ looped 1 0 rfl hside rfl

end PatternAutomata.Automaton
