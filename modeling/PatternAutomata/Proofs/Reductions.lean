import PatternAutomata.Pattern.Evaluation
import PatternAutomata.Proofs.Results

/-!
# What one evaluation step can do

`Reduced` lists the ways in which a lexeme changes the stack, each with the
operands it needs there. A bound on the size can refuse what is built, but it
never changes it, so the list is the same for all bounds (`reduced_of_step`).
-/

namespace PatternAutomata

theorem SizeLimit.eq_of_enforce_eq_ok {limit : SizeLimit} {a b : Automaton}
    (h : limit.enforce a = .ok b) : b = a := by
  cases limit with
  | none => exact (Except.ok.inj h).symm
  | some n =>
      rw [enforce] at h
      split at h
      · simp at h
      · exact (Except.ok.inj h).symm

/-! Two operands in a row, and two alternatives. -/

theorem Automaton.concatAll_pair (x y : Operand) : concatAll [x, y] = (do
    let b ← x.build
    let c ← y.build
    return (emptyWord.concat b).concat c) := by
  simp only [concatAll, List.foldlM_cons, List.foldlM_nil, bind_assoc, pure_bind, bind_pure]

theorem Automaton.unionAll_pair (x y : Operand) : unionAll [x, y] = (do
    let b ← x.build
    let c ← y.build
    return b.union c) := by
  simp only [unionAll, List.foldlM_cons, List.foldlM_nil, bind_pure]

theorem Automaton.concatAll_pair_iff {x y : Operand} {a : Automaton} :
    concatAll [x, y] = .ok a ↔ ∃ b c, x.build = .ok b ∧ y.build = .ok c ∧
      (emptyWord.concat b).concat c = a := by
  simp only [concatAll_pair, bind_eq_ok, pure_eq_ok, exists_and_left]

theorem Automaton.unionAll_pair_iff {x y : Operand} {a : Automaton} :
    unionAll [x, y] = .ok a ↔ ∃ b c, x.build = .ok b ∧ y.build = .ok c ∧ b.union c = a := by
  simp only [unionAll_pair, bind_eq_ok, pure_eq_ok, exists_and_left]

namespace Evaluation

variable {limit : SizeLimit} {x : Lexeme} {stack later : List Operand}

/-- What a token makes of a stack that holds the operands it takes. -/
inductive Reduced : Token → List Operand → List Operand → Prop
  | symbol (c : Char) (stack : List Operand) :
      Reduced (.symbol c) stack (.text (.singleton c) :: stack)
  | emptyGroup (stack : List Operand) : Reduced .emptyGroup stack (.automaton .emptyWord :: stack)
  | leftParen (stack : List Operand) : Reduced .leftParen stack stack
  | rightParen (stack : List Operand) : Reduced .rightParen stack stack
  | join (left right : String) (below : List Operand) :
      Reduced .concat (.text right :: .text left :: below) (.text (left ++ right) :: below)
  | concat {left right : Operand} {a : Automaton} (below : List Operand) :
      Automaton.concatAll [left, right] = .ok a →
        Reduced .concat (right :: left :: below) (.automaton a :: below)
  | union {left right : Operand} {a : Automaton} (below : List Operand) :
      Automaton.unionAll [left, right] = .ok a →
        Reduced .union (right :: left :: below) (.automaton a :: below)
  | star {y : Operand} {a : Automaton} (below : List Operand) :
      y.build = .ok a → Reduced .star (y :: below) (.automaton a.star :: below)
  | plus {y : Operand} {a : Automaton} (below : List Operand) :
      y.build = .ok a → Reduced .plus (y :: below) (.automaton a.plus :: below)

/-- The stack that a lexeme leaves, if no bound is put to what it built. -/
def Reduction.operands : Reduction → List Operand
  | .settled stack => stack
  | .built a below => .automaton a :: below

theorem reduced_of_reduce {r : Reduction} (h : reduce x stack = .ok r) :
    Reduced x.token stack r.operands := by
  obtain ⟨pos, token⟩ := x
  cases token with
  | symbol c =>
      obtain rfl := Except.ok.inj h
      exact .symbol _ _
  | emptyGroup =>
      obtain rfl := Except.ok.inj h
      exact .emptyGroup _
  | leftParen =>
      obtain rfl := Except.ok.inj h
      exact .leftParen _
  | rightParen =>
      obtain rfl := Except.ok.inj h
      exact .rightParen _
  | concat =>
      match stack, h with
      | .text right :: .text left :: below, h =>
          obtain rfl := Except.ok.inj h
          exact .join _ _ _
      | .automaton right :: left :: below, h
      | .text right :: .automaton left :: below, h =>
          obtain ⟨a, ha, heq⟩ := bind_eq_ok.1 h
          obtain rfl := pure_eq_ok.1 heq
          exact .concat _ ha
  | union =>
      match stack, h with
      | right :: left :: below, h =>
          obtain ⟨a, ha, heq⟩ := bind_eq_ok.1 h
          obtain rfl := pure_eq_ok.1 heq
          exact .union _ ha
  | star =>
      match stack, h with
      | operand :: below, h =>
          obtain ⟨a, ha, heq⟩ := bind_eq_ok.1 h
          obtain rfl := pure_eq_ok.1 heq
          exact .star _ ha
  | plus =>
      match stack, h with
      | operand :: below, h =>
          obtain ⟨a, ha, heq⟩ := bind_eq_ok.1 h
          obtain rfl := pure_eq_ok.1 heq
          exact .plus _ ha

theorem reduced_of_step (h : step limit stack x = .ok later) : Reduced x.token stack later := by
  obtain ⟨r, hr, hlater⟩ := bind_eq_ok.1 h
  have hreduced := reduced_of_reduce hr
  cases r with
  | settled stack => exact pure_eq_ok.1 hlater ▸ hreduced
  | built a below =>
      obtain ⟨b, hb, heq⟩ := bind_eq_ok.1 hlater
      rw [SizeLimit.eq_of_enforce_eq_ok hb] at heq
      exact pure_eq_ok.1 heq ▸ hreduced

end Evaluation

end PatternAutomata
