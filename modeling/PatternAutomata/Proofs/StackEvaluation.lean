import PatternAutomata.Pattern.Tree
import PatternAutomata.Proofs.Order

/-!
# Evaluation on a stack builds the tree

Evaluating the postorder of a tree puts the operand of the tree on the stack,
whatever is there already, and fails where building the tree fails. With what
is known about the order of lexemes this makes compiling a pattern the same as
building its tree (`Derives.Whole.compile_eq`).
-/

namespace PatternAutomata

namespace Evaluation

variable {limit : SizeLimit} {xs ys : List Lexeme} {x : Lexeme}
  {l r : Except BuildError Operand}

/-- Evaluating the lexemes has one more operand as its outcome, or an error. -/
def Pushes (limit : SizeLimit) (xs : List Lexeme) (r : Except BuildError Operand) : Prop :=
  ∀ stack, xs.foldlM (step limit) stack = r.map (· :: stack)

namespace Pushes

theorem unary {f : Operand → Except BuildError Operand} (h : Pushes limit xs r)
    (hstep : ∀ y stack, step limit (y :: stack) x = (f y).map (· :: stack)) :
    Pushes limit (xs ++ [x]) (r >>= f) := by
  intro stack
  rw [List.foldlM_append, h]
  cases r with
  | error e => rfl
  | ok y =>
      show [x].foldlM (step limit) (y :: stack) = _
      rw [List.foldlM_cons, hstep]
      exact bind_pure _

theorem binary {f : Operand → Operand → Except BuildError Operand} (hl : Pushes limit xs l)
    (hr : Pushes limit ys r)
    (hstep : ∀ y z stack, step limit (z :: y :: stack) x = (f y z).map (· :: stack)) :
    Pushes limit (xs ++ ys ++ [x]) (l >>= fun y => r >>= fun z => f y z) := by
  intro stack
  rw [List.foldlM_append, List.foldlM_append, hl]
  cases l with
  | error e => rfl
  | ok y =>
      show (ys.foldlM (step limit) (y :: stack) >>= _) = _
      rw [hr]
      cases r with
      | error e => rfl
      | ok z =>
          show [x].foldlM (step limit) (z :: y :: stack) = _
          rw [List.foldlM_cons, hstep]
          exact bind_pure _

end Pushes

/-! What the operators do to the operands on top of the stack. -/

variable {pos : Nat} {y z : Operand} {above stack : List Operand}

theorem step_of_built {e : Except BuildError Automaton} {g : Automaton → Automaton}
    (h : reduce x above = (do return .built (g (← e)) stack)) :
    step limit above x =
      Except.map (· :: stack) (do return .automaton (← limit.enforce (g (← e)))) := by
  rw [step, h]
  cases e with
  | error e => rfl
  | ok a =>
      show (do return .automaton (← limit.enforce (g a)) :: stack) =
        Except.map (· :: stack) (do return .automaton (← limit.enforce (g a)))
      cases limit.enforce (g a) <;> rfl

theorem step_concat :
    step limit (z :: y :: stack) ⟨pos, .concat⟩ =
      (Tree.joined limit y z).map (· :: stack) := by
  cases y with
  | automaton a => cases z <;> exact step_of_built (g := id) rfl
  | text s =>
      cases z with
      | automaton a => exact step_of_built (g := id) rfl
      | text s' => rfl

end Evaluation

namespace Tree

open Evaluation

theorem pushes_postorder (limit : SizeLimit) (t : Tree) :
    Pushes limit t.postorder (t.operand limit) := by
  induction t with
  | symbol pos c => exact fun _ => rfl
  | emptyGroup pos => exact fun _ => rfl
  | concat pos l r ihl ihr => exact ihl.binary ihr fun _ _ _ => step_concat
  | union pos l r ihl ihr => exact ihl.binary ihr fun _ _ _ => step_of_built (g := id) rfl
  | star pos t ih => exact ih.unary fun _ _ => step_of_built (g := Automaton.star) rfl
  | plus pos t ih => exact ih.unary fun _ _ => step_of_built (g := Automaton.plus) rfl

end Tree

theorem Lexeme.evaluate_postorder (limit : SizeLimit) (t : Tree) :
    Lexeme.evaluate limit t.postorder = t.build limit := by
  rw [Lexeme.evaluate, t.pushes_postorder limit, Tree.build]
  cases t.operand limit <;> rfl

/-- Evaluation on a stack and recursion over the tree come to the same, to the
same automaton or to the same error under every limit. They do so for a whole
tree, and for a tree that is evaluated in front of other lexemes. -/
theorem Tree.evaluation_eq_build (limit : SizeLimit) (t : Tree) :
    Lexeme.evaluate limit t.postorder = t.build limit ∧
    ∀ rest stack, (t.postorder ++ rest).foldlM (Evaluation.step limit) stack = (do
      let x ← t.operand limit
      rest.foldlM (Evaluation.step limit) (x :: stack)) := by
  refine ⟨Lexeme.evaluate_postorder limit t, fun rest stack => ?_⟩
  rw [List.foldlM_append, t.pushes_postorder limit]
  cases t.operand limit <;> rfl

/-- A symbol out of range is found where its text becomes an automaton. Here
that is behind the repetition, which the limit refuses before. -/
example : (Tree.concat 2 (.symbol 0 'λ') (.star 3 (.symbol 2 'a'))).build (some 3) =
    .error (.tooComplex 3) := by
  decide +kernel

theorem Derives.Whole.compile_eq {pattern : String} {t : Tree} (h : Derives.Whole pattern t)
    (limit : SizeLimit) : Pattern.compile limit pattern = t.build limit := by
  rw [Pattern.compile, h.inReversePolish_eq]
  exact Lexeme.evaluate_postorder limit t

end PatternAutomata
