import PatternAutomata.Pattern.Compile
import PatternAutomata.Proofs.OutOfRange

/-!
# What can go wrong in an evaluation

The errors of each stage of an evaluation, whatever the lexemes and the limit.
An operand or the limit refuses what is asked of it (`Refusal`), or the token of
a step takes more operands than there are (`StepFault`), or several values are
left in the end (`FinishFault`). `Stopped` says which of these it was, and on
what stack.

None of these errors is about the text of the pattern (`Fault.not_inText`), and
all that is found before the evaluation begins is (`Pattern.failsOnly_inReversePolish`).
-/

namespace PatternAutomata

/-- The errors that an evaluation ends in. -/
inductive Evaluation.Fault : BuildError → Prop
  | outOfRange (value : Nat) : Fault (.invalidArgument (.symbolOutOfRange value))
  | missingOperand (pos : Nat) (op : Char) : Fault (.malformed (.missingOperand pos op))
  | unreduced (remaining : Nat) : Fault (.malformed (.unreduced remaining))
  | tooComplex (limit : Nat) : Fault (.tooComplex limit)

/-- The errors of making one automaton. -/
inductive Evaluation.Refusal : BuildError → Prop
  | outOfRange (value : Nat) : Refusal (.invalidArgument (.symbolOutOfRange value))
  | tooComplex (limit : Nat) : Refusal (.tooComplex limit)

theorem Evaluation.Refusal.fault {e : BuildError} (h : Refusal e) : Fault e := by
  cases h with
  | outOfRange value => exact .outOfRange value
  | tooComplex limit => exact .tooComplex limit

open Evaluation (Fault Refusal)

/-- The reason is a character that stands for no symbol. -/
def BuildError.OutOfRange (e : BuildError) : Prop :=
  ∃ value, e = .invalidArgument (.symbolOutOfRange value)

theorem BuildError.OutOfRange.refusal {e : BuildError} (h : e.OutOfRange) : Refusal e := by
  obtain ⟨value, rfl⟩ := h
  exact .outOfRange value

theorem BuildError.OutOfRange.ne_tooComplex {e : BuildError} (h : e.OutOfRange) (limit : Nat) :
    e ≠ .tooComplex limit := by
  obtain ⟨value, rfl⟩ := h
  exact nofun

theorem Consumes.failsOnly {α : Type} {cs : List Char} {r : Except BuildError α}
    (h : Consumes cs r) : FailsOnly BuildError.OutOfRange r := by
  intro e he
  obtain ⟨c, -, rfl⟩ := h.eq_error he
  exact ⟨c.toNat, rfl⟩

theorem SizeLimit.failsOnly_enforce (limit : SizeLimit) (a : Automaton) :
    FailsOnly Refusal (limit.enforce a) := by
  cases limit with
  | none => exact .ok a
  | some n =>
      rw [enforce]
      split
      · exact .error (.tooComplex n)
      · exact .ok a

/-! ## One step -/

/-- The number of operands that a token takes from the stack. -/
def Token.arity : Token → Nat
  | concat | union => 2
  | star | plus => 1
  | symbol _ | emptyGroup | leftParen | rightParen => 0

namespace Evaluation

/-- The errors of applying a lexeme to a stack, before a limit is put to what
was built. -/
inductive ReductionFault (x : Lexeme) (stack : List Operand) : BuildError → Prop
  | outOfRange {e : BuildError} : e.OutOfRange → ReductionFault x stack e
  | starved : stack.length < x.token.arity →
      ReductionFault x stack (.malformed (.missingOperand x.pos x.token.glyph))

/-- The errors of a whole step, the refusals of the limit included. -/
inductive StepFault (x : Lexeme) (stack : List Operand) : BuildError → Prop
  | refused {e : BuildError} : Refusal e → StepFault x stack e
  | starved : stack.length < x.token.arity →
      StepFault x stack (.malformed (.missingOperand x.pos x.token.glyph))

theorem StepFault.fault {x : Lexeme} {stack : List Operand} {e : BuildError}
    (h : StepFault x stack e) : Fault e := by
  cases h with
  | refused h => exact h.fault
  | starved _ => exact .missingOperand _ _

theorem ReductionFault.stepFault {x : Lexeme} {stack : List Operand} {e : BuildError}
    (h : ReductionFault x stack e) : StepFault x stack e := by
  cases h with
  | outOfRange h => exact .refused h.refusal
  | starved h => exact .starved h

theorem ReductionFault.ne_tooComplex {x : Lexeme} {stack : List Operand} {e : BuildError}
    (h : ReductionFault x stack e) (limit : Nat) : e ≠ .tooComplex limit := by
  cases h with
  | outOfRange h => exact h.ne_tooComplex limit
  | starved _ => exact nofun

/-- Operands that are there are refused for their characters only. -/
theorem failsOnly_of_consumes {x : Lexeme} {stack : List Operand} {cs : List Char}
    {r : Except BuildError Automaton} {f : Automaton → Reduction} (h : Consumes cs r) :
    FailsOnly (ReductionFault x stack) (r >>= fun a => .ok (f a)) :=
  (h.failsOnly.mono fun _ => .outOfRange).bind fun a => .ok (f a)

theorem failsOnly_reduce (x : Lexeme) (stack : List Operand) :
    FailsOnly (ReductionFault x stack) (reduce x stack) := by
  obtain ⟨pos, token⟩ := x
  cases token with
  | symbol c => exact .ok _
  | emptyGroup => exact .ok _
  | leftParen => exact .ok _
  | rightParen => exact .ok _
  | concat =>
      match stack with
      | [] | [.text _] | [.automaton _] => exact .error (.starved (by simp [Token.arity]))
      | .text right :: .text left :: below => exact .ok _
      | .automaton right :: left :: below | .text right :: .automaton left :: below =>
          exact failsOnly_of_consumes (Automaton.consumes_concatAll _)
  | union =>
      match stack with
      | [] | [_] => exact .error (.starved (by simp [Token.arity]))
      | right :: left :: below =>
          exact failsOnly_of_consumes (Automaton.consumes_unionAll _ _)
  | star =>
      match stack with
      | [] => exact .error (.starved (by simp [Token.arity]))
      | operand :: below =>
          exact failsOnly_of_consumes operand.consumes_build
  | plus =>
      match stack with
      | [] => exact .error (.starved (by simp [Token.arity]))
      | operand :: below =>
          exact failsOnly_of_consumes operand.consumes_build

theorem failsOnly_step (limit : SizeLimit) (stack : List Operand) (x : Lexeme) :
    FailsOnly (StepFault x stack) (step limit stack x) := by
  refine ((failsOnly_reduce x stack).mono fun _ => ReductionFault.stepFault).bind fun r => ?_
  cases r with
  | settled later => exact .ok later
  | built a below =>
      have henforce := SizeLimit.failsOnly_enforce limit a
      exact (henforce.mono fun _ => .refused).bind fun _ => .ok _

/-! ## The end -/

/-- The errors of ending with a stack. -/
inductive FinishFault (stack : List Operand) : BuildError → Prop
  | refused {e : BuildError} : Refusal e → FinishFault stack e
  | unreduced : 1 < stack.length → FinishFault stack (.malformed (.unreduced stack.length))

theorem FinishFault.fault {stack : List Operand} {e : BuildError} (h : FinishFault stack e) :
    Fault e := by
  cases h with
  | refused h => exact h.fault
  | unreduced _ => exact .unreduced _

theorem failsOnly_finish (limit : SizeLimit) (stack : List Operand) :
    FailsOnly (FinishFault stack) (finish limit stack) := by
  match stack with
  | [] => exact .ok _
  | [y] =>
      have hbuild := y.consumes_build.failsOnly.mono fun _ h => h.refusal
      exact (hbuild.bind (SizeLimit.failsOnly_enforce limit)).mono fun _ => .refused
  | _ :: _ :: _ => exact .error (.unreduced (by simp))

/-! ## The whole evaluation -/

/-- Where an evaluation stops with an error: at a lexeme, or at the end. -/
inductive Stopped (limit : SizeLimit) (xs : List Lexeme) (e : BuildError) : Prop
  | step {us vs : List Lexeme} {x : Lexeme} {stack : List Operand} : xs = us ++ x :: vs →
      us.foldlM (step limit) [] = .ok stack → StepFault x stack e → Stopped limit xs e
  | finish {stack : List Operand} : xs.foldlM (Evaluation.step limit) [] = .ok stack →
      FinishFault stack e → Stopped limit xs e

theorem stopped_of_evaluate {limit : SizeLimit} {xs : List Lexeme} {e : BuildError}
    (h : Lexeme.evaluate limit xs = .error e) : Stopped limit xs e := by
  rcases bind_eq_error.1 h with hxs | ⟨stack, hstack, hfinish⟩
  · obtain ⟨us, x, vs, stack, hsplit, hus, hx⟩ := exists_of_foldlM_eq_error hxs
    exact .step hsplit hus (failsOnly_step limit stack x e hx)
  · exact .finish hstack (failsOnly_finish limit stack e hfinish)

end Evaluation

theorem Lexeme.failsOnly_evaluate (limit : SizeLimit) (xs : List Lexeme) :
    FailsOnly Fault (evaluate limit xs) := by
  intro e he
  cases Evaluation.stopped_of_evaluate he with
  | step _ _ h => exact h.fault
  | finish _ h => exact h.fault

/-- The error is about the text of a pattern: an unsupported character, or
a bracket without a partner. -/
def BuildError.InText : BuildError → Prop
  | .unsupported _ _ | .malformed (.unopenedGroup _) | .malformed (.unclosedGroup _) => True
  | _ => False

theorem Evaluation.Fault.not_inText {e : BuildError} (h : Fault e) : ¬ e.InText := by
  cases h <;> exact id

/-! ## Before the evaluation -/

theorem Lexeme.failsOnly_scan (pos : Nat) (cs : List Char) :
    FailsOnly BuildError.InText (scan pos cs) := by
  induction cs generalizing pos with
  | nil => exact .ok _
  | cons c cs ih =>
      rw [scan]
      split
      · exact .error trivial
      · exact (ih _).bind fun rest => .ok _

theorem Lexeme.failsOnly_reversePolish (xs : List Lexeme) :
    FailsOnly (fun e => (BuildError.malformed e).InText) (reversePolish xs) := by
  refine (FailsOnly.foldlM (fun p x _ => ?_) _).bind fun p => ?_
  · unfold ReversePolish.step
    split
    any_goals exact .ok _
    dsimp only
    split
    · exact .error trivial
    · exact .ok _
  · unfold ReversePolish.finish
    split
    · exact .error trivial
    · exact .ok _

theorem Pattern.failsOnly_inReversePolish (pattern : String) :
    FailsOnly BuildError.InText (inReversePolish pattern) :=
  (Lexeme.failsOnly_scan _ _).bind fun _ => (Lexeme.failsOnly_reversePolish _).mapError

end PatternAutomata
