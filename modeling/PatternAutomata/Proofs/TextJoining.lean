import PatternAutomata.Pattern.PlainEvaluation
import PatternAutomata.Proofs.Acceptance
import PatternAutomata.Proofs.Agreement
import PatternAutomata.Proofs.SizeLimits

/-!
# Text that is kept as text

Keeping symbols in a row as text changes neither which lexemes can be evaluated
nor what their automaton accepts, and never makes it larger. The two evaluations
go through the lexemes side by side, with stacks of the same height: what stands
on the one is text or an automaton for what stands at the same place on the other
(`Operand.Condenses`).

They differ in when they find a symbol that no automaton can read. Text with such
a symbol can still be joined, while the evaluation without text fails. But nothing
leaves the stack without becoming an automaton or a part of something else there
(`inRange_of_reduced`), so the evaluation with text fails as well, if only in the
end.
-/

namespace PatternAutomata

/-! ## Both succeed, or both fail -/

/-- Both computations have results, which are related, or both have errors. -/
inductive Alike {α β : Type} (R : α → β → Prop) :
    Except BuildError α → Except BuildError β → Prop
  | ok {y : α} {z : β} : R y z → Alike R (.ok y) (.ok z)
  | error (e e' : BuildError) : Alike R (.error e) (.error e')

namespace Alike

variable {α β γ δ : Type} {R : α → β → Prop} {S : γ → δ → Prop}
  {r : Except BuildError α} {s : Except BuildError β}

theorem bind {f : α → Except BuildError γ} {g : β → Except BuildError δ} (h : Alike R r s)
    (hf : ∀ y z, R y z → Alike S (f y) (g z)) : Alike S (r >>= f) (s >>= g) := by
  cases h with
  | ok hyz => exact hf _ _ hyz
  | error e e' => exact .error e e'

theorem exists_ok_iff (h : Alike R r s) : (∃ y, r = .ok y) ↔ ∃ z, s = .ok z := by
  cases h with
  | ok _ => exact ⟨fun _ => ⟨_, rfl⟩, fun _ => ⟨_, rfl⟩⟩
  | error e e' => exact ⟨nofun, nofun⟩

theorem related {y : α} {z : β} (h : Alike R (.ok y) (.ok z)) : R y z := by
  cases h with
  | ok hyz => exact hyz

end Alike

/-! ## Operands that stand for the same -/

/-- The first operand stands for what the second one stands for, and is not
larger. Where the one can be built the other one can. -/
structure Operand.Condenses (x y : Operand) : Prop where
  means : ∃ M, x.Means M ∧ y.Means M
  size_le : x.size ≤ y.size
  inRange_iff : x.InRange ↔ y.InRange

/-- The same for automata. -/
abbrev Automaton.Condenses (a b : Automaton) : Prop :=
  (Operand.automaton a).Condenses (.automaton b)

namespace Operand.Condenses

variable {x x' y y' : Operand} {a a' b b' : Automaton}

theorem text (s : String) : (Operand.text s).Condenses (.text s) :=
  ⟨⟨_, rfl, rfl⟩, Nat.le_refl _, Iff.rfl⟩

theorem emptyWord : Automaton.emptyWord.Condenses .emptyWord :=
  ⟨⟨1, .emptyWord, .emptyWord⟩, Nat.le_refl _, Iff.rfl⟩

theorem concat (h : a.Condenses b) (h' : a'.Condenses b') :
    (a.concat a').Condenses (b.concat b') := by
  obtain ⟨M, ha, hb⟩ := h.means
  obtain ⟨N, ha', hb'⟩ := h'.means
  refine ⟨⟨M * N, ha.concat ha', hb.concat hb'⟩, ?_, Iff.rfl⟩
  have hle : a.size + a'.size ≤ b.size + b'.size := Nat.add_le_add h.size_le h'.size_le
  simpa using hle

theorem union (h : a.Condenses b) (h' : a'.Condenses b') :
    (a.union a').Condenses (b.union b') := by
  obtain ⟨M, ha, hb⟩ := h.means
  obtain ⟨N, ha', hb'⟩ := h'.means
  refine ⟨⟨M + N, ha.union ha', hb.union hb'⟩, ?_, Iff.rfl⟩
  have hle : a.size + a'.size ≤ b.size + b'.size := Nat.add_le_add h.size_le h'.size_le
  simpa using hle

theorem star (h : a.Condenses b) : a.star.Condenses b.star := by
  obtain ⟨M, ha, hb⟩ := h.means
  refine ⟨⟨KStar.kstar M, ha.star, hb.star⟩, ?_, Iff.rfl⟩
  have hle : a.size ≤ b.size := h.size_le
  simpa using hle

theorem plus (h : a.Condenses b) : a.plus.Condenses b.plus :=
  h.concat h.star

theorem alike_build (h : x.Condenses y) : Alike Automaton.Condenses x.build y.build := by
  have hiff := exists_build_iff.trans (h.inRange_iff.trans exists_build_iff.symm)
  cases hx : x.build with
  | error e =>
      cases hy : y.build with
      | error e' => exact .error e e'
      | ok b =>
          obtain ⟨a, ha⟩ := hiff.2 ⟨b, hy⟩
          exact absurd (hx.symm.trans ha) nofun
  | ok a =>
      obtain ⟨b, hy⟩ := hiff.1 ⟨a, hx⟩
      obtain ⟨M, hM, hM'⟩ := h.means
      rw [hy]
      refine .ok ⟨⟨M, hM.build hx, hM'.build hy⟩, ?_, Iff.rfl⟩
      rw [size_automaton, size_automaton, size_of_build hx, size_of_build hy]
      exact h.size_le

/-- Two texts in a row, which the second evaluation has made an automaton of. -/
theorem join {s s' : String} {c : Automaton} (h : (Operand.text s).Condenses y)
    (h' : (Operand.text s').Condenses y') (hc : Automaton.concatAll [y, y'] = .ok c) :
    (Operand.text (s ++ s')).Condenses (.automaton c) := by
  obtain ⟨a, a', ha, ha', rfl⟩ := Automaton.concatAll_pair_iff.1 hc
  obtain ⟨_, rfl, hM⟩ := h.means
  obtain ⟨_, rfl, hN⟩ := h'.means
  refine ⟨⟨_, rfl, ?_⟩, ?_, ?_⟩
  · have hboth := (Automaton.Recognizes.emptyWord.concat (hM.build ha)).concat (hN.build ha')
    rwa [one_mul, singleton_mul_singleton, ← String.toList_append] at hboth
  · have hle : max 2 (2 * s.length) ≤ y.size := h.size_le
    have hle' : max 2 (2 * s'.length) ≤ y'.size := h'.size_le
    have hlength : (s ++ s').length = s.length + s'.length := String.length_append ..
    rw [size_automaton, Automaton.size_of_concatAll hc, size_text, hlength]
    omega
  · have hs := h.inRange_iff.2 (inRange_of_build ha)
    have hs' := h'.inRange_iff.2 (inRange_of_build ha')
    exact iff_of_true (inRange_append_iff.2 ⟨hs, hs'⟩) trivial

theorem alike_concatAll (h : x.Condenses y) (h' : x'.Condenses y') :
    Alike Automaton.Condenses (Automaton.concatAll [x, x']) (Automaton.concatAll [y, y']) := by
  rw [Automaton.concatAll_pair, Automaton.concatAll_pair]
  exact h.alike_build.bind fun _ _ hab => h'.alike_build.bind fun _ _ hcd =>
    .ok ((emptyWord.concat hab).concat hcd)

theorem alike_unionAll (h : x.Condenses y) (h' : x'.Condenses y') :
    Alike Automaton.Condenses (Automaton.unionAll [x, x']) (Automaton.unionAll [y, y']) := by
  rw [Automaton.unionAll_pair, Automaton.unionAll_pair]
  exact h.alike_build.bind fun _ _ hab => h'.alike_build.bind fun _ _ hcd => .ok (hab.union hcd)

end Operand.Condenses

theorem PlainEvaluation.step_concat {pos : Nat} {y z : Operand} {stack : List Operand} :
    step (z :: y :: stack) ⟨pos, .concat⟩ =
      Except.map (· :: stack) (do return .automaton (← Automaton.concatAll [y, z])) := by
  show (do return Operand.automaton (← Automaton.concatAll [y, z]) :: stack) = _
  cases Automaton.concatAll [y, z] <;> rfl

/-! ## Text out of range stays -/

namespace Evaluation

open Operand

variable {xs : List Lexeme} {x : Lexeme} {stack plain later : List Operand}

/-- Where nothing on the stack is out of range, nothing was before. -/
theorem inRange_of_reduced {t : Token} (h : Reduced t stack later)
    (hlater : ∀ y ∈ later, y.InRange) : ∀ y ∈ stack, y.InRange := by
  cases h with
  | symbol c => exact (List.forall_mem_cons.1 hlater).2
  | emptyGroup => exact (List.forall_mem_cons.1 hlater).2
  | leftParen => exact hlater
  | rightParen => exact hlater
  | join left right below =>
      obtain ⟨hjoined, hbelow⟩ := List.forall_mem_cons.1 hlater
      obtain ⟨hleft, hright⟩ := inRange_append_iff.1 hjoined
      exact List.forall_mem_cons.2 ⟨hright, List.forall_mem_cons.2 ⟨hleft, hbelow⟩⟩
  | concat below ha =>
      obtain ⟨b, c, hb, hc, -⟩ := Automaton.concatAll_pair_iff.1 ha
      have hbelow := (List.forall_mem_cons.1 hlater).2
      refine List.forall_mem_cons.2 ⟨inRange_of_build hc, ?_⟩
      exact List.forall_mem_cons.2 ⟨inRange_of_build hb, hbelow⟩
  | union below ha =>
      obtain ⟨b, c, hb, hc, -⟩ := Automaton.unionAll_pair_iff.1 ha
      have hbelow := (List.forall_mem_cons.1 hlater).2
      refine List.forall_mem_cons.2 ⟨inRange_of_build hc, ?_⟩
      exact List.forall_mem_cons.2 ⟨inRange_of_build hb, hbelow⟩
  | star below ha =>
      exact List.forall_mem_cons.2 ⟨inRange_of_build ha, (List.forall_mem_cons.1 hlater).2⟩
  | plus below ha =>
      exact List.forall_mem_cons.2 ⟨inRange_of_build ha, (List.forall_mem_cons.1 hlater).2⟩

theorem inRange_of_foldlM (h : xs.foldlM (step none) stack = .ok later)
    (hlater : ∀ y ∈ later, y.InRange) : ∀ y ∈ stack, y.InRange := by
  induction xs generalizing stack with
  | nil =>
      obtain rfl := pure_eq_ok.1 h
      exact hlater
  | cons x xs ih =>
      obtain ⟨between, hstep, hrest⟩ := foldlM_cons_eq_ok.1 h
      exact inRange_of_reduced (reduced_of_step hstep) (ih hrest)

theorem inRange_of_finish {a : Automaton} (h : finish none stack = .ok a) :
    ∀ y ∈ stack, y.InRange := by
  match stack, h with
  | [], _ => exact fun y hy => absurd hy List.not_mem_nil
  | [y], h =>
      obtain ⟨b, hb, -⟩ := bind_eq_ok.1 h
      exact List.forall_mem_singleton.2 (inRange_of_build hb)

/-! ## Side by side -/

/-- How far the evaluation with text and the one without have come. -/
inductive Abreast : Except BuildError (List Operand) → Except BuildError (List Operand) → Prop
  | ok {stack plain : List Operand} :
      List.Forall₂ Condenses stack plain → Abreast (.ok stack) (.ok plain)
  | error (e e' : BuildError) : Abreast (.error e) (.error e')
  /-- There is text out of range, which only the evaluation without text has met. -/
  | ahead {stack : List Operand} (e : BuildError) :
      ¬ (∀ y ∈ stack, y.InRange) → Abreast (.ok stack) (.error e)

namespace Abreast

variable {r s : Except BuildError Operand}

theorem push (h : Alike Condenses r s) (hstack : List.Forall₂ Condenses stack plain) :
    Abreast (r.map (· :: stack)) (s.map (· :: plain)) := by
  cases h with
  | ok hyz => exact .ok (.cons hyz hstack)
  | error e e' => exact .error e e'

theorem bind {r s : Except BuildError (List Operand)}
    {f g : List Operand → Except BuildError (List Operand)} (h : Abreast r s)
    (hf : ∀ stack plain, List.Forall₂ Condenses stack plain → Abreast (f stack) (g plain))
    (hrange : ∀ stack later, f stack = .ok later →
      (∀ y ∈ later, y.InRange) → ∀ y ∈ stack, y.InRange) :
    Abreast (r >>= f) (s >>= g) := by
  cases h with
  | ok hstack => exact hf _ _ hstack
  | error e e' => exact .error e e'
  | @ahead stack e hout =>
      show Abreast (f stack) (.error e)
      cases hlater : f stack with
      | error e' => exact .error e' e
      | ok later => exact .ahead e (mt (hrange stack later hlater) hout)

end Abreast

/-- Two operands in sequence. Text that is out of range is joined on the one side
and refused on the other. -/
theorem abreast_concat {y y' z z' : Operand} (hy : y.Condenses y') (hz : z.Condenses z')
    (hstack : List.Forall₂ Condenses stack plain) :
    Abreast ((Tree.joined none y z).map (· :: stack))
      (Except.map (· :: plain) (do return .automaton (← Automaton.concatAll [y', z']))) := by
  unfold Tree.joined
  split
  · cases hpair : Automaton.concatAll [y', z'] with
    | ok d => exact .ok (.cons (hy.join hz hpair) hstack)
    | error e =>
        refine .ahead e fun hrange => ?_
        obtain ⟨hleft, hright⟩ := inRange_append_iff.1 (List.forall_mem_cons.1 hrange).1
        obtain ⟨b, hb⟩ := exists_build_iff.2 (hy.inRange_iff.1 hleft)
        obtain ⟨c, hc⟩ := exists_build_iff.2 (hz.inRange_iff.1 hright)
        rw [Automaton.concatAll_pair_iff.2 ⟨b, c, hb, hc, rfl⟩] at hpair
        cases hpair
  · exact .push ((hy.alike_concatAll hz).bind fun _ _ hab => .ok hab) hstack

theorem abreast_step (h : List.Forall₂ Condenses stack plain) (x : Lexeme) :
    Abreast (step none stack x) (PlainEvaluation.step plain x) := by
  obtain ⟨pos, token⟩ := x
  cases token with
  | symbol c => exact .ok (.cons (.text _) h)
  | emptyGroup => exact .ok (.cons .emptyWord h)
  | leftParen => exact .ok h
  | rightParen => exact .ok h
  | concat =>
      match h with
      | .nil => exact .error _ _
      | .cons (a := z) (b := z') _ .nil => cases z <;> cases z' <;> exact .error _ _
      | .cons hz (.cons hy hstack) =>
          rw [step_concat, PlainEvaluation.step_concat]
          exact abreast_concat hy hz hstack
  | union =>
      match h with
      | .nil => exact .error _ _
      | .cons _ .nil => exact .error _ _
      | .cons hz (.cons hy hstack) =>
          show Abreast _ (step none _ ⟨pos, .union⟩)
          rw [step_of_built (g := id) rfl, step_of_built (g := id) rfl]
          exact .push ((hy.alike_unionAll hz).bind fun _ _ hab => .ok hab) hstack
  | star =>
      match h with
      | .nil => exact .error _ _
      | .cons hy hstack =>
          show Abreast _ (step none _ ⟨pos, .star⟩)
          rw [step_of_built (g := Automaton.star) rfl, step_of_built (g := Automaton.star) rfl]
          exact .push (hy.alike_build.bind fun _ _ hab => .ok hab.star) hstack
  | plus =>
      match h with
      | .nil => exact .error _ _
      | .cons hy hstack =>
          show Abreast _ (step none _ ⟨pos, .plus⟩)
          rw [step_of_built (g := Automaton.plus) rfl, step_of_built (g := Automaton.plus) rfl]
          exact .push (hy.alike_build.bind fun _ _ hab => .ok hab.plus) hstack

theorem abreast_foldlM (xs : List Lexeme) (h : List.Forall₂ Condenses stack plain) :
    Abreast (xs.foldlM (step none) stack) (xs.foldlM PlainEvaluation.step plain) := by
  induction xs generalizing stack plain with
  | nil => exact .ok h
  | cons x xs ih =>
      rw [List.foldlM_cons, List.foldlM_cons]
      exact (abreast_step h x).bind (fun _ _ => ih) fun _ _ => inRange_of_foldlM

theorem Abreast.alike_finish {r s : Except BuildError (List Operand)} (h : Abreast r s) :
    Alike Automaton.Condenses (r >>= finish none) (s >>= finish none) := by
  cases h with
  | ok hstack =>
      match hstack with
      | .nil => exact .ok .emptyWord
      | .cons hy .nil => exact hy.alike_build.bind fun _ _ hab => .ok hab
      | .cons _ (.cons _ _) => exact .error _ _
  | error e e' => exact .error e e'
  | @ahead stack e hout =>
      show Alike _ (finish none stack) (.error e)
      cases hfinish : finish none stack with
      | error e' => exact .error e' e
      | ok a => exact absurd (inRange_of_finish hfinish) hout

end Evaluation

namespace Lexeme

theorem alike_evaluatePlainly (xs : List Lexeme) :
    Alike Automaton.Condenses (evaluate none xs) (evaluatePlainly xs) :=
  (Evaluation.abreast_foldlM xs .nil).alike_finish

/-- Lexemes in any order can be evaluated with text exactly when they can be
evaluated without. Both engines give the same answers for the two automata, and
the one made with text does not have more states. -/
theorem evaluate_condenses_plain (xs : List Lexeme) :
    ((∃ a, evaluate none xs = .ok a) ↔ ∃ b, evaluatePlainly xs = .ok b) ∧
    ∀ a b, evaluate none xs = .ok a → evaluatePlainly xs = .ok b →
      (∀ (engine : Engine) (input : String), engine.accepts a input = engine.accepts b input) ∧
      a.size ≤ b.size := by
  have halike := alike_evaluatePlainly xs
  refine ⟨halike.exists_ok_iff, fun a b ha hb => ?_⟩
  rw [ha, hb] at halike
  obtain ⟨⟨M, hM, hM'⟩, hle, -⟩ := halike.related
  refine ⟨fun engine input => ?_, hle⟩
  rw [Bool.eq_iff_iff, engine.accepts_iff, engine.accepts_iff, hM.language_eq, hM'.language_eq]

example :
    let xs := [⟨0, .symbol 'a'⟩, ⟨1, .symbol 'b'⟩, ⟨2, .concat⟩, ⟨3, .symbol 'c'⟩, ⟨4, .concat⟩]
    (evaluate none xs).map Automaton.size = .ok 6 ∧
      (evaluatePlainly xs).map Automaton.size = .ok 10 := by
  decide +kernel

end Lexeme

end PatternAutomata
