import PatternAutomata.Proofs.BackedConcats
import PatternAutomata.Proofs.EvaluationFaults
import PatternAutomata.Proofs.Offsets

/-!
# Too many values and too few

What the stack of an evaluation can lack and hold when the lexemes come from a
text. Between any two operands of a text there is an operator, so in the end
never more than one value is left (`Pattern.evaluate_ne_unreduced`). There can
be too few values though, and the evaluation stops at the first operator that
does not find what it takes. That need not be one that is written: in `a(*b)`
the repetition takes the operand in front of the group, and it is the
concatenation of that operand with the group that finds one value only
(`Pattern.compile_missingOperand`).
-/

namespace PatternAutomata

open Lexeme

namespace Pattern

variable {pattern : String} {ys : List Lexeme} {limit : SizeLimit} {stack : List Operand}

/-! ## Nothing is left over -/

theorem length_of_inReversePolish (h : inReversePolish pattern = .ok ys)
    (hstack : ys.foldlM (Evaluation.step limit) [] = .ok stack) :
    stack.length = if pattern = "" then 0 else 1 := by
  obtain ⟨xs, hscan, horder⟩ := bind_eq_ok.1 h
  rw [mapError_eq_ok] at horder
  by_cases hempty : pattern = ""
  · subst hempty
    obtain rfl : [] = xs := Except.ok.inj hscan
    obtain rfl : [] = ys := Except.ok.inj horder
    obtain rfl := pure_eq_ok.1 hstack
    rfl
  · have hconcat := ne_concat_of_scan hscan
    have hsum := length_add_faults hconcat horder hstack
    have hfaults := faults_eq_zero (ne_nil_of_ofPattern hscan hempty) hconcat horder hstack
    rw [if_neg hempty]
    omega

/-- The evaluation of a text never ends with several values. If every lexeme can
be applied, it ends with one value, or with none if the text is empty. -/
theorem evaluate_ne_unreduced (h : inReversePolish pattern = .ok ys) (limit : SizeLimit) :
    (∀ n, evaluate limit ys ≠ .error (.malformed (.unreduced n))) ∧
    ∀ stack, ys.foldlM (Evaluation.step limit) [] = .ok stack →
      (pattern ≠ "" → ∃ x, stack = [x]) ∧ (pattern = "" → stack = []) := by
  refine ⟨fun n herror => ?_, fun stack hstack => ⟨fun hne => ?_, fun hempty => ?_⟩⟩
  · cases Evaluation.stopped_of_evaluate herror with
    | step _ _ hfault =>
        cases hfault with
        | refused hrefusal => cases hrefusal
    | finish hstack hfault =>
        have hlength := length_of_inReversePolish h hstack
        cases hfault with
        | refused hrefusal => cases hrefusal
        | unreduced hmany =>
            split at hlength <;> omega
  · have hlength := length_of_inReversePolish h hstack
    rw [if_neg hne] at hlength
    exact List.length_eq_one_iff.1 hlength
  · have hlength := length_of_inReversePolish h hstack
    rw [if_pos hempty] at hlength
    exact List.length_eq_zero_iff.1 hlength

/-- Five operands, and one automaton in the end. -/
theorem evaluate_ne_unreduced_group :
    ∃ ys stack, inReversePolish "(a|b)*()cd" = .ok ys ∧
      ys.foldlM (Evaluation.step (some 40)) [] = .ok stack ∧
      (∀ n, evaluate (some 40) ys ≠ .error (.malformed (.unreduced n))) ∧ ∃ x, stack = [x] := by
  obtain ⟨ys, hys⟩ :=
    exists_eq_ok_of_isOk (x := inReversePolish "(a|b)*()cd") (by decide +kernel)
  have hisOk : (inReversePolish "(a|b)*()cd" >>= fun ys =>
      ys.foldlM (Evaluation.step (some 40)) []).isOk = true := by decide +kernel
  rw [hys] at hisOk
  obtain ⟨stack, hstack⟩ := exists_eq_ok_of_isOk hisOk
  obtain ⟨hne, hlength⟩ := evaluate_ne_unreduced hys (some 40)
  exact ⟨ys, stack, hys, hstack, hne, (hlength stack hstack).1 (by decide)⟩

/-! ## What is missing -/

end Pattern

theorem Token.not_mem_of_closesOperand {d : Char} {t : Token} (h : ofChar? d = some t)
    (hcloses : t.closesOperand = true) : d ∉ ['(', '|'] := by
  intro hd
  rw [List.mem_pair] at hd
  rcases hd with rfl | rfl <;>
    · obtain rfl := Option.some.inj h
      cases hcloses

namespace Lexeme.Located

variable {cs : List Char} {x : Lexeme}

theorem standsAt (h : Located cs x) (hx : x.token ∈ [.union, .star, .plus]) :
    StandsAt cs x.pos x.token.glyph := by
  cases h with
  | written htoken hstands =>
      rw [Token.glyph_of_ofChar? htoken]
      exact hstands
  | emptyGroup => simp at hx
  | concat => simp at hx

/-- The concatenation in front of a group. -/
theorem group (h : Located cs x) (hx : x.token = .concat) (hparen : StandsAt cs x.pos '(') :
    ∃ pre d post, cs = pre ++ d :: '(' :: post ∧ d ∉ ['(', '|'] ∧
      byteLength (pre ++ [d]) = x.pos := by
  cases h with
  | written htoken _ => exact absurd hx (Token.ne_concat_of_ofChar? htoken)
  | emptyGroup => cases hx
  | @concat pre post c d s t hcs hd hcloses hc hopens =>
      have hstands : StandsAt cs (byteLength (pre ++ [d])) c :=
        ⟨pre ++ [d], post, by simp [hcs], rfl⟩
      obtain rfl : '(' = c := hparen.unique hstands
      exact ⟨pre, d, post, hcs, Token.not_mem_of_closesOperand hd hcloses, rfl⟩

end Lexeme.Located

namespace Pattern

variable {pattern : String} {limit : SizeLimit}

/-- A concatenation that lacks a value stands in front of a group. -/
theorem standsAt_of_starved {us vs : List Lexeme} {x : Lexeme} {stack : List Operand}
    (h : inReversePolish pattern = .ok (us ++ x :: vs))
    (hstack : us.foldlM (Evaluation.step limit) [] = .ok stack) (hx : x.token = .concat)
    (hlt : stack.length < 2) : StandsAt pattern.toList x.pos '(' := by
  obtain ⟨xs, hscan, horder⟩ := bind_eq_ok.1 h
  rw [mapError_eq_ok] at horder
  have hbracket : ∀ y ∈ us ++ x :: vs, y.token.isBracket = false := fun y hy =>
    isBracket_of_mem_unbracketed ((perm_unbracketed horder).mem_iff.1 hy)
  have hbacked : Backed (fun y => StandsAt pattern.toList y.pos '(') (us ++ x :: vs).reverse := by
    refine backed_of_reversePolish (ne_concat_of_scan hscan) (fun y hy hparen => ?_) horder
    have hstands := standsAt_of_ofPattern hscan y hy
    rwa [hparen] at hstands
  rw [List.reverse_append, List.reverse_cons, List.append_assoc, List.singleton_append] at hbacked
  rcases hbacked.of_append.1 hx with hparen | hends
  · exact hparen
  · rw [← us.reverse_reverse] at hstack
    have htwo := Evaluation.two_le_length (fun y hy => ?_) hends hstack
    · omega
    · exact hbracket y (List.mem_append_left _ (List.mem_reverse.1 hy))

/-- A text that is refused because an operator lacks an operand is refused for a
`|`, `*` or `+` at its place, or for the concatenation of a group with what
stands right in front of it. -/
theorem compile_missingOperand {pos : Nat} {op : Char}
    (h : compile limit pattern = .error (.malformed (.missingOperand pos op))) :
    op ∈ ['|', '*', '+'] ∧ StandsAt pattern.toList pos op ∨
      op = '.' ∧ ∃ pre d post, pattern.toList = pre ++ d :: '(' :: post ∧ d ∉ ['(', '|'] ∧
        byteLength (pre ++ [d]) = pos := by
  rw [compile] at h
  cases hys : inReversePolish pattern with
  | error e =>
      rw [hys] at h
      obtain rfl := Except.error.inj h
      exact (failsOnly_inReversePolish pattern _ hys).elim
  | ok ys =>
      rw [hys] at h
      cases Evaluation.stopped_of_evaluate h with
      | finish _ hfault =>
          cases hfault with
          | refused hrefusal => cases hrefusal
      | @step us vs x stack hsplit hstack hfault =>
          subst hsplit
          have hlocated := located_of_inReversePolish hys x (by simp)
          cases hfault with
          | refused hrefusal => cases hrefusal
          | starved hlt =>
              cases htoken : x.token with
              | concat =>
                  rw [htoken] at hlt
                  exact .inr ⟨rfl, hlocated.group htoken
                    (standsAt_of_starved hys hstack htoken hlt)⟩
              | union | star | plus =>
                  have hstands := hlocated.standsAt (by simp [htoken])
                  rw [htoken] at hstands
                  exact .inl ⟨by simp [Token.glyph], hstands⟩
              | symbol | emptyGroup | leftParen | rightParen => simp [htoken, Token.arity] at hlt

/-- The repetition in the second group takes what stands in front of that group. -/
theorem compile_missingOperand_group :
    ∃ pos op, compile none "é(a)(*b)" = .error (.malformed (.missingOperand pos op)) ∧
      ∃ pre d post, "é(a)(*b)".toList = pre ++ d :: '(' :: post ∧ d ∉ ['(', '|'] ∧
        byteLength (pre ++ [d]) = pos := by
  have herror : compile none "é(a)(*b)" = .error (.malformed (.missingOperand 5 '.')) := by
    decide +kernel
  rcases compile_missingOperand herror with ⟨hop, -⟩ | ⟨-, hgroup⟩
  · exact absurd hop (by decide)
  · exact ⟨5, '.', herror, hgroup⟩

/-- The error names an operator that is not written, at the offset of a bracket. -/
theorem not_standsAt_of_missingOperand :
    compile .standard "a(*b)" = .error (.malformed (.missingOperand 1 '.')) ∧
      '.' ∉ ['|', '*', '+'] ∧ ¬ StandsAt "a(*b)".toList 1 '.' := by
  refine ⟨by decide +kernel, by decide, fun hstands => ?_⟩
  have hparen : StandsAt "a(*b)".toList 1 '(' := ⟨['a'], ['*', 'b', ')'], rfl, rfl⟩
  exact absurd (hstands.unique hparen) (by decide)

end Pattern

end PatternAutomata
