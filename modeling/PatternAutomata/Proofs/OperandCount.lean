import PatternAutomata.Pattern.Compile
import PatternAutomata.Proofs.Conservation
import PatternAutomata.Proofs.Lexemes
import PatternAutomata.Proofs.Reductions

/-!
# Counting operands

Putting lexemes in order and evaluating them looks at no operand as a whole:
an operator that lacks one may take an operand from outside its group. What
cannot be deceived is the number of operands. Every operand adds one value to
the stack, every operator between two operands takes one away, and neither
brackets nor repetitions change the number.

In a text, the places where an operand has to begin and none does are its
`faults`. Operands, operators and the concatenations that are put in between
balance up to these (`operands_add_faults`): each fault leaves the stack one
value short of the single one that a pattern has to end with.
-/

namespace PatternAutomata

/-- An operand has to begin behind the first token, but not with the second. -/
def Token.clashes (prev t : Token) : Bool :=
  !prev.closesOperand && !t.opensOperand && !(prev = .leftParen && t = .rightParen)

namespace Lexeme

variable {x : Lexeme} {xs ys : List Lexeme} {prev : Token}

/-- The number of places where an operand is missing behind the token. -/
def faults (prev : Token) : List Lexeme → Nat
  | [] => (!prev.closesOperand).toNat
  | x :: rest => (prev.clashes x.token).toNat + faults x.token rest

def operands (xs : List Lexeme) : Nat :=
  xs.countP (·.token.isOperand)

def binaries (xs : List Lexeme) : Nat :=
  xs.countP (·.token.isBinary)

@[simp] theorem operands_nil : operands [] = 0 := rfl

@[simp] theorem binaries_nil : binaries [] = 0 := rfl

@[simp] theorem operands_append (xs ys : List Lexeme) :
    operands (xs ++ ys) = operands xs + operands ys :=
  List.countP_append

@[simp] theorem binaries_append (xs ys : List Lexeme) :
    binaries (xs ++ ys) = binaries xs + binaries ys :=
  List.countP_append

theorem countP_token_cons (p : Token → Bool) (x : Lexeme) (xs : List Lexeme) :
    (x :: xs).countP (p ·.token) = xs.countP (p ·.token) + (p x.token).toNat := by
  rw [List.countP_cons]
  cases p x.token <;> rfl

theorem operands_cons (x : Lexeme) (xs : List Lexeme) :
    operands (x :: xs) = operands xs + x.token.isOperand.toNat :=
  countP_token_cons Token.isOperand x xs

theorem binaries_cons (x : Lexeme) (xs : List Lexeme) :
    binaries (x :: xs) = binaries xs + x.token.isBinary.toNat :=
  countP_token_cons Token.isBinary x xs

/-- Behind a place where nothing is missing a lexeme that opens an operand
supplies it, or has it begin right behind. -/
theorem balance_of_opens (hx : x.token ≠ .concat) (hopens : x.token.opensOperand = true)
    (prev : Option Token) :
    operands (x.yield prev) + (!x.token.closesOperand).toNat = binaries (x.yield prev) + 1 := by
  obtain ⟨pos, token⟩ := x
  cases token with
  | symbol c => rfl
  | emptyGroup => rfl
  | leftParen => rfl
  | concat => exact absurd rfl hx
  | union | star | plus | rightParen => exact Bool.noConfusion hopens

theorem balance_of_not_opens (hopens : x.token.opensOperand = false) (prev : Token) :
    operands (x.yield prev) + (prev.clashes x.token).toNat + (!x.token.closesOperand).toNat =
      binaries (x.yield prev) + (!prev.closesOperand).toNat := by
  obtain ⟨pos, token⟩ := x
  cases token with
  | symbol | emptyGroup | concat | leftParen => exact Bool.noConfusion hopens
  | union | star | plus | rightParen => cases prev <;> rfl

/-- Operands and faults balance the operators between operands, the
concatenations that were put in included. -/
theorem operands_add_faults (hxs : ∀ x ∈ xs, x.token ≠ .concat) (prev : Token) :
    operands (unbracketed (some prev) (insertConcatsAfter prev xs)) + faults prev xs =
      binaries (unbracketed (some prev) (insertConcatsAfter prev xs)) +
        (!prev.closesOperand).toNat := by
  induction xs generalizing prev with
  | nil => simp [insertConcatsAfter, unbracketed, faults]
  | cons x xs ih =>
      rw [List.forall_mem_cons] at hxs
      have hrest := ih hxs.2 x.token
      rw [insertConcatsAfter, faults]
      cases hopens : x.token.opensOperand with
      | false =>
          have hbalance := balance_of_not_opens hopens prev
          rw [Bool.and_false, if_neg (by simp), unbracketed, operands_append, binaries_append]
          omega
      | true =>
          have hclash : prev.clashes x.token = false := by simp [Token.clashes, hopens]
          cases hcloses : prev.closesOperand with
          | false =>
              have hbalance := balance_of_opens hxs.1 hopens (some prev)
              rw [Bool.false_and, if_neg (by simp), unbracketed, operands_append, binaries_append,
                hclash]
              simp only [Bool.not_false, Bool.toNat_true, Bool.toNat_false]
              omega
          | true =>
              have hbalance := balance_of_opens hxs.1 hopens (some .concat)
              have hoperands : operands [(⟨x.pos, .concat⟩ : Lexeme)] = 0 := rfl
              have hbinaries : binaries [(⟨x.pos, .concat⟩ : Lexeme)] = 1 := rfl
              rw [Bool.true_and, if_pos rfl, unbracketed, unbracketed,
                yield_of_not_isBracket rfl, operands_append, binaries_append, operands_append,
                binaries_append, hclash]
              simp only [Bool.not_true, Bool.toNat_false]
              omega

theorem isBracket_of_mem_unbracketed {prev : Option Token} (hx : x ∈ unbracketed prev xs) :
    x.token.isBracket = false := by
  induction xs generalizing prev with
  | nil => simp [unbracketed] at hx
  | cons y xs ih =>
      rw [unbracketed, List.mem_append] at hx
      rcases hx with hx | hx
      · obtain ⟨pos, token⟩ := y
        cases token <;> simp_all [yield, Token.isBracket]
      · exact ih hx

end Lexeme

/-! ## The stack -/

namespace Evaluation

open Lexeme

variable {limit : SizeLimit} {x : Lexeme} {xs : List Lexeme} {stack later : List Operand}

theorem length_of_reduced {t : Token} (h : Reduced t stack later) :
    later.length + t.isBinary.toNat = stack.length + t.isOperand.toNat := by
  cases h <;> rfl

theorem length_of_foldlM (h : xs.foldlM (step limit) stack = .ok later) :
    later.length + binaries xs = stack.length + Lexeme.operands xs := by
  induction xs generalizing stack with
  | nil =>
      obtain rfl := pure_eq_ok.1 h
      rfl
  | cons x xs ih =>
      obtain ⟨between, hbetween, hrest⟩ := foldlM_cons_eq_ok.1 h
      have hfirst := length_of_reduced (reduced_of_step hbetween)
      have hlater := ih hrest
      rw [binaries_cons, operands_cons]
      omega

theorem ne_nil_of_reduced {t : Token} (ht : t.isBracket = false) (h : Reduced t stack later) :
    later ≠ [] := by
  cases h with
  | leftParen => exact absurd ht (by decide)
  | rightParen => exact absurd ht (by decide)
  | _ => exact List.cons_ne_nil _ _

theorem ne_nil_of_foldlM (hxs : xs ≠ []) (hbracket : ∀ x ∈ xs, x.token.isBracket = false)
    (h : xs.foldlM (step limit) stack = .ok later) : later ≠ [] := by
  obtain ⟨x, rest, rfl⟩ := List.exists_cons_of_ne_nil hxs
  obtain ⟨between, hbetween, hrest⟩ := foldlM_cons_eq_ok.1 h
  refine holds_of_foldlM (P := fun stack => stack ≠ []) (fun y hy c d _ hd => ?_)
    (ne_nil_of_reduced (hbracket x List.mem_cons_self) (reduced_of_step hbetween)) hrest
  exact ne_nil_of_reduced (hbracket y (List.mem_cons_of_mem _ hy)) (reduced_of_step hd)

end Evaluation

/-! ## Both together -/

namespace Lexeme

theorem unbracketed_none (xs : List Lexeme) :
    unbracketed none xs = unbracketed (some .union) xs := by
  cases xs with
  | nil => rfl
  | cons x xs => rw [unbracketed, unbracketed, yield, yield, if_neg (by simp), if_neg (by simp)]

variable {limit : SizeLimit} {xs ys : List Lexeme} {stack : List Operand}

/-- What is left on the stack and what was missing make one value. -/
theorem length_add_faults (hxs : ∀ x ∈ xs, x.token ≠ .concat)
    (hys : reversePolish (insertConcats xs) = .ok ys)
    (hstack : ys.foldlM (Evaluation.step limit) [] = .ok stack) :
    stack.length + faults .union xs = 1 := by
  have hperm := perm_unbracketed hys
  rw [unbracketed_none, ← insertConcatsAfter_union] at hperm
  have hlength := Evaluation.length_of_foldlM hstack
  have hbalance := operands_add_faults hxs .union
  have hoperands : operands ys = _ := hperm.countP_eq _
  have hbinaries : binaries ys = _ := hperm.countP_eq _
  rw [hoperands, hbinaries] at hlength
  rw [List.length_nil] at hlength
  simp only [operands, binaries] at hbalance hlength
  have hneeds : (!Token.union.closesOperand).toNat = 1 := rfl
  omega

theorem faults_eq_zero (hne : xs ≠ []) (hxs : ∀ x ∈ xs, x.token ≠ .concat)
    (hys : reversePolish (insertConcats xs) = .ok ys)
    (hstack : ys.foldlM (Evaluation.step limit) [] = .ok stack) : faults .union xs = 0 := by
  have hsum := length_add_faults hxs hys hstack
  have hsome : insertConcats xs ≠ [] := by
    obtain ⟨x, rest, rfl⟩ := List.exists_cons_of_ne_nil hne
    rw [insertConcats_cons]
    exact List.cons_ne_nil _ _
  have hstack_ne := Evaluation.ne_nil_of_foldlM (ne_nil_of_reversePolish hys hsome)
    (fun x hx => isBracket_of_mem_unbracketed ((perm_unbracketed hys).mem_iff.1 hx)) hstack
  have hlength := List.length_pos_of_ne_nil hstack_ne
  omega

end Lexeme

end PatternAutomata
