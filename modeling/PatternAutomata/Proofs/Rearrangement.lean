import PatternAutomata.Proofs.BackedConcats

/-!
# Operands keep their order, operators wait in a ladder

What `Conservation` leaves open about putting lexemes in order. It says which
lexemes come out; here it is said that the operands among them come out in the
order in which they came in, and how the operators wait meanwhile. Both hold on
any lexemes, grammatical or not.

The two belong together. An operand never waits, so only operators and opening
brackets can be released, and releasing them does not disturb the order of the
operands. And since an operator releases all that bind at least as tightly, the
operators above a bracket stand like the rungs of a ladder, each one tighter
than the one below. A closing bracket lays the rungs below its group open
again, so `Ladder` is about those below every bracket and not the topmost alone.
-/

namespace PatternAutomata.ReversePolish

/-- What waits, with the last lexeme first: operators and opening brackets, and
above each bracket and above the bottom the operators bind more tightly the
further up they stand. -/
structure Ladder (waiting : List Lexeme) : Prop where
  precedence_le : ∀ y ∈ waiting, y.token ≠ .leftParen → 2 ≤ y.token.precedence
  ascending : ∀ us, us <:+ waiting → (us.takeWhile (·.token ≠ .leftParen)).Pairwise
    fun y z => z.token.precedence < y.token.precedence

variable {p q : Progress} {x y : Lexeme} {xs ys us waiting : List Lexeme}

/-! ## Ladders -/

namespace Ladder

theorem nil : Ladder [] where
  precedence_le := by simp
  ascending us h := by simp [List.suffix_nil.1 h]

theorem suffix (h : Ladder waiting) (hus : us <:+ waiting) : Ladder us where
  precedence_le y hy := h.precedence_le y (hus.subset hy)
  ascending ws hws := h.ascending ws (hws.trans hus)

theorem bracket (hx : x.token = .leftParen) (h : Ladder waiting) : Ladder (x :: waiting) where
  precedence_le := List.forall_mem_cons.2 ⟨fun hne => absurd hx hne, h.precedence_le⟩
  ascending us hus := by
    rcases List.suffix_cons_iff.1 hus with rfl | hus
    · rw [List.takeWhile_cons_of_neg (by simp [hx])]
      exact .nil
    · exact h.ascending us hus

/-- An operator on top of a ladder binds more tightly than all those down to the next
bracket if it does so with the first of them. -/
theorem precedence_lt (h : Ladder waiting)
    (hhead : ∀ y ∈ waiting.head?, y.token.precedence < x.token.precedence) :
    ∀ y ∈ waiting.takeWhile (·.token ≠ .leftParen), y.token.precedence < x.token.precedence := by
  cases waiting with
  | nil => simp
  | cons z waiting =>
      have hz : z.token.precedence < x.token.precedence := hhead z rfl
      have hascending := h.ascending _ List.suffix_rfl
      by_cases hbracket : z.token = .leftParen
      · rw [List.takeWhile_cons_of_neg (by simp [hbracket])]
        simp
      · rw [List.takeWhile_cons_of_pos (by simpa using hbracket)] at hascending ⊢
        rw [List.pairwise_cons] at hascending
        exact List.forall_mem_cons.2 ⟨hz, fun y hy => Nat.lt_trans (hascending.1 y hy) hz⟩

theorem operator (hx : 2 ≤ x.token.precedence) (h : Ladder waiting)
    (hhead : ∀ y ∈ waiting.head?, y.token.precedence < x.token.precedence) :
    Ladder (x :: waiting) where
  precedence_le := List.forall_mem_cons.2 ⟨fun _ => hx, h.precedence_le⟩
  ascending us hus := by
    rcases List.suffix_cons_iff.1 hus with rfl | hus
    · rw [List.takeWhile_cons_of_pos (by simpa using Token.ne_leftParen_of_precedence hx)]
      exact .cons (h.precedence_lt hhead) (h.ascending waiting List.suffix_rfl)
    · exact h.ascending us hus

theorem not_isOperand (h : Ladder waiting) (hy : y ∈ waiting) : y.token.isOperand = false := by
  by_cases hbracket : y.token = .leftParen
  · rw [hbracket]
    rfl
  · have hle := h.precedence_le y hy hbracket
    exact Token.not_isOperand_of_precedence (by omega)

end Ladder

theorem Stepped.ladder (h : Stepped p x q) (hp : Ladder p.waiting) : Ladder q.waiting := by
  cases h with
  | operand _ _ hwait => exact hwait ▸ hp
  | opening hx _ hwait => exact hwait ▸ hp.bracket hx
  | @closing inner bracket _ _ _ hwait _ =>
      exact hp.suffix ⟨inner ++ [bracket], by rw [hwait, List.append_assoc]; rfl⟩
  | @operator tighter others hx hwait _ hhead _ hwait' =>
      rw [hwait']
      exact .operator hx (hp.suffix ⟨tighter, hwait.symm⟩) hhead

theorem ladder_of_foldlM (hp : Ladder p.waiting) (h : xs.foldlM step p = .ok q) :
    Ladder q.waiting :=
  holds_of_foldlM (P := fun p => Ladder p.waiting)
    (fun _ _ _ _ hc hstep => (stepped_of_step hstep).1.ladder hc) hp h

/-! ## The order of the operands -/

def operandsOf (xs : List Lexeme) : List Lexeme :=
  xs.filter (·.token.isOperand)

theorem operandsOf_append (xs ys : List Lexeme) :
    operandsOf (xs ++ ys) = operandsOf xs ++ operandsOf ys :=
  List.filter_append ..

theorem operandsOf_eq_nil (h : ∀ y ∈ xs, y.token.isOperand = false) : operandsOf xs = [] := by
  rw [operandsOf, List.filter_eq_nil_iff]
  intro y hy
  simp [h y hy]

/-- A step puts the operand that comes in behind those that came out before. -/
theorem Stepped.operandsOf_output (h : Stepped p x q) (hp : Ladder p.waiting) :
    operandsOf q.output.toList =
      operandsOf p.output.toList ++ operandsOf (x.yield p.previous) := by
  cases h with
  | operand hx hout _ =>
      rw [hout, operandsOf_append, Lexeme.yield_of_not_isBracket (Token.isBracket_of_isOperand hx)]
  | opening hx hout _ => simp [hout, Lexeme.yield, hx, operandsOf]
  | @closing inner bracket _ _ _ hwait hout =>
      have hinner : operandsOf inner = [] :=
        operandsOf_eq_nil fun y hy => hp.not_isOperand (hwait ▸ List.mem_append_left _ hy)
      rw [hout, operandsOf_append, operandsOf_append, hinner, List.append_nil]
  | @operator tighter others hx hwait _ _ hout _ =>
      have htighter : operandsOf tighter = [] :=
        operandsOf_eq_nil fun y hy => hp.not_isOperand (hwait ▸ List.mem_append_left _ hy)
      have hnone : operandsOf [x] = [] :=
        operandsOf_eq_nil (List.forall_mem_singleton.2
          (Token.not_isOperand_of_precedence (by omega)))
      rw [hout, operandsOf_append, htighter,
        Lexeme.yield_of_not_isBracket (Token.isBracket_of_precedence hx), hnone]

theorem operandsOf_output_of_foldlM (hp : Ladder p.waiting) (h : xs.foldlM step p = .ok q) :
    operandsOf q.output.toList =
      operandsOf p.output.toList ++ operandsOf (Lexeme.unbracketed p.previous xs) := by
  induction xs generalizing p with
  | nil =>
      obtain rfl := pure_eq_ok.1 h
      exact (List.append_nil _).symm
  | cons x xs ih =>
      obtain ⟨r, hr, hrest⟩ := foldlM_cons_eq_ok.1 h
      obtain ⟨hstepped, hprevious⟩ := stepped_of_step hr
      rw [ih (hstepped.ladder hp) hrest, hstepped.operandsOf_output hp, hprevious,
        Lexeme.unbracketed, operandsOf_append, List.append_assoc]

theorem operandsOf_kept (hp : Ladder p.waiting) :
    operandsOf p.kept = operandsOf p.output.toList := by
  have hwaiting : operandsOf (p.waiting.filter (·.token ≠ .leftParen)) = [] :=
    operandsOf_eq_nil fun y hy => hp.not_isOperand (List.mem_of_mem_filter hy)
  rw [Progress.kept, operandsOf_append, hwaiting, List.append_nil]

/-- Putting lexemes in order succeeds with the lexemes themselves in another
order, apart from brackets: none comes out, and a pair of them with nothing in
between comes out as an empty group. Symbols and empty groups keep their order.
On the way, behind every lexeme, the operators that wait form a ladder. -/
theorem reversePolish_conserves (h : Lexeme.reversePolish xs = .ok ys) :
    ys.Perm (Lexeme.unbracketed none xs) ∧
    (∀ y ∈ ys, y.token ≠ .leftParen ∧ y.token ≠ .rightParen) ∧
    operandsOf ys = operandsOf (Lexeme.unbracketed none xs) ∧
    ∀ us vs, us ++ vs = xs → ∃ p, us.foldlM step {} = .ok p ∧ Ladder p.waiting := by
  have hperm := Lexeme.perm_unbracketed h
  obtain ⟨q, hrun, hfinish⟩ := bind_eq_ok.1 h
  refine ⟨hperm, fun y hy => ?_, ?_, fun us vs heq => ?_⟩
  · have hbracket := Lexeme.isBracket_of_mem_unbracketed (hperm.mem_iff.1 hy)
    constructor <;>
      · intro htoken
        rw [htoken] at hbracket
        cases hbracket
  · rw [(finish_eq_ok hfinish).1, operandsOf_kept (ladder_of_foldlM .nil hrun),
      operandsOf_output_of_foldlM .nil hrun]
    rfl
  · rw [← heq, List.foldlM_append] at hrun
    obtain ⟨p, hp, -⟩ := bind_eq_ok.1 hrun
    exact ⟨p, hp, ladder_of_foldlM .nil hp⟩

/-- Lexemes without any grammar to them: a repetition and an alternative of
nothing, and an empty group inside the alternative's. -/
theorem reversePolish_conserves_ungrammatical :
    let xs : List Lexeme := [⟨0, .star⟩, ⟨1, .leftParen⟩, ⟨2, .union⟩, ⟨3, .leftParen⟩,
      ⟨4, .rightParen⟩, ⟨5, .rightParen⟩, ⟨6, .symbol 'a'⟩]
    let ys : List Lexeme := [⟨4, .emptyGroup⟩, ⟨2, .union⟩, ⟨6, .symbol 'a'⟩, ⟨0, .star⟩]
    Lexeme.reversePolish xs = .ok ys ∧
      ys.Perm (Lexeme.unbracketed none xs) ∧
      (∀ y ∈ ys, y.token ≠ .leftParen ∧ y.token ≠ .rightParen) ∧
      operandsOf ys = operandsOf (Lexeme.unbracketed none xs) ∧
      ∀ us vs, us ++ vs = xs → ∃ p, us.foldlM step {} = .ok p ∧ Ladder p.waiting := by
  intro xs ys
  have h : Lexeme.reversePolish xs = .ok ys := rfl
  exact ⟨h, reversePolish_conserves h⟩

end PatternAutomata.ReversePolish
