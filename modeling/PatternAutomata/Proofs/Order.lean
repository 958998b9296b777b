import PatternAutomata.Pattern.Compile
import PatternAutomata.Proofs.Conservation
import PatternAutomata.Proofs.Lexemes

/-!
# Operators come out behind their operands

Putting the lexemes of a tree in order gives the tree in postorder. The parts
of a tree are put in order one after the other, on a stack where the operators
of the parts around them wait, and what a part does there is the same for all
of them (`Adds`): the operators that it leaves waiting on top, taken together
with what has come out, are its postorder, and they bind at least as tightly
as its level does.

So the next operator of the same level releases them. It releases nothing
else, since what waits below binds less tightly: either it is an operator that
the part is an operand of, or it is the bracket of a group.
-/

namespace PatternAutomata

def Level.tightness : Level → Nat
  | atom => 5
  | repetition => 4
  | sequence => 3
  | alternatives => 2

namespace ReversePolish

variable {p q : Progress} {x : Lexeme} {xs ys below pending : List Lexeme} {level : Level}
  {t : Tree}

theorem takeWhile_dropWhile_append (pending below : List Lexeme) {P : Lexeme → Bool}
    (hpending : ∀ y ∈ pending, P y = true) (hbelow : ∀ y ∈ below.head?, P y = false) :
    (pending ++ below).takeWhile P = pending ∧ (pending ++ below).dropWhile P = below := by
  rw [List.takeWhile_append_of_pos hpending, List.dropWhile_append_of_pos hpending]
  cases below with
  | nil => simp
  | cons y below => simp [hbelow y rfl]

/-- An operator releases those that bind at least as tightly. -/
theorem step_operator (hx : 2 ≤ x.token.precedence) (hwaiting : p.waiting = pending ++ below)
    (hpending : ∀ y ∈ pending, x.token.precedence ≤ y.token.precedence)
    (hbelow : ∀ y ∈ below.head?, y.token.precedence < x.token.precedence) :
    step p x = .ok ⟨p.output ++ pending, x :: below, x.token⟩ := by
  have hstep : step p x = .ok
      ⟨p.output ++ p.waiting.takeWhile (x.token.precedence ≤ ·.token.precedence),
        x :: p.waiting.dropWhile (x.token.precedence ≤ ·.token.precedence), x.token⟩ := by
    rw [step]
    split <;> simp_all [Token.precedence]
  have hsplit := takeWhile_dropWhile_append pending below
    (P := fun y => decide (x.token.precedence ≤ y.token.precedence)) (by simpa using hpending)
    (by simpa using hbelow)
  rw [hstep, hwaiting, hsplit.1, hsplit.2]

/-- A closing bracket releases the operators of its group. -/
theorem step_rightParen (pos : Nat) {bracket : Lexeme} (hbracket : bracket.token = .leftParen)
    (hwaiting : p.waiting = pending ++ bracket :: below)
    (hpending : ∀ y ∈ pending, 2 ≤ y.token.precedence) (hprevious : p.previous ≠ some .leftParen) :
    step p ⟨pos, .rightParen⟩ = .ok ⟨p.output ++ pending, below, some .rightParen⟩ := by
  have hsplit := takeWhile_dropWhile_append pending (bracket :: below)
    (P := fun y => decide (y.token ≠ .leftParen)) ?_ (by simp [hbracket])
  · simp only [step, hwaiting, hsplit.1, hsplit.2, if_neg hprevious]
  · exact fun y hy => decide_eq_true (Token.ne_leftParen_of_precedence (hpending y hy))

/-- What a part of a pattern does to the progress. -/
structure Adds (level : Level) (t : Tree) (p q : Progress) (pending : List Lexeme) : Prop where
  waiting_eq : q.waiting = pending ++ p.waiting
  output_eq : q.output.toList ++ pending = p.output.toList ++ t.postorder
  tightness_le : ∀ y ∈ pending, level.tightness ≤ y.token.precedence
  previous_ne : q.previous ≠ some .leftParen

/-- Lexemes that can be put in order wherever what waits binds less tightly than
the level, and add a tree then. -/
def Orders (level : Level) (xs : List Lexeme) (t : Tree) : Prop :=
  ∀ p : Progress, (∀ y ∈ p.waiting.head?, y.token.precedence < level.tightness) →
    ∃ q pending, xs.foldlM step p = .ok q ∧ Adds level t p q pending

namespace Orders

theorem symbol {pos : Nat} {c : Char} : Orders .atom [⟨pos, .symbol c⟩] (.symbol pos c) := by
  intro p _
  refine ⟨_, [], foldlM_cons_of_ok rfl rfl, rfl, ?_, by simp, by simp⟩
  simp [Tree.postorder]

theorem emptyGroup {pos pos' : Nat} :
    Orders .atom [⟨pos, .leftParen⟩, ⟨pos', .rightParen⟩] (.emptyGroup pos') := by
  intro p _
  refine ⟨_, [], foldlM_cons_of_ok rfl (foldlM_cons_of_ok rfl rfl), rfl, ?_, by simp, by simp⟩
  simp [Tree.postorder]

theorem group {pos pos' : Nat} (h : Orders .alternatives xs t) :
    Orders .atom (⟨pos, .leftParen⟩ :: xs ++ [⟨pos', .rightParen⟩]) t := by
  intro p _
  obtain ⟨q, pending, hrun, hq⟩ :=
    h ⟨p.output, ⟨pos, .leftParen⟩ :: p.waiting, some .leftParen⟩ (by simp [Token.precedence,
      Level.tightness])
  have hclose := step_rightParen pos' rfl hq.waiting_eq hq.tightness_le hq.previous_ne
  refine ⟨_, [], foldlM_cons_of_ok rfl (foldlM_append_of_ok hrun (foldlM_cons_of_ok hclose rfl)),
    rfl, ?_, by simp, by simp⟩
  simpa using hq.output_eq

/-- What hangs together tightly hangs together loosely. -/
theorem mono {inner : Level} (hle : level.tightness ≤ inner.tightness)
    (h : Orders inner xs t) : Orders level xs t := by
  intro p hp
  obtain ⟨q, pending, hrun, hq⟩ := h p fun y hy => Nat.lt_of_lt_of_le (hp y hy) hle
  exact ⟨q, pending, hrun, hq.waiting_eq, hq.output_eq,
    fun y hy => Nat.le_trans hle (hq.tightness_le y hy), hq.previous_ne⟩

theorem unary {t' : Tree} (hx : x.token.precedence = Level.repetition.tightness)
    (hpost : t'.postorder = t.postorder ++ [x]) (h : Orders .repetition xs t) :
    Orders .repetition (xs ++ [x]) t' := by
  intro p hp
  obtain ⟨q, pending, hrun, hq⟩ := h p hp
  have hstep := step_operator (x := x) (by rw [hx, Level.tightness]; omega) hq.waiting_eq
    (hx ▸ hq.tightness_le) (hx ▸ hp)
  refine ⟨_, [x], foldlM_append_of_ok hrun (foldlM_cons_of_ok hstep rfl), rfl, ?_, ?_, ?_⟩
  · rw [hpost, Array.toList_appendList, hq.output_eq, List.append_assoc]
  · simp [hx]
  · intro heq
    rw [Option.some.injEq] at heq
    rw [heq] at hx
    simp [Token.precedence, Level.tightness] at hx

/-- An operator between two operands, of which the second one hangs together
more tightly. -/
theorem binary {inner : Level} {l r : Tree} (hx : x.token.precedence = level.tightness)
    (hlt : level.tightness < inner.tightness)
    (hpost : t.postorder = l.postorder ++ r.postorder ++ [x]) (hl : Orders level xs l)
    (hr : Orders inner ys r) : Orders level (xs ++ x :: ys) t := by
  intro p hp
  obtain ⟨q, left, hrun, hq⟩ := hl p hp
  have hstep := step_operator (x := x) (by rw [hx]; cases level <;> decide) hq.waiting_eq
    (hx ▸ hq.tightness_le) (hx ▸ hp)
  obtain ⟨o, right, hrun', ho⟩ := hr ⟨q.output ++ left, x :: p.waiting, x.token⟩ (by simpa [hx])
  refine ⟨o, right ++ [x], foldlM_append_of_ok hrun (foldlM_cons_of_ok hstep hrun'), ?_, ?_, ?_,
    ho.previous_ne⟩
  · rw [ho.waiting_eq, List.append_assoc]
    rfl
  · rw [hpost, ← List.append_assoc, ho.output_eq, Array.toList_appendList, hq.output_eq]
    simp only [List.append_assoc]
  · intro y hy
    rcases List.mem_append.1 hy with hy | hy
    · exact Nat.le_trans (Nat.le_of_lt hlt) (ho.tightness_le y hy)
    · rw [List.mem_singleton.1 hy, hx]

end Orders

end ReversePolish

open ReversePolish

theorem Spells.orders {level : Level} {xs : List Lexeme} {t : Tree} (h : Spells level xs t) :
    Orders level xs t := by
  induction h with
  | symbol => exact .symbol
  | emptyGroup => exact .emptyGroup
  | group _ ih => exact .group ih
  | atom _ ih => exact .mono (by decide) ih
  | star _ ih => exact .unary rfl rfl ih
  | plus _ ih => exact .unary rfl rfl ih
  | repetition _ ih => exact .mono (by decide) ih
  | concat _ _ ihl ihr => exact .binary rfl (by decide) rfl ihl ihr
  | sequence _ ih => exact .mono (by decide) ih
  | union _ _ ihl ihr => exact .binary rfl (by decide) rfl ihl ihr

/-- The lexemes of a tree in reverse Polish order are its postorder. -/
theorem Spells.reversePolish_eq {xs : List Lexeme} {t : Tree} (h : Spells .alternatives xs t) :
    Lexeme.reversePolish xs = .ok t.postorder := by
  obtain ⟨q, pending, hrun, hq⟩ := h.orders {} (by simp)
  have hwaiting : q.waiting = pending := by rw [hq.waiting_eq, List.append_nil]
  have hfind : q.waiting.find? (·.token = .leftParen) = none := by
    rw [List.find?_eq_none, hwaiting]
    intro y hy heq
    exact Token.ne_leftParen_of_precedence (hq.tightness_le y hy) (of_decide_eq_true heq)
  rw [Lexeme.reversePolish, hrun]
  show finish q = _
  rw [finish, hfind, hwaiting]
  show Except.ok (q.output ++ pending).toList = _
  rw [Array.toList_appendList, hq.output_eq]
  rfl

theorem Derives.Whole.inReversePolish_eq {pattern : String} {t : Tree}
    (h : Derives.Whole pattern t) : Pattern.inReversePolish pattern = .ok t.postorder := by
  obtain ⟨xs, hscan, hspells, -⟩ := h.exists_lexemes
  rw [Pattern.inReversePolish, Lexeme.ofPattern, hscan]
  show (Lexeme.reversePolish _).mapError _ = _
  rw [hspells.reversePolish_eq]
  rfl

end PatternAutomata
