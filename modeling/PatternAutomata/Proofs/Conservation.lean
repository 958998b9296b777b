import Mathlib.Data.List.TakeWhile
import PatternAutomata.Pattern.ReversePolish
import PatternAutomata.Proofs.Results

/-!
# Putting lexemes in order loses nothing

On any lexemes, grammatical or not, what goes in comes out once, in the output
or out of the operators that wait. Brackets are the exception: they do not come
out, but a pair of brackets with nothing in between comes out as an empty group
(`perm_unbracketed`). The brackets that wait are those of the groups that are
open at the moment, so the brackets of lexemes that can be put in order match
(`nesting_of_reversePolish`).

All of it rests on what a single step does, and `Stepped` is the list of that.
-/

namespace PatternAutomata

def Token.isOperand : Token → Bool
  | symbol _ | emptyGroup => true
  | _ => false

def Token.isBinary : Token → Bool
  | concat | union => true
  | _ => false

def Token.isBracket : Token → Bool
  | leftParen | rightParen => true
  | _ => false

theorem Token.isBracket_of_isOperand {t : Token} (h : t.isOperand = true) :
    t.isBracket = false := by
  cases t with
  | symbol c => rfl
  | emptyGroup => rfl
  | _ => exact absurd h (by decide)

theorem Token.isBracket_of_precedence {t : Token} (h : 2 ≤ t.precedence) :
    t.isBracket = false := by
  cases t <;> simp_all [precedence, isBracket]

theorem Token.ne_leftParen_of_precedence {t : Token} (h : 2 ≤ t.precedence) : t ≠ .leftParen := by
  intro ht
  rw [ht] at h
  exact absurd h (by decide)

namespace Lexeme

/-- What comes out for a lexeme, given the token before it. -/
def yield (prev : Option Token) (x : Lexeme) : List Lexeme :=
  match x.token with
  | .leftParen => []
  | .rightParen => if prev = some .leftParen then [⟨x.pos, .emptyGroup⟩] else []
  | _ => [x]

theorem yield_of_not_isBracket {prev : Option Token} {x : Lexeme}
    (h : x.token.isBracket = false) : x.yield prev = [x] := by
  rw [yield]
  split <;> simp_all [Token.isBracket]

/-- The lexemes with empty groups for the pairs of brackets that hold nothing,
and without any other bracket. -/
def unbracketed (prev : Option Token) : List Lexeme → List Lexeme
  | [] => []
  | x :: rest => x.yield prev ++ unbracketed x.token rest

/-- How many groups are open behind the lexemes, if no bracket closes a group
that is not open. -/
def nesting (depth : Nat) : List Lexeme → Option Nat
  | [] => some depth
  | x :: rest =>
      if x.token = .leftParen then nesting (depth + 1) rest
      else if x.token = .rightParen then
        if depth = 0 then none else nesting (depth - 1) rest
      else nesting depth rest

theorem nesting_cons_of_not_isBracket {x : Lexeme} (h : x.token.isBracket = false)
    (depth : Nat) (xs : List Lexeme) : nesting depth (x :: xs) = nesting depth xs := by
  rw [nesting]
  split
  · simp_all [Token.isBracket]
  · split
    · simp_all [Token.isBracket]
    · rfl

end Lexeme

namespace ReversePolish

variable {p q : Progress} {x : Lexeme} {xs ys : List Lexeme}

/-- What taking a lexeme does, case by case. -/
inductive Stepped (p : Progress) (x : Lexeme) (q : Progress) : Prop
  | operand : x.token.isOperand = true → q.output.toList = p.output.toList ++ [x] →
      q.waiting = p.waiting → Stepped p x q
  | opening : x.token = .leftParen → q.output = p.output → q.waiting = x :: p.waiting →
      Stepped p x q
  | closing {inner : List Lexeme} {bracket : Lexeme} : x.token = .rightParen →
      bracket.token = .leftParen → (∀ y ∈ inner, y.token ≠ .leftParen) →
      p.waiting = inner ++ bracket :: q.waiting →
      q.output.toList = p.output.toList ++ x.yield p.previous ++ inner → Stepped p x q
  | operator {tighter others : List Lexeme} : 2 ≤ x.token.precedence →
      p.waiting = tighter ++ others →
      (∀ y ∈ tighter, x.token.precedence ≤ y.token.precedence) →
      (∀ y ∈ others.head?, y.token.precedence < x.token.precedence) →
      q.output.toList = p.output.toList ++ tighter → q.waiting = x :: others → Stepped p x q

theorem Stepped.of_precedence (hx : 2 ≤ x.token.precedence)
    (hq : q.output.toList = p.output.toList ++
      p.waiting.takeWhile (x.token.precedence ≤ ·.token.precedence))
    (hq' : q.waiting = x :: p.waiting.dropWhile (x.token.precedence ≤ ·.token.precedence)) :
    Stepped p x q := by
  refine .operator hx (List.takeWhile_append_dropWhile ..).symm ?_ ?_ hq hq'
  · exact fun y hy => by simpa using List.mem_takeWhile_imp hy
  · intro y hy
    have hnot := List.head?_dropWhile_not (fun z : Lexeme =>
      decide (x.token.precedence ≤ z.token.precedence)) p.waiting
    rw [Option.mem_def.1 hy] at hnot
    simpa using hnot

theorem stepped_of_step (h : step p x = .ok q) : Stepped p x q ∧ q.previous = some x.token := by
  unfold step at h
  split at h
  · rename_i htoken
    obtain rfl := Except.ok.inj h
    exact ⟨.operand (by rw [htoken]; rfl) (by simp) rfl, rfl⟩
  · rename_i htoken
    obtain rfl := Except.ok.inj h
    exact ⟨.operand (by rw [htoken]; rfl) (by simp) rfl, rfl⟩
  · rename_i htoken
    obtain rfl := Except.ok.inj h
    exact ⟨.opening htoken rfl rfl, rfl⟩
  · rename_i htoken
    dsimp only at h
    split at h
    · simp at h
    · rename_i bracket outer hdrop
      obtain rfl := Except.ok.inj h
      have hbracket := List.head?_dropWhile_not (fun z : Lexeme =>
        decide (z.token ≠ .leftParen)) p.waiting
      rw [hdrop] at hbracket
      have hsplit := List.takeWhile_append_dropWhile (p := fun z : Lexeme =>
        decide (z.token ≠ .leftParen)) (l := p.waiting)
      rw [hdrop] at hsplit
      refine ⟨.closing htoken (by simpa using hbracket) ?_ hsplit.symm ?_, rfl⟩
      · exact fun y hy => by simpa using List.mem_takeWhile_imp hy
      · rw [Lexeme.yield, htoken, Array.toList_appendList]
        split <;> simp
  all_goals
    rename_i htoken
    obtain rfl := Except.ok.inj h
    exact ⟨.of_precedence (by rw [htoken]; decide) (by simp) rfl, rfl⟩

/-! ## What comes out -/

/-- Everything that has come out or will, in some order. -/
def Progress.kept (p : Progress) : List Lexeme :=
  p.output.toList ++ p.waiting.filter (·.token ≠ .leftParen)

theorem filter_eq_self_of_precedence (h : ∀ y ∈ xs, 2 ≤ y.token.precedence) :
    xs.filter (·.token ≠ .leftParen) = xs := by
  rw [List.filter_eq_self]
  intro y hy
  exact decide_eq_true (Token.ne_leftParen_of_precedence (h y hy))

theorem Stepped.perm_kept (h : Stepped p x q) :
    q.kept.Perm (p.kept ++ x.yield p.previous) := by
  rw [List.perm_iff_count]
  intro y
  cases h with
  | operand hx hout hwait =>
      rw [Lexeme.yield_of_not_isBracket (Token.isBracket_of_isOperand hx)]
      simp only [Progress.kept, hout, hwait, List.count_append]
      omega
  | opening hx hout hwait =>
      simp [Progress.kept, hout, hwait, Lexeme.yield, hx]
  | @closing inner bracket hx hbracket hinner hwait hout =>
      have hfilter : inner.filter (·.token ≠ .leftParen) = inner := by
        rw [List.filter_eq_self]
        exact fun z hz => decide_eq_true (hinner z hz)
      rw [Progress.kept, Progress.kept, hwait, hout, List.filter_append, hfilter,
        List.filter_cons_of_neg (by simp [hbracket])]
      simp only [List.count_append]
      omega
  | @operator tighter others hx hwait htighter _ hout hwait' =>
      have hbracket := Token.isBracket_of_precedence hx
      rw [Lexeme.yield_of_not_isBracket hbracket, Progress.kept, Progress.kept, hwait, hwait', hout,
        List.filter_append,
        filter_eq_self_of_precedence fun z hz => Nat.le_trans hx (htighter z hz),
        List.filter_cons_of_pos (by simpa using Token.ne_leftParen_of_precedence hx)]
      simp only [List.count_append, List.count_cons, List.count_nil]
      omega

theorem perm_kept_of_foldlM (h : xs.foldlM step p = .ok q) :
    q.kept.Perm (p.kept ++ Lexeme.unbracketed p.previous xs) := by
  induction xs generalizing p with
  | nil =>
      obtain rfl := pure_eq_ok.1 h
      rw [Lexeme.unbracketed, List.append_nil]
  | cons x xs ih =>
      obtain ⟨r, hr, hrest⟩ := foldlM_cons_eq_ok.1 h
      obtain ⟨hstepped, hprevious⟩ := stepped_of_step hr
      refine (ih hrest).trans ?_
      rw [Lexeme.unbracketed, hprevious, ← List.append_assoc]
      exact hstepped.perm_kept.append_right _

/-! ## Which brackets wait -/

def Progress.depth (p : Progress) : Nat :=
  p.waiting.countP (·.token = .leftParen)

theorem countP_eq_zero_of_precedence (h : ∀ y ∈ xs, 2 ≤ y.token.precedence) :
    xs.countP (·.token = .leftParen) = 0 := by
  rw [List.countP_eq_zero]
  intro y hy
  simpa using Token.ne_leftParen_of_precedence (h y hy)

theorem Stepped.nesting_cons (h : Stepped p x q) (xs : List Lexeme) :
    Lexeme.nesting p.depth (x :: xs) = Lexeme.nesting q.depth xs := by
  cases h with
  | operand hx _ hwait =>
      rw [Lexeme.nesting_cons_of_not_isBracket (Token.isBracket_of_isOperand hx),
        Progress.depth, Progress.depth, hwait]
  | opening hx _ hwait =>
      rw [Lexeme.nesting, if_pos hx, Progress.depth, Progress.depth, hwait,
        List.countP_cons_of_pos (by simpa using hx)]
  | @closing inner bracket hx hbracket hinner hwait _ =>
      have hcount : inner.countP (·.token = .leftParen) = 0 := by
        rw [List.countP_eq_zero]
        exact fun y hy => by simpa using hinner y hy
      have hdepth : p.depth = q.depth + 1 := by
        rw [Progress.depth, hwait, List.countP_append, hcount,
          List.countP_cons_of_pos (by simpa using hbracket), Nat.zero_add, Progress.depth]
      rw [Lexeme.nesting, if_neg (by simp [hx]), if_pos hx, hdepth, if_neg (Nat.succ_ne_zero _),
        Nat.add_sub_cancel]
  | @operator tighter others hx hwait htighter _ _ hwait' =>
      have hbracket := Token.isBracket_of_precedence hx
      rw [Lexeme.nesting_cons_of_not_isBracket hbracket, Progress.depth, Progress.depth, hwait,
        hwait', List.countP_append,
        countP_eq_zero_of_precedence fun z hz => Nat.le_trans hx (htighter z hz), Nat.zero_add,
        List.countP_cons_of_neg (by simpa using Token.ne_leftParen_of_precedence hx)]

theorem nesting_of_foldlM (h : xs.foldlM step p = .ok q) :
    Lexeme.nesting p.depth xs = some q.depth := by
  induction xs generalizing p with
  | nil =>
      obtain rfl := pure_eq_ok.1 h
      rfl
  | cons x xs ih =>
      obtain ⟨r, hr, hrest⟩ := foldlM_cons_eq_ok.1 h
      rw [(stepped_of_step hr).1.nesting_cons]
      exact ih hrest

/-! ## Something comes out

As long as nothing has been kept, only opening brackets have been taken: the
first bracket that closes a group follows an opening one, and makes an empty
group. -/

theorem Stepped.opening_of_kept_eq_nil (h : Stepped p x q)
    (hp : p.kept = [] → p.previous = some .leftParen ∨ p.depth = 0) (hq : q.kept = []) :
    x.token = .leftParen ∧ q.depth ≠ 0 := by
  have hperm := h.perm_kept
  rw [hq, List.nil_perm, List.append_eq_nil_iff] at hperm
  obtain ⟨hkept, hyield⟩ := hperm
  cases h with
  | operand hx _ _ =>
      rw [Lexeme.yield_of_not_isBracket (Token.isBracket_of_isOperand hx)] at hyield
      simp at hyield
  | opening hx _ hwait =>
      refine ⟨hx, ?_⟩
      rw [Progress.depth, hwait, List.countP_cons_of_pos (by simpa using hx)]
      omega
  | closing hx hbracket _ hwait _ =>
      rcases hp hkept with hprevious | hdepth
      · simp [Lexeme.yield, hx, hprevious] at hyield
      · simp [Progress.depth, hwait, hbracket] at hdepth
  | operator hx _ _ _ _ _ =>
      rw [Lexeme.yield_of_not_isBracket (Token.isBracket_of_precedence hx)] at hyield
      simp at hyield

theorem kept_ne_nil_of_foldlM (hp : p.kept = [] → p.previous = some .leftParen ∨ p.depth = 0)
    (h : (x :: xs).foldlM step p = .ok q) (hq : q.depth = 0) : q.kept ≠ [] := by
  induction xs generalizing p x with
  | nil =>
      obtain ⟨r, hr, hrest⟩ := foldlM_cons_eq_ok.1 h
      obtain rfl := pure_eq_ok.1 hrest
      exact fun hkept => ((stepped_of_step hr).1.opening_of_kept_eq_nil hp hkept).2 hq
  | cons y xs ih =>
      obtain ⟨r, hr, hrest⟩ := foldlM_cons_eq_ok.1 h
      obtain ⟨hstepped, hprevious⟩ := stepped_of_step hr
      refine ih (fun hkept => .inl ?_) hrest
      rw [hprevious, (hstepped.opening_of_kept_eq_nil hp hkept).1]

/-! ## The whole pass -/

theorem finish_eq_ok (h : finish p = .ok ys) : ys = p.kept ∧ p.depth = 0 := by
  rw [finish] at h
  split at h
  · simp at h
  · rename_i hnone
    rw [List.find?_eq_none] at hnone
    have hall : ∀ y ∈ p.waiting, y.token ≠ .leftParen := fun y hy => by simpa using hnone y hy
    refine ⟨?_, ?_⟩
    · rw [Progress.kept, List.filter_eq_self.2 fun y hy => decide_eq_true (hall y hy),
        ← Except.ok.inj h, Array.toList_appendList]
    · rw [Progress.depth, List.countP_eq_zero]
      simpa using hall

end ReversePolish

open ReversePolish

/-- What comes out is what goes in, apart from brackets and empty groups. -/
theorem Lexeme.perm_unbracketed {xs ys : List Lexeme} (h : reversePolish xs = .ok ys) :
    ys.Perm (unbracketed none xs) := by
  obtain ⟨p, hp, hfinish⟩ := bind_eq_ok.1 h
  rw [(finish_eq_ok hfinish).1]
  exact perm_kept_of_foldlM hp

theorem Lexeme.ne_nil_of_reversePolish {xs ys : List Lexeme} (h : reversePolish xs = .ok ys)
    (hxs : xs ≠ []) : ys ≠ [] := by
  obtain ⟨p, hp, hfinish⟩ := bind_eq_ok.1 h
  obtain ⟨x, rest, rfl⟩ := List.exists_cons_of_ne_nil hxs
  rw [(finish_eq_ok hfinish).1]
  exact kept_ne_nil_of_foldlM (fun _ => .inr rfl) hp (finish_eq_ok hfinish).2

theorem Lexeme.nesting_of_reversePolish {xs ys : List Lexeme} (h : reversePolish xs = .ok ys) :
    nesting 0 xs = some 0 := by
  obtain ⟨p, hp, hfinish⟩ := bind_eq_ok.1 h
  have hnesting := nesting_of_foldlM hp
  rwa [(finish_eq_ok hfinish).2] at hnesting

end PatternAutomata
