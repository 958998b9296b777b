import PatternAutomata.Proofs.OperandCount

/-!
# Where concatenations come out

A concatenation in front of a symbol binds the symbol at once: it comes out
right behind the symbol and the repetitions of it. Something has come out before
the symbol as well, so two values are there for it. Only in front of a group can
more come between, and such concatenations are exempt from what `Backed` says of
all others.

The pass is followed lexeme by lexeme, as in `Conservation`. What has come out
and what waits is looked at as one list, in the order in which it would come out
if the text ended there, with the last lexeme first. `Tidy` is the invariant: all
of that list is `Backed`. It does not hold between a concatenation and the lexeme
that it is put before, so these two are taken in one step.
-/

namespace PatternAutomata

namespace Token

def isRepetition : Token → Bool
  | star | plus => true
  | _ => false

variable {t : Token}

theorem precedence_of_isOperand (h : t.isOperand = true) : t.precedence = 0 := by
  cases t <;> first | rfl | cases h

theorem closesOperand_of_isOperand (h : t.isOperand = true) : t.closesOperand = true := by
  cases t <;> first | rfl | cases h

theorem opensOperand_of_isOperand (h : t.isOperand = true) : t.opensOperand = true := by
  cases t <;> first | rfl | cases h

theorem ne_concat_of_isOperand (h : t.isOperand = true) : t ≠ .concat := by
  rintro rfl
  cases h

theorem not_isOperand_of_precedence (h : t.precedence ≠ 0) : t.isOperand = false := by
  cases t <;> first | rfl | exact absurd rfl h

theorem precedence_le (t : Token) : t.precedence ≤ 4 := by
  cases t <;> simp [precedence]

theorem isRepetition_of_precedence (h : 3 < t.precedence) : t.isRepetition = true := by
  cases t <;> first | rfl | exact absurd h (by simp [precedence])

theorem eq_union_of_precedence (h : 2 ≤ t.precedence) (hcloses : t.closesOperand = false) :
    t = .union := by
  cases t <;> simp_all [precedence, closesOperand]

theorem precedence_of_closesOperand (hcloses : t.closesOperand = true) (h : t.precedence ≠ 0) :
    3 ≤ t.precedence := by
  cases t <;> simp_all [precedence, closesOperand]

theorem eq_concat_of_opensOperand (hopens : t.opensOperand = true) (h : 2 ≤ t.precedence) :
    t = .concat := by
  cases t <;> simp_all [precedence, opensOperand]

theorem not_isRepetition_of_precedence (h : t.precedence < 4) : t.isRepetition = false := by
  cases t <;> first | rfl | exact absurd h (by decide)

end Token

namespace Lexeme

/-- The lexemes, the last one first, end with an operand and repetitions of it,
and the operand is not the first of all. -/
def EndsInOperand : List Lexeme → Prop
  | [] => False
  | x :: before => x.token.isOperand = true ∧ before ≠ [] ∨
      x.token.isRepetition = true ∧ EndsInOperand before

variable {Exempt : Lexeme → Prop} {x : Lexeme} {above before : List Lexeme}

theorem not_endsInOperand (hx : x.token.isOperand = false) (hx' : x.token.isRepetition = false)
    (habove : ∀ y ∈ above, y.token.isOperand = false) (before : List Lexeme) :
    ¬ EndsInOperand (above ++ x :: before) := by
  induction above with
  | nil =>
      rintro (⟨h, -⟩ | ⟨h, -⟩)
      · simp [hx] at h
      · simp [hx'] at h
  | cons y above ih =>
      rw [List.forall_mem_cons] at habove
      rintro (⟨h, -⟩ | ⟨-, h⟩)
      · simp [habove.1] at h
      · exact ih habove.2 h

/-- In the lexemes, the last one first, every concatenation that is not exempt
comes behind an operand and its repetitions. -/
def Backed (Exempt : Lexeme → Prop) : List Lexeme → Prop
  | [] => True
  | x :: before => (x.token = .concat → Exempt x ∨ EndsInOperand before) ∧ Backed Exempt before

namespace Backed

theorem of_append (h : Backed Exempt (above ++ before)) : Backed Exempt before := by
  induction above with
  | nil => exact h
  | cons y above ih => exact ih h.2

theorem append (habove : ∀ y ∈ above, y.token = .concat → Exempt y) (h : Backed Exempt before) :
    Backed Exempt (above ++ before) := by
  induction above with
  | nil => exact h
  | cons y above ih =>
      rw [List.forall_mem_cons] at habove
      exact ⟨fun hy => .inl (habove.1 hy), ih habove.2⟩

theorem cons (hx : x.token ≠ .concat) (h : Backed Exempt before) : Backed Exempt (x :: before) :=
  ⟨fun hconcat => absurd hconcat hx, h⟩

/-- An operator between two operands, or a bracket, parts a concatenation behind
it from the operands before it. -/
theorem forall_above (hx : x.token.isOperand = false) (hx' : x.token.isRepetition = false)
    (habove : ∀ y ∈ above, y.token.isOperand = false) (h : Backed Exempt (above ++ x :: before)) :
    ∀ y ∈ above, y.token = .concat → Exempt y := by
  induction above with
  | nil => simp
  | cons y above ih =>
      rw [List.forall_mem_cons] at habove
      refine List.forall_mem_cons.2 ⟨fun hy => ?_, ih habove.2 h.2⟩
      rcases h.1 hy with hexempt | hends
      · exact hexempt
      · exact absurd hends (not_endsInOperand hx hx' habove.2 before)

end Backed

end Lexeme

namespace ReversePolish

open Lexeme

variable {Exempt : Lexeme → Prop} {p q r : Progress} {x : Lexeme} {xs tighter others : List Lexeme}
  {prev : Token}

/-- Between two operands of a text, or behind the last one. -/
structure Tidy (Exempt : Lexeme → Prop) (p : Progress) : Prop where
  backed : Backed Exempt (p.waiting.reverse ++ p.output.toList.reverse)
  no_operand : ∀ y ∈ p.waiting, y.token.isOperand = false
  /-- Where an operand has to begin, only exempt concatenations wait. -/
  released : (∀ t ∈ p.previous, t.closesOperand = false) →
    ∀ y ∈ p.waiting, y.token = .concat → Exempt y
  on_top : ∀ t ∈ p.previous, t.precedence ≠ 0 → ∃ y ∈ p.waiting.head?, y.token = t
  output_ne_nil : ∀ t ∈ p.previous, t.precedence = 0 → p.output.toList ≠ []
  start : p.previous = none → p.waiting = []

/-- An operand can be taken, and there is a value for the concatenation in front
of it. -/
structure BeforeOperand (Exempt : Lexeme → Prop) (p : Progress) : Prop where
  backed : Backed Exempt p.output.toList.reverse
  no_operand : ∀ y ∈ p.waiting, y.token.isOperand = false
  head : ∀ y ∈ p.waiting.head?, y.token = .concat → Exempt y ∨ p.output.toList ≠ []
  tail : ∀ y ∈ p.waiting.tail, y.token = .concat → Exempt y

namespace Tidy

theorem of_previous {t : Token} (hprev : p.previous = some t)
    (hbacked : Backed Exempt (p.waiting.reverse ++ p.output.toList.reverse))
    (hoperand : ∀ y ∈ p.waiting, y.token.isOperand = false)
    (hreleased : t.closesOperand = false → ∀ y ∈ p.waiting, y.token = .concat → Exempt y)
    (htop : t.precedence ≠ 0 → ∃ y ∈ p.waiting.head?, y.token = t)
    (hout : t.precedence = 0 → p.output.toList ≠ []) : Tidy Exempt p where
  backed := hbacked
  no_operand := hoperand
  released h := hreleased (h t hprev)
  on_top s hs := by
    obtain rfl : t = s := by simpa [hprev] using hs
    exact htop
  output_ne_nil s hs := by
    obtain rfl : t = s := by simpa [hprev] using hs
    exact hout
  start := by simp [hprev]

theorem beforeOperand (h : Tidy Exempt p) (hprev : ∀ t ∈ p.previous, t.closesOperand = false) :
    BeforeOperand Exempt p where
  backed := h.backed.of_append
  no_operand := h.no_operand
  head y hy hconcat := .inl (h.released hprev y (List.mem_of_mem_head? hy) hconcat)
  tail y hy := h.released hprev y (List.mem_of_mem_tail hy)

/-- Below a bracket or an operator between operands only exempt concatenations wait. -/
theorem forall_below {z : Lexeme} (h : Tidy Exempt p) (hwait : p.waiting = tighter ++ z :: others)
    (hz : z.token.precedence < 4) : ∀ y ∈ others, y.token = .concat → Exempt y := by
  have hwaiting : ∀ y ∈ z :: others, y.token.isOperand = false := fun y hy =>
    h.no_operand y (hwait ▸ List.mem_append_right tighter hy)
  rw [List.forall_mem_cons] at hwaiting
  have hbacked := h.backed
  rw [hwait, List.reverse_append, List.reverse_cons, List.append_assoc, List.append_assoc,
    List.singleton_append] at hbacked
  have habove := hbacked.forall_above hwaiting.1 (Token.not_isRepetition_of_precedence hz)
    (by simpa using hwaiting.2)
  simpa using habove

/-- An operator that binds no tighter than a concatenation leaves none waiting
that stands in front of a symbol. -/
theorem forall_others (h : Tidy Exempt p) (hwait : p.waiting = tighter ++ others)
    (hothers : ∀ y ∈ others.head?, y.token.precedence < 3) :
    ∀ y ∈ others, y.token = .concat → Exempt y := by
  cases others with
  | nil => simp
  | cons z rest =>
      have hz : z.token.precedence < 3 := hothers z rfl
      refine List.forall_mem_cons.2 ⟨fun hconcat => ?_, h.forall_below hwait (by omega)⟩
      rw [hconcat] at hz
      exact absurd hz (by decide)

theorem backed_released (h : Tidy Exempt p) (hwait : p.waiting = tighter ++ others) :
    Backed Exempt (tighter.reverse ++ p.output.toList.reverse) := by
  have hbacked := h.backed
  rw [hwait, List.reverse_append, List.append_assoc] at hbacked
  exact hbacked.of_append

/-! One more lexeme, case by case. -/

theorem of_operand (h : BeforeOperand Exempt p) (hx : x.token.isOperand = true)
    (hout : q.output.toList = p.output.toList ++ [x]) (hwait : q.waiting = p.waiting)
    (hprev : q.previous = some x.token) : Tidy Exempt q := by
  refine .of_previous hprev ?backed ?no_operand ?released ?on_top ?output_ne_nil
  case backed =>
    have hconcat := Token.ne_concat_of_isOperand hx
    rw [hwait, hout, List.reverse_append, List.reverse_singleton, List.singleton_append]
    cases hw : p.waiting with
    | nil => exact h.backed.cons hconcat
    | cons z rest =>
        have htail := h.tail
        rw [hw, List.tail_cons] at htail
        rw [List.reverse_cons, List.append_assoc]
        refine .append (by simpa using htail) ⟨fun hz => ?_, h.backed.cons hconcat⟩
        rcases h.head z (by rw [hw]; rfl) hz with hexempt | hne
        · exact .inl hexempt
        · exact .inr (.inl ⟨hx, by simpa using hne⟩)
  case no_operand => exact hwait ▸ h.no_operand
  case released => simp [Token.closesOperand_of_isOperand hx]
  case on_top => exact fun hprec => absurd (Token.precedence_of_isOperand hx) hprec
  case output_ne_nil => simp [hout]

theorem of_opening (hbacked : Backed Exempt p.output.toList.reverse)
    (hoperand : ∀ y ∈ p.waiting, y.token.isOperand = false)
    (hconcat : ∀ y ∈ p.waiting, y.token = .concat → Exempt y) (hx : x.token = .leftParen)
    (hout : q.output = p.output) (hwait : q.waiting = x :: p.waiting)
    (hprev : q.previous = some x.token) : Tidy Exempt q := by
  refine .of_previous hprev ?backed ?no_operand ?released ?on_top ?output_ne_nil
  case backed =>
    rw [hwait, hout, List.reverse_cons, List.append_assoc]
    exact .append (by simpa using hconcat) (hbacked.cons (by simp [hx]))
  case no_operand =>
    rw [hwait, List.forall_mem_cons]
    exact ⟨by rw [hx]; rfl, hoperand⟩
  case released =>
    rw [hwait, List.forall_mem_cons]
    exact fun _ => ⟨by simp [hx], hconcat⟩
  case on_top => exact fun _ => ⟨x, by rw [hwait]; rfl, rfl⟩
  case output_ne_nil => simp [hx, Token.precedence]

/-- An empty group, or a group from which something has come out. -/
theorem yield_or_ne_nil {inner outer : List Lexeme} {bracket : Lexeme} (h : Tidy Exempt p)
    (hx : x.token = .rightParen) (hbracket : bracket.token = .leftParen)
    (hinner : ∀ y ∈ inner, y.token ≠ .leftParen) (hwait : p.waiting = inner ++ bracket :: outer) :
    x.yield p.previous = [⟨x.pos, .emptyGroup⟩] ∧ inner = [] ∨
      x.yield p.previous = [] ∧ (p.output.toList ≠ [] ∨ inner ≠ []) := by
  cases hprev : p.previous with
  | none =>
      rw [h.start hprev] at hwait
      simp at hwait
  | some t =>
      by_cases hprec : t.precedence = 0
      · have hne : t ≠ .leftParen := by
          rintro rfl
          cases hprec
        exact .inr ⟨by simp [yield, hx, hne], .inl (h.output_ne_nil t hprev hprec)⟩
      · obtain ⟨y, hy, rfl⟩ := h.on_top t hprev hprec
        rw [hwait] at hy
        cases inner with
        | nil =>
            obtain rfl : bracket = y := by simpa using hy
            exact .inl ⟨by simp [yield, hx, hbracket], rfl⟩
        | cons z rest =>
            obtain rfl : z = y := by simpa using hy
            have hne := hinner z List.mem_cons_self
            exact .inr ⟨by simp [yield, hx, hne], .inr (List.cons_ne_nil z rest)⟩

theorem of_closing {inner outer : List Lexeme} {bracket : Lexeme} (h : Tidy Exempt p)
    (hx : x.token = .rightParen) (hbracket : bracket.token = .leftParen)
    (hinner : ∀ y ∈ inner, y.token ≠ .leftParen) (hwait : p.waiting = inner ++ bracket :: outer)
    (hwait' : q.waiting = outer)
    (hout : q.output.toList = p.output.toList ++ x.yield p.previous ++ inner)
    (hprev : q.previous = some x.token) : Tidy Exempt q := by
  refine .of_previous hprev ?backed ?no_operand ?released ?on_top ?output_ne_nil
  case backed =>
    have houter := h.forall_below hwait (by rw [hbracket]; decide)
    have hreleased := h.backed_released hwait
    rw [hwait', hout, List.reverse_append, List.reverse_append]
    refine .append (by simpa using houter) ?_
    rcases h.yield_or_ne_nil hx hbracket hinner hwait with ⟨hyield, rfl⟩ | ⟨hyield, -⟩
    · rw [hyield]
      exact hreleased.cons (by simp)
    · rw [hyield]
      exact hreleased
  case no_operand => exact fun y hy => h.no_operand y (by rw [hwait, ← hwait']; simp [hy])
  case released => simp [hx, Token.closesOperand]
  case on_top => simp [hx, Token.precedence]
  case output_ne_nil =>
    intro _
    rcases h.yield_or_ne_nil hx hbracket hinner hwait with ⟨hyield, -⟩ | ⟨-, hne | hne⟩
    · simp [hout, hyield]
    · simp [hout, hne]
    · simp [hout, hne]

/-- A union or a repetition. -/
theorem of_operator (h : Tidy Exempt p) (hx : 2 ≤ x.token.precedence) (hx' : x.token ≠ .concat)
    (hwait : p.waiting = tighter ++ others)
    (hothers : ∀ y ∈ others.head?, y.token.precedence < x.token.precedence)
    (hout : q.output.toList = p.output.toList ++ tighter) (hwait' : q.waiting = x :: others)
    (hprev : q.previous = some x.token) : Tidy Exempt q := by
  refine .of_previous hprev ?backed ?no_operand ?released ?on_top ?output_ne_nil
  case backed =>
    have hreleased := h.backed_released hwait
    rw [hwait', hout, List.reverse_cons, List.reverse_append, List.append_assoc,
      List.singleton_append]
    cases others with
    | nil => exact hreleased.cons hx'
    | cons z rest =>
        have hz : z.token.precedence < 4 := by
          have hlt := hothers z rfl
          have hle := x.token.precedence_le
          omega
        have hrest := h.forall_below hwait hz
        have hbacked := h.backed_released (hwait.trans (List.append_cons tighter z rest))
        rw [List.reverse_append, List.reverse_singleton, List.append_assoc,
          List.singleton_append] at hbacked
        rw [List.reverse_cons, List.append_assoc, List.singleton_append]
        refine .append (by simpa using hrest) ⟨fun hconcat => ?_, hreleased.cons hx'⟩
        -- Only a repetition leaves a concatenation waiting, and it adds itself to
        -- those behind the operand.
        have hlt := hothers z rfl
        rw [hconcat] at hlt
        exact (hbacked.1 hconcat).imp_right fun hends =>
          .inr ⟨Token.isRepetition_of_precedence hlt, hends⟩
  case no_operand =>
    rw [hwait', List.forall_mem_cons]
    refine ⟨Token.not_isOperand_of_precedence (by omega), fun y hy => ?_⟩
    exact h.no_operand y (hwait ▸ List.mem_append_right tighter hy)
  case released =>
    intro hnot
    have hunion := Token.eq_union_of_precedence hx hnot
    have hconcats := h.forall_others hwait fun y hy => by
      have hlt := hothers y hy
      rw [hunion] at hlt
      exact Nat.lt_succ_of_lt hlt
    rw [hwait', List.forall_mem_cons]
    exact ⟨fun hconcat => absurd hconcat hx', hconcats⟩
  case on_top => exact fun _ => ⟨x, by rw [hwait']; rfl, rfl⟩
  case output_ne_nil => exact fun hprec => by omega

/-- A lexeme with no concatenation put before it. -/
theorem step (h : Tidy Exempt p) (hstepped : Stepped p x q) (hprev : q.previous = some x.token)
    (hx : x.token ≠ .concat)
    (hopens : x.token.opensOperand = true → ∀ t ∈ p.previous, t.closesOperand = false) :
    Tidy Exempt q := by
  cases hstepped with
  | operand hoperand hout hwait =>
      have hbefore := h.beforeOperand (hopens (Token.opensOperand_of_isOperand hoperand))
      exact of_operand hbefore hoperand hout hwait hprev
  | opening hparen hout hwait =>
      have hnot := hopens (by rw [hparen]; rfl)
      exact of_opening h.backed.of_append h.no_operand (h.released hnot) hparen hout hwait hprev
  | closing hparen hbracket hinner hwait hout =>
      exact h.of_closing hparen hbracket hinner hwait rfl hout hprev
  | operator hprec hwait _ hothers hout hwait' =>
      exact h.of_operator hprec hx hwait hothers hout hwait' hprev

/-- Behind an operand a concatenation releases the one before it, and waits
itself for the operand that comes next. -/
theorem beforeOperand_of_concat (h : Tidy Exempt p) (hp : p.previous = some prev)
    (hcloses : prev.closesOperand = true) (hx : x.token = .concat) (hstepped : Stepped p x q) :
    BeforeOperand Exempt q ∧ q.waiting.head? = some x := by
  cases hstepped with
  | operand hoperand => exact absurd hx (Token.ne_concat_of_isOperand hoperand)
  | opening hparen => simp [hx] at hparen
  | closing hparen => simp [hx] at hparen
  | @operator tighter others _ hwait _ hothers hout hwait' =>
      rw [hx] at hothers
      refine ⟨⟨?backed, ?no_operand, ?head, ?tail⟩, by rw [hwait']; rfl⟩
      case backed =>
        rw [hout, List.reverse_append]
        exact h.backed_released hwait
      case no_operand =>
        rw [hwait', List.forall_mem_cons, hx]
        exact ⟨rfl, fun y hy => h.no_operand y (hwait ▸ List.mem_append_right tighter hy)⟩
      case head =>
        refine fun y hy hconcat => .inr ?_
        by_cases hprec : prev.precedence = 0
        · simp [hout, h.output_ne_nil prev hp hprec]
        · obtain ⟨z, hz, rfl⟩ := h.on_top prev hp hprec
          cases tighter with
          | nil =>
              rw [hwait] at hz
              have hlt := hothers z hz
              have hthree := Token.precedence_of_closesOperand hcloses hprec
              exact absurd hlt (Nat.not_lt.2 hthree)
          | cons w tighter => simp [hout]
      case tail =>
        rw [hwait', List.tail_cons]
        exact h.forall_others hwait hothers

theorem step_behind_concat (h : Tidy Exempt p) (hp : p.previous = some prev)
    (hcloses : prev.closesOperand = true) (hopens : x.token.opensOperand = true)
    (hx : x.token ≠ .concat) (hexempt : x.token = .leftParen → Exempt ⟨x.pos, .concat⟩)
    (hr : Stepped p ⟨x.pos, .concat⟩ r) (hq : Stepped r x q) (hprev : q.previous = some x.token) :
    Tidy Exempt q := by
  obtain ⟨hbefore, hhead⟩ := h.beforeOperand_of_concat hp hcloses rfl hr
  cases hq with
  | operand hoperand hout hwait => exact of_operand hbefore hoperand hout hwait hprev
  | opening hparen hout hwait =>
      refine of_opening hbefore.backed hbefore.no_operand ?_ hparen hout hwait hprev
      obtain ⟨others, hothers⟩ := List.head?_eq_some_iff.1 hhead
      have htail := hbefore.tail
      rw [hothers, List.tail_cons] at htail
      rw [hothers, List.forall_mem_cons]
      exact ⟨fun _ => hexempt hparen, htail⟩
  | closing hparen => simp [hparen, Token.opensOperand] at hopens
  | operator hprec =>
      exact absurd (Token.eq_concat_of_opensOperand hopens hprec) hx

theorem initial : Tidy Exempt {} where
  backed := trivial
  no_operand := by simp
  released := by simp
  on_top := by simp
  output_ne_nil := by simp
  start _ := rfl

/-- A text, with the concatenations that are put into it. -/
theorem foldlM_insertConcatsAfter (hxs : ∀ x ∈ xs, x.token ≠ .concat)
    (hexempt : ∀ x ∈ xs, x.token = .leftParen → Exempt ⟨x.pos, .concat⟩) (h : Tidy Exempt p)
    (hp : p.previous = some prev)
    (hq : (insertConcatsAfter prev xs).foldlM ReversePolish.step p = .ok q) :
    Tidy Exempt q := by
  induction xs generalizing p prev with
  | nil =>
      obtain rfl := pure_eq_ok.1 hq
      exact h
  | cons x xs ih =>
      rw [List.forall_mem_cons] at hxs hexempt
      rw [insertConcatsAfter] at hq
      split at hq
      · rename_i hoperands
        rw [Bool.and_eq_true] at hoperands
        obtain ⟨r, hr, hq⟩ := foldlM_cons_eq_ok.1 hq
        obtain ⟨r', hr', hq⟩ := foldlM_cons_eq_ok.1 hq
        obtain ⟨hstepped, hprev⟩ := stepped_of_step hr'
        refine ih hxs.2 hexempt.2 ?_ hprev hq
        exact h.step_behind_concat hp hoperands.1 hoperands.2 hxs.1 hexempt.1 (stepped_of_step hr).1
          hstepped hprev
      · rename_i hoperands
        obtain ⟨r, hr, hq⟩ := foldlM_cons_eq_ok.1 hq
        obtain ⟨hstepped, hprev⟩ := stepped_of_step hr
        refine ih hxs.2 hexempt.2 (h.step hstepped hprev hxs.1 fun hopens t ht => ?_) hprev hq
        obtain rfl : prev = t := by simpa [hp] using ht
        simpa [hopens] using hoperands

end Tidy

end ReversePolish

open ReversePolish

/-- Only concatenations in front of groups come out behind anything but an
operand and its repetitions. -/
theorem Lexeme.backed_of_reversePolish {Exempt : Lexeme → Prop} {xs ys : List Lexeme}
    (hxs : ∀ x ∈ xs, x.token ≠ .concat)
    (hexempt : ∀ x ∈ xs, x.token = .leftParen → Exempt ⟨x.pos, .concat⟩)
    (h : reversePolish (insertConcats xs) = .ok ys) : Backed Exempt ys.reverse := by
  obtain ⟨p, hp, hfinish⟩ := bind_eq_ok.1 h
  have htidy : Tidy Exempt p := by
    cases xs with
    | nil =>
        obtain rfl := pure_eq_ok.1 hp
        exact .initial
    | cons x xs =>
        rw [insertConcats_cons] at hp
        rw [List.forall_mem_cons] at hxs hexempt
        obtain ⟨q, hq, hp⟩ := foldlM_cons_eq_ok.1 hp
        obtain ⟨hstepped, hprev⟩ := stepped_of_step hq
        have hfirst : Tidy Exempt q := Tidy.initial.step hstepped hprev hxs.1 (by simp)
        exact hfirst.foldlM_insertConcatsAfter hxs.2 hexempt.2 hprev hp
  obtain ⟨hys, hdepth⟩ := finish_eq_ok hfinish
  have hwaiting : p.waiting.filter (·.token ≠ .leftParen) = p.waiting := by
    rw [List.filter_eq_self]
    simpa [Progress.depth] using hdepth
  rw [hys, Progress.kept, hwaiting, List.reverse_append]
  exact htidy.backed

/-! ## The values that are there -/

theorem Token.isBinary_of_isOperand {t : Token} (h : t.isOperand = true) : t.isBinary = false := by
  cases t <;> first | rfl | cases h

theorem Token.isBinary_of_isRepetition {t : Token} (h : t.isRepetition = true) :
    t.isBinary = false := by
  cases t <;> first | rfl | cases h

theorem Evaluation.two_le_length {limit : SizeLimit} {xs : List Lexeme} {stack : List Operand}
    (hxs : ∀ x ∈ xs, x.token.isBracket = false) (hends : Lexeme.EndsInOperand xs)
    (h : xs.reverse.foldlM (step limit) [] = .ok stack) : 2 ≤ stack.length := by
  induction xs generalizing stack with
  | nil => exact hends.elim
  | cons x before ih =>
      rw [List.forall_mem_cons] at hxs
      rw [List.reverse_cons, List.foldlM_append, bind_eq_ok] at h
      obtain ⟨between, hbetween, h⟩ := h
      obtain ⟨later, hx, h⟩ := foldlM_cons_eq_ok.1 h
      obtain rfl := pure_eq_ok.1 h
      have hlength := length_of_reduced (reduced_of_step hx)
      rcases hends with ⟨hoperand, hne⟩ | ⟨hrepetition, hends⟩
      · have hsome :=
          ne_nil_of_foldlM (List.reverse_ne_nil_iff.2 hne) (by simpa using hxs.2) hbetween
        have hpos := List.length_pos_of_ne_nil hsome
        rw [Token.isBinary_of_isOperand hoperand, hoperand] at hlength
        simp only [Bool.toNat_false, Bool.toNat_true] at hlength
        omega
      · have htwo := ih hxs.2 hends hbetween
        rw [Token.isBinary_of_isRepetition hrepetition] at hlength
        simp only [Bool.toNat_false] at hlength
        omega

end PatternAutomata
