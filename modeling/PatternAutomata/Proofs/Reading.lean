import PatternAutomata.Proofs.OperandCount

/-!
# Texts without faults are patterns

A text whose brackets match and in which no operand is missing is derived by
the grammar. It is read from left to right. The part of it that has been read
consists of the texts before the groups that are open, each of which waits for
an operand (`Ready`), and of the text of the innermost group. Behind a token
that completes an operand this last text is a list of alternatives already
(`Complete`), and otherwise it waits for an operand too.

Each character is one step of `Read`, and it needs no look ahead: the operand
that a repetition applies to is the last one, and a sequence or an alternative
can always be put behind what is complete.
-/

namespace PatternAutomata

variable {pos : Nat} {cs ds : List Char} {t : Tree}

/-- A sequence, with or without alternatives before it. -/
inductive Row (pos : Nat) : List Char → Prop
  | first {cs : List Char} {t : Tree} : Derives .sequence pos cs t → Row pos cs
  | later {cs ds : List Char} {l r : Tree} : Derives .alternatives pos cs l →
      Derives .sequence (pos + byteLength cs + 1) ds r → Row pos (cs ++ '|' :: ds)

/-- A text that an operand can be put behind. -/
inductive Ready (pos : Nat) : List Char → Prop
  | start : Ready pos []
  | bar {cs : List Char} {t : Tree} : Derives .alternatives pos cs t → Ready pos (cs ++ ['|'])
  | row {cs : List Char} : Row pos cs → Ready pos cs

/-- A text that ends with an operand. -/
inductive Complete (pos : Nat) : List Char → Prop
  | intro {cs ds : List Char} {t : Tree} : Ready pos cs →
      Derives .repetition (pos + byteLength cs) ds t → Complete pos (cs ++ ds)

theorem Row.derives (h : Row pos cs) : ∃ t, Derives .alternatives pos cs t := by
  cases h with
  | first hseq => exact ⟨_, .sequence hseq⟩
  | later halt hseq => exact ⟨_, .union halt hseq⟩

namespace Complete

theorem row (h : Complete pos cs) : Row pos cs := by
  obtain @⟨as, bs, t, hready, hlast⟩ := h
  cases hready with
  | start =>
      rw [byteLength_nil, Nat.add_zero] at hlast
      exact .first (.repetition hlast)
  | @bar as t halt =>
      rw [byteLength_append, byteLength_cons, byteLength_nil] at hlast
      rw [List.append_assoc]
      exact .later halt (.repetition hlast)
  | row hrow =>
      cases hrow with
      | first hseq => exact .first (.concat hseq hlast)
      | @later as cs' l r halt hseq =>
          have hpos : pos + byteLength (as ++ '|' :: cs') =
              pos + byteLength as + 1 + byteLength cs' := by
            rw [byteLength_append, byteLength_cons, show '|'.utf8Size = 1 from rfl]
            omega
          rw [hpos] at hlast
          rw [List.append_assoc, List.cons_append]
          exact .later halt (.concat hseq hlast)

theorem star (h : Complete pos cs) : Complete pos (cs ++ ['*']) := by
  obtain ⟨hready, hlast⟩ := h
  rw [List.append_assoc]
  exact ⟨hready, .star hlast⟩

theorem plus (h : Complete pos cs) : Complete pos (cs ++ ['+']) := by
  obtain ⟨hready, hlast⟩ := h
  rw [List.append_assoc]
  exact ⟨hready, .plus hlast⟩

end Complete

/-! ## Open groups -/

/-- The texts before so many open groups, each with the bracket behind it. -/
inductive Opened : Nat → List Char → Prop
  | nil : Opened 0 []
  | group {depth : Nat} {os cs : List Char} : Opened depth os → Ready (byteLength os) cs →
      Opened (depth + 1) (os ++ cs ++ ['('])

/-- What has been read up to a token, with so many groups open behind it. -/
inductive Read (prev : Token) (depth : Nat) : List Char → Prop
  | complete {os cs : List Char} : prev.closesOperand = true → Opened depth os →
      Complete (byteLength os) cs → Read prev depth (os ++ cs)
  | ready {os cs : List Char} : prev.closesOperand = false → (prev = .leftParen → cs = []) →
      Opened depth os → Ready (byteLength os) cs → Read prev depth (os ++ cs)

namespace Read

variable {prev : Token} {depth : Nat}

/-- An operand can be put behind whatever has been read. -/
theorem exists_ready (h : Read prev depth cs) :
    ∃ os gs, cs = os ++ gs ∧ Opened depth os ∧ Ready (byteLength os) gs := by
  cases h with
  | complete _ hopened hcomplete => exact ⟨_, _, rfl, hopened, .row hcomplete.row⟩
  | ready _ _ hopened hready => exact ⟨_, _, rfl, hopened, hready⟩

theorem operand {last : Token} (hlast : last.closesOperand = true) (h : Read prev depth cs)
    (hatom : Derives .atom (byteLength cs) ds t) : Read last depth (cs ++ ds) := by
  obtain ⟨os, gs, rfl, hopened, hready⟩ := h.exists_ready
  rw [byteLength_append] at hatom
  rw [List.append_assoc]
  exact .complete hlast hopened ⟨hready, .atom hatom⟩

theorem opening (h : Read prev depth cs) : Read .leftParen (depth + 1) (cs ++ ['(']) := by
  obtain ⟨os, gs, rfl, hopened, hready⟩ := h.exists_ready
  rw [← List.append_nil (os ++ gs ++ ['('])]
  exact .ready rfl (fun _ => rfl) (.group hopened hready) .start

/-- The group is an operand of the text that waits before it. -/
theorem closing (h : Read prev (depth + 1) cs) (hclash : prev.clashes .rightParen = false) :
    Read .rightParen depth (cs ++ [')']) := by
  cases h with
  | @complete _ gs _ hopened hcomplete =>
      cases hopened with
      | @group _ os cs hopened hready =>
          obtain ⟨t, ht⟩ := hcomplete.row.derives
          rw [byteLength_append, byteLength_append] at ht
          have hgroup := Complete.intro hready (.atom (.group ht))
          have htext : os ++ cs ++ ['('] ++ gs ++ [')'] = os ++ (cs ++ ('(' :: gs ++ [')'])) := by
            simp only [List.append_assoc, List.cons_append, List.nil_append]
          rw [htext]
          exact .complete rfl hopened hgroup
  | @ready _ gs hcloses hgs hopened _ =>
      have hprev : prev = .leftParen := by
        cases prev <;> simp_all [Token.clashes, Token.opensOperand, Token.closesOperand]
      obtain rfl := hgs hprev
      cases hopened with
      | @group _ os cs hopened hready =>
          have hgroup := Complete.intro hready (.atom .emptyGroup)
          have htext : os ++ cs ++ ['('] ++ [] ++ [')'] = os ++ (cs ++ ['(', ')']) := by
            simp only [List.append_assoc, List.cons_append, List.nil_append]
          rw [htext]
          exact .complete rfl hopened hgroup

theorem exists_complete (h : Read prev depth cs) (hprev : prev.closesOperand = true) :
    ∃ os gs, cs = os ++ gs ∧ Opened depth os ∧ Complete (byteLength os) gs := by
  cases h with
  | complete _ hopened hcomplete => exact ⟨_, _, rfl, hopened, hcomplete⟩
  | ready hcloses _ _ _ =>
      rw [hprev] at hcloses
      exact absurd hcloses (by decide)

theorem bar (h : Read prev depth cs) (hprev : prev.closesOperand = true) :
    Read .union depth (cs ++ ['|']) := by
  obtain ⟨os, gs, rfl, hopened, hcomplete⟩ := h.exists_complete hprev
  obtain ⟨t, ht⟩ := hcomplete.row.derives
  rw [List.append_assoc]
  exact .ready rfl (by simp) hopened (.bar ht)

/-- The last operand can be extended by a character. -/
theorem extend {last : Token} {c : Char} (hlast : last.closesOperand = true)
    (hc : ∀ {pos : Nat} {gs : List Char}, Complete pos gs → Complete pos (gs ++ [c]))
    (h : Read prev depth cs) (hprev : prev.closesOperand = true) : Read last depth (cs ++ [c]) := by
  obtain ⟨os, gs, rfl, hopened, hcomplete⟩ := h.exists_complete hprev
  rw [List.append_assoc]
  exact .complete hlast hopened (hc hcomplete)

theorem derives (h : Read prev 0 cs) (hprev : prev.closesOperand = true) :
    ∃ t, Derives .alternatives 0 cs t := by
  obtain ⟨os, gs, rfl, hopened, hcomplete⟩ := h.exists_complete hprev
  cases hopened with
  | nil => exact hcomplete.row.derives

end Read

/-! ## Character by character -/

/-- Nothing is missing before a token that opens no operand, so an operand ends
there. -/
theorem Token.closesOperand_of_clashes {prev t : Token} (hopens : t.opensOperand = false)
    (ht : t ≠ .rightParen) (hclash : prev.clashes t = false) : prev.closesOperand = true := by
  simpa [clashes, hopens, ht] using hclash

theorem Token.ofChar?_cases {c : Char} {token : Token} (h : ofChar? c = some token) :
    token = .symbol c ∨ token = .union ∧ c = '|' ∨ token = .star ∧ c = '*' ∨
      token = .plus ∧ c = '+' ∨ token = .leftParen ∧ c = '(' ∨ token = .rightParen ∧ c = ')' := by
  unfold ofChar? at h
  split at h
  · simp at h
  · have heq := (Option.some.inj h).symm
    split at heq <;> simp [heq]

theorem Token.ne_concat_of_ofChar? {c : Char} {token : Token} (h : ofChar? c = some token) :
    token ≠ .concat := by
  rcases ofChar?_cases h with rfl | ⟨rfl, -⟩ | ⟨rfl, -⟩ | ⟨rfl, -⟩ | ⟨rfl, -⟩ | ⟨rfl, -⟩ <;> simp

open Lexeme

theorem Lexeme.nesting_insertConcatsAfter (depth : Nat) (prev : Token) (xs : List Lexeme) :
    nesting depth (insertConcatsAfter prev xs) = nesting depth xs := by
  induction xs generalizing depth prev with
  | nil => rfl
  | cons x xs ih =>
      have hcons :
          nesting depth (x :: insertConcatsAfter x.token xs) = nesting depth (x :: xs) := by
        rw [nesting, nesting, ih, ih, ih]
      rw [insertConcatsAfter]
      split
      · rw [nesting_cons_of_not_isBracket rfl, hcons]
      · exact hcons

theorem Lexeme.ne_concat_of_scan {xs : List Lexeme} (h : scan pos cs = .ok xs) :
    ∀ x ∈ xs, x.token ≠ .concat := by
  induction cs generalizing pos xs with
  | nil =>
      obtain rfl : [] = xs := Except.ok.inj h
      simp
  | cons c cs ih =>
      obtain ⟨token, rest, htoken, hrest, rfl⟩ := scan_cons_iff.1 h
      exact List.forall_mem_cons.2 ⟨Token.ne_concat_of_ofChar? htoken, ih hrest⟩

/-- One character more has been read, and the brackets that follow match what is
open now. -/
theorem Read.exists_step {prev token : Token} {depth p : Nat} {c : Char} {rest : List Lexeme}
    (h : Read prev depth cs) (htoken : Token.ofChar? c = some token)
    (hclash : prev.clashes token = false) (hnesting : nesting depth (⟨p, token⟩ :: rest) = some 0) :
    ∃ later, Read token later (cs ++ [c]) ∧ nesting later rest = some 0 := by
  rcases Token.ofChar?_cases htoken with
    rfl | ⟨rfl, rfl⟩ | ⟨rfl, rfl⟩ | ⟨rfl, rfl⟩ | ⟨rfl, rfl⟩ | ⟨rfl, rfl⟩
  · rw [nesting_cons_of_not_isBracket rfl] at hnesting
    exact ⟨depth, h.operand rfl (.symbol (Token.ofChar?_eq_symbol_iff.1 htoken)), hnesting⟩
  · rw [nesting_cons_of_not_isBracket rfl] at hnesting
    have hprev := Token.closesOperand_of_clashes rfl (by decide) hclash
    exact ⟨depth, h.bar hprev, hnesting⟩
  · rw [nesting_cons_of_not_isBracket rfl] at hnesting
    have hprev := Token.closesOperand_of_clashes rfl (by decide) hclash
    exact ⟨depth, h.extend rfl Complete.star hprev, hnesting⟩
  · rw [nesting_cons_of_not_isBracket rfl] at hnesting
    have hprev := Token.closesOperand_of_clashes rfl (by decide) hclash
    exact ⟨depth, h.extend rfl Complete.plus hprev, hnesting⟩
  · rw [nesting, if_pos rfl] at hnesting
    exact ⟨depth + 1, h.opening, hnesting⟩
  · rw [nesting, if_neg (by simp), if_pos rfl] at hnesting
    cases depth with
    | zero => simp at hnesting
    | succ depth => exact ⟨depth, h.closing hclash, by simpa using hnesting⟩

theorem Read.exists_derives {prev : Token} {depth : Nat} {xs : List Lexeme}
    (h : Read prev depth cs) (hscan : scan (byteLength cs) ds = .ok xs)
    (hfaults : faults prev xs = 0) (hnesting : nesting depth xs = some 0) :
    ∃ t, Derives .alternatives 0 (cs ++ ds) t := by
  induction ds generalizing prev depth cs xs with
  | nil =>
      obtain rfl : [] = xs := Except.ok.inj hscan
      obtain rfl := Option.some.inj hnesting
      rw [List.append_nil]
      exact h.derives (by simpa [faults] using hfaults)
  | cons c ds ih =>
      obtain ⟨token, rest, htoken, hrest, rfl⟩ := scan_cons_iff.1 hscan
      rw [faults, Nat.add_eq_zero_iff, Bool.toNat_eq_zero] at hfaults
      obtain ⟨later, hread, hlater⟩ := h.exists_step htoken hfaults.1 hnesting
      rw [List.append_cons]
      refine ih hread ?_ hfaults.2 hlater
      rw [byteLength_append, byteLength_cons, byteLength_nil, Nat.add_zero]
      exact hrest

theorem Lexeme.ne_nil_of_ofPattern {pattern : String} {xs : List Lexeme}
    (h : ofPattern pattern = .ok xs) (hne : pattern ≠ "") : xs ≠ [] := by
  obtain ⟨c, cs, hcs⟩ := List.exists_cons_of_ne_nil (mt String.toList_eq_nil_iff.1 hne)
  rw [ofPattern, hcs] at h
  obtain ⟨token, rest, -, -, rfl⟩ := scan_cons_iff.1 h
  exact List.cons_ne_nil _ _

theorem Pattern.faults_eq_zero_of_compile {limit : SizeLimit} {pattern : String} {a : Automaton}
    (h : compile limit pattern = .ok a) (hne : pattern ≠ "") :
    ∃ xs, ofPattern pattern = .ok xs ∧ faults .union xs = 0 ∧ nesting 0 xs = some 0 := by
  obtain ⟨ys, hys, heval⟩ := bind_eq_ok.1 h
  obtain ⟨xs, hscan, horder⟩ := bind_eq_ok.1 hys
  obtain ⟨stack, hstack, -⟩ := bind_eq_ok.1 heval
  rw [mapError_eq_ok] at horder
  have hnesting := nesting_of_reversePolish horder
  rw [← insertConcatsAfter_union, nesting_insertConcatsAfter] at hnesting
  have hxs := ne_nil_of_ofPattern hscan hne
  exact ⟨xs, hscan, faults_eq_zero hxs (ne_concat_of_scan hscan) horder hstack, hnesting⟩

theorem Pattern.exists_derives_of_compile {limit : SizeLimit} {pattern : String} {a : Automaton}
    (h : compile limit pattern = .ok a) : pattern = "" ∨ ∃ t, Derives.Whole pattern t := by
  by_cases hne : pattern = ""
  · exact .inl hne
  · obtain ⟨xs, hscan, hfaults, hnesting⟩ := faults_eq_zero_of_compile h hne
    have hread : Read .union 0 ([] ++ []) := .ready rfl (by simp) .nil .start
    exact .inr (hread.exists_derives hscan hfaults hnesting)

end PatternAutomata
