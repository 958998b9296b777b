import PatternAutomata.Pattern.Grammar
import PatternAutomata.Proofs.Results

/-!
# The lexemes of a pattern

What the grammar says about a text of characters, said about the lexemes that
the text is cut into, with the concatenations put in: `Spells` has a rule for
each rule of `Derives`, and `Derives.exists_lexemes` takes one to the other.

A concatenation is put between two lexemes on account of these two alone, so
the passage looks at the ends of the parts of a text: a part begins with a
token that opens an operand, and it ends with one that completes it.
-/

namespace PatternAutomata

/-! ## Texts in parts -/

@[simp] theorem byteLength_nil : byteLength [] = 0 := rfl

@[simp] theorem byteLength_cons (c : Char) (cs : List Char) :
    byteLength (c :: cs) = c.utf8Size + byteLength cs := by
  simp [byteLength]

@[simp] theorem byteLength_append (cs ds : List Char) :
    byteLength (cs ++ ds) = byteLength cs + byteLength ds := by
  simp [byteLength]

namespace Lexeme

variable {pos : Nat} {cs ds : List Char} {xs ys : List Lexeme} {prev : Token}

theorem scan_cons_iff {c : Char} :
    scan pos (c :: cs) = .ok xs ↔ ∃ token rest, Token.ofChar? c = some token ∧
      scan (pos + c.utf8Size) cs = .ok rest ∧ xs = ⟨pos, token⟩ :: rest := by
  rw [scan]
  cases Token.ofChar? c with
  | none => simp
  | some token =>
      simp only [bind_eq_ok, pure_eq_ok]
      refine ⟨fun ⟨rest, hrest, hxs⟩ => ⟨token, rest, rfl, hrest, hxs.symm⟩, ?_⟩
      intro ⟨_, rest, htoken, hrest, hxs⟩
      obtain rfl := Option.some.inj htoken
      exact ⟨rest, hrest, hxs.symm⟩

theorem scan_append (hxs : scan pos cs = .ok xs)
    (hys : scan (pos + byteLength cs) ds = .ok ys) : scan pos (cs ++ ds) = .ok (xs ++ ys) := by
  induction cs generalizing pos xs with
  | nil =>
      obtain rfl : [] = xs := Except.ok.inj hxs
      exact hys
  | cons c cs ih =>
      obtain ⟨token, rest, htoken, hrest, rfl⟩ := scan_cons_iff.1 hxs
      rw [byteLength_cons, ← Nat.add_assoc] at hys
      exact scan_cons_iff.2 ⟨token, rest ++ ys, htoken, ih hrest hys, rfl⟩

/-- The lexemes of a text in two parts are those of the parts. -/
theorem exists_scan_append {zs : List Lexeme} (h : scan pos (cs ++ ds) = .ok zs) :
    ∃ xs ys, scan pos cs = .ok xs ∧ scan (pos + byteLength cs) ds = .ok ys ∧ zs = xs ++ ys := by
  induction cs generalizing pos zs with
  | nil => exact ⟨[], zs, rfl, h, rfl⟩
  | cons c cs ih =>
      obtain ⟨token, rest, htoken, hrest, rfl⟩ := scan_cons_iff.1 h
      obtain ⟨xs, ys, hxs, hys, rfl⟩ := ih hrest
      rw [byteLength_cons, ← Nat.add_assoc]
      exact ⟨⟨pos, token⟩ :: xs, ys, scan_cons_iff.2 ⟨token, xs, htoken, hxs, rfl⟩, hys, rfl⟩

/-! ## Concatenations -/

/-- The token at the end of the lexemes, or the one before them. -/
def lastToken (prev : Token) (xs : List Lexeme) : Token :=
  xs.foldl (fun _ x => x.token) prev

theorem lastToken_append (prev : Token) {ys : List Lexeme} (h : ys ≠ []) (xs : List Lexeme) :
    lastToken prev (xs ++ ys) = lastToken prev ys := by
  obtain ⟨y, rest, rfl⟩ := List.exists_cons_of_ne_nil h
  rw [lastToken, List.foldl_append]
  rfl

def insertConcatsAfter (prev : Token) : List Lexeme → List Lexeme
  | [] => []
  | x :: rest =>
      if prev.closesOperand && x.token.opensOperand then
        ⟨x.pos, .concat⟩ :: x :: insertConcatsAfter x.token rest
      else x :: insertConcatsAfter x.token rest

theorem insertConcats_cons (x : Lexeme) (xs : List Lexeme) :
    insertConcats (x :: xs) = x :: insertConcatsAfter x.token xs := by
  induction xs generalizing x with
  | nil => rfl
  | cons y xs ih =>
      rw [insertConcats, insertConcatsAfter, ih y]
      split <;> rfl

/-- No concatenation is put before the first lexeme if no operand ends there. -/
theorem insertConcatsAfter_of_not_closes (h : prev.closesOperand = false) :
    insertConcatsAfter prev xs = insertConcats xs := by
  cases xs with
  | nil => rfl
  | cons x xs => rw [insertConcatsAfter, insertConcats_cons, h, Bool.false_and, if_neg (by simp)]

/-- The beginning of a pattern is a place like the one behind a `|`. -/
theorem insertConcatsAfter_union (xs : List Lexeme) :
    insertConcatsAfter .union xs = insertConcats xs :=
  insertConcatsAfter_of_not_closes rfl

theorem insertConcatsAfter_of_not_opens {x : Lexeme} (h : x.token.opensOperand = false) :
    insertConcatsAfter prev (x :: xs) = insertConcats (x :: xs) := by
  rw [insertConcatsAfter, insertConcats_cons, h, Bool.and_false, if_neg (by simp)]

theorem insertConcatsAfter_append (prev : Token) (xs ys : List Lexeme) :
    insertConcatsAfter prev (xs ++ ys) =
      insertConcatsAfter prev xs ++ insertConcatsAfter (lastToken prev xs) ys := by
  induction xs generalizing prev with
  | nil => rfl
  | cons x xs ih =>
      rw [List.cons_append, insertConcatsAfter, insertConcatsAfter, ih]
      split <;> rfl

theorem insertConcats_append (xs ys : List Lexeme) :
    insertConcats (xs ++ ys) = insertConcats xs ++ insertConcatsAfter (lastToken .union xs) ys := by
  rw [← insertConcatsAfter_union, insertConcatsAfter_append, insertConcatsAfter_union]

/-! ## Operands in a row -/

/-- The lexemes begin at the offset with one that opens an operand, and end with
one that completes an operand. -/
structure Delimited (pos : Nat) (xs : List Lexeme) : Prop where
  opens : ∃ x rest, xs = x :: rest ∧ x.pos = pos ∧ x.token.opensOperand = true
  closes : (lastToken .union xs).closesOperand = true

namespace Delimited

theorem append (h : Delimited pos xs) (hys : ys ≠ [])
    (hlast : (lastToken .union ys).closesOperand = true) : Delimited pos (xs ++ ys) where
  opens := by
    obtain ⟨x, rest, rfl, hpos, hopens⟩ := h.opens
    exact ⟨x, rest ++ ys, rfl, hpos, hopens⟩
  closes := by
    rw [lastToken_append _ hys]
    exact hlast

/-- Two operands in a row have a concatenation between them, at the offset of
the second one. -/
theorem insertConcats_append (h : Delimited pos xs) {q : Nat} (k : Delimited q ys) :
    insertConcats (xs ++ ys) = insertConcats xs ++ ⟨q, .concat⟩ :: insertConcats ys := by
  obtain ⟨y, rest, rfl, rfl, hopens⟩ := k.opens
  rw [Lexeme.insertConcats_append, insertConcatsAfter, h.closes, hopens, Bool.and_true,
    if_pos rfl, insertConcats_cons]

end Delimited

theorem insertConcats_append_of_not_opens {x : Lexeme} (h : x.token.opensOperand = false) :
    insertConcats (xs ++ x :: ys) = insertConcats xs ++ insertConcats (x :: ys) := by
  rw [insertConcats_append, insertConcatsAfter_of_not_opens h]

theorem insertConcats_cons_of_not_closes {x : Lexeme} (h : x.token.closesOperand = false) :
    insertConcats (x :: xs) = x :: insertConcats xs := by
  rw [insertConcats_cons, insertConcatsAfter_of_not_closes h]

end Lexeme

/-! ## Spellings -/

/-- The lexemes of a tree, with all concatenations put in. -/
inductive Spells : Level → List Lexeme → Tree → Prop
  | symbol {pos : Nat} {c : Char} : Spells .atom [⟨pos, .symbol c⟩] (.symbol pos c)
  | emptyGroup {p pos : Nat} :
      Spells .atom [⟨p, .leftParen⟩, ⟨pos, .rightParen⟩] (.emptyGroup pos)
  | group {p q : Nat} {xs : List Lexeme} {t : Tree} :
      Spells .alternatives xs t →
        Spells .atom (⟨p, .leftParen⟩ :: xs ++ [⟨q, .rightParen⟩]) t
  | atom {xs : List Lexeme} {t : Tree} : Spells .atom xs t → Spells .repetition xs t
  | star {pos : Nat} {xs : List Lexeme} {t : Tree} :
      Spells .repetition xs t → Spells .repetition (xs ++ [⟨pos, .star⟩]) (.star pos t)
  | plus {pos : Nat} {xs : List Lexeme} {t : Tree} :
      Spells .repetition xs t → Spells .repetition (xs ++ [⟨pos, .plus⟩]) (.plus pos t)
  | repetition {xs : List Lexeme} {t : Tree} : Spells .repetition xs t → Spells .sequence xs t
  | concat {pos : Nat} {xs ys : List Lexeme} {l r : Tree} :
      Spells .sequence xs l → Spells .repetition ys r →
        Spells .sequence (xs ++ ⟨pos, .concat⟩ :: ys) (.concat pos l r)
  | sequence {xs : List Lexeme} {t : Tree} : Spells .sequence xs t → Spells .alternatives xs t
  | union {pos : Nat} {xs ys : List Lexeme} {l r : Tree} :
      Spells .alternatives xs l → Spells .sequence ys r →
        Spells .alternatives (xs ++ ⟨pos, .union⟩ :: ys) (.union pos l r)

open Lexeme

/-- A text that the grammar derives has lexemes that spell its tree. -/
theorem Derives.exists_lexemes {level : Level} {pos : Nat} {cs : List Char} {t : Tree}
    (h : Derives level pos cs t) :
    ∃ xs, scan pos cs = .ok xs ∧ Spells level (insertConcats xs) t ∧ Delimited pos xs := by
  induction h with
  | @symbol pos c hc =>
      refine ⟨[⟨pos, .symbol c⟩], ?_, .symbol, ⟨_, _, rfl, rfl, rfl⟩, rfl⟩
      exact scan_cons_iff.2 ⟨_, _, Token.ofChar?_eq_symbol_iff.2 hc, rfl, rfl⟩
  | @emptyGroup pos =>
      exact ⟨[⟨pos, .leftParen⟩, ⟨pos + 1, .rightParen⟩], rfl, .emptyGroup,
        ⟨_, _, rfl, rfl, rfl⟩, rfl⟩
  | @group pos cs t _ ih =>
      obtain ⟨xs, hscan, hspells, hdelim⟩ := ih
      have hclose : scan (pos + 1 + byteLength cs) [')'] =
          .ok [⟨pos + 1 + byteLength cs, .rightParen⟩] := rfl
      refine ⟨_, scan_cons_iff.2 ⟨.leftParen, _, rfl, scan_append hscan hclose, rfl⟩, ?_, ?_⟩
      · rw [insertConcats_cons_of_not_closes rfl, insertConcats_append_of_not_opens rfl]
        exact .group hspells
      · refine ⟨⟨_, _, rfl, rfl, rfl⟩, ?_⟩
        rw [← List.cons_append, lastToken_append _ (List.cons_ne_nil _ _)]
        rfl
  | atom _ ih =>
      obtain ⟨xs, hscan, hspells, hdelim⟩ := ih
      exact ⟨xs, hscan, .atom hspells, hdelim⟩
  | @star pos cs t _ ih =>
      obtain ⟨xs, hscan, hspells, hdelim⟩ := ih
      have hop : scan (pos + byteLength cs) ['*'] = .ok [⟨pos + byteLength cs, .star⟩] := rfl
      refine ⟨_, scan_append hscan hop, ?_, hdelim.append (List.cons_ne_nil _ _) rfl⟩
      rw [insertConcats_append_of_not_opens rfl]
      exact .star hspells
  | @plus pos cs t _ ih =>
      obtain ⟨xs, hscan, hspells, hdelim⟩ := ih
      have hop : scan (pos + byteLength cs) ['+'] = .ok [⟨pos + byteLength cs, .plus⟩] := rfl
      refine ⟨_, scan_append hscan hop, ?_, hdelim.append (List.cons_ne_nil _ _) rfl⟩
      rw [insertConcats_append_of_not_opens rfl]
      exact .plus hspells
  | repetition _ ih =>
      obtain ⟨xs, hscan, hspells, hdelim⟩ := ih
      exact ⟨xs, hscan, .repetition hspells, hdelim⟩
  | concat _ _ ihl ihr =>
      obtain ⟨xs, hxs, hleft, hdelim⟩ := ihl
      obtain ⟨ys, hys, hright, hdelim'⟩ := ihr
      obtain ⟨y, rest, heq, -, -⟩ := hdelim'.opens
      refine ⟨xs ++ ys, scan_append hxs hys, ?_,
        hdelim.append (heq ▸ List.cons_ne_nil y rest) hdelim'.closes⟩
      rw [hdelim.insertConcats_append hdelim']
      exact .concat hleft hright
  | sequence _ ih =>
      obtain ⟨xs, hscan, hspells, hdelim⟩ := ih
      exact ⟨xs, hscan, .sequence hspells, hdelim⟩
  | @union pos cs ds l r _ _ ihl ihr =>
      obtain ⟨xs, hxs, hleft, hdelim⟩ := ihl
      obtain ⟨ys, hys, hright, hdelim'⟩ := ihr
      have hbar : scan (pos + byteLength cs) ('|' :: ds) =
          .ok (⟨pos + byteLength cs, .union⟩ :: ys) :=
        scan_cons_iff.2 ⟨.union, ys, rfl, hys, rfl⟩
      refine ⟨_, scan_append hxs hbar, ?_, hdelim.append (List.cons_ne_nil _ _) hdelim'.closes⟩
      rw [insertConcats_append_of_not_opens rfl, insertConcats_cons_of_not_closes rfl]
      exact .union hleft hright

end PatternAutomata
