import PatternAutomata.Proofs.Reading

/-!
# Where lexemes stand

Every lexeme that comes out in reverse Polish order has a place in the text. A
token that is written stands at its own offset, an empty group at the offset of
its closing bracket, and a concatenation at the offset of the operand behind it
(`Located`). The text need not be a pattern for that, as long as its lexemes
can be put in order.

A place is given by what is before it: the text is split in two, and the offset
is the number of bytes of the first part.
-/

namespace PatternAutomata

/-- The character begins at the offset. -/
def StandsAt (cs : List Char) (pos : Nat) (c : Char) : Prop :=
  ∃ pre post, cs = pre ++ c :: post ∧ byteLength pre = pos

theorem eq_nil_of_byteLength {cs : List Char} (h : byteLength cs = 0) : cs = [] := by
  cases cs with
  | nil => rfl
  | cons c cs =>
      have hpos := c.utf8Size_pos
      rw [byteLength_cons] at h
      omega

/-- Only one character begins at an offset. -/
theorem StandsAt.unique {cs : List Char} {pos : Nat} {c d : Char} (hc : StandsAt cs pos c)
    (hd : StandsAt cs pos d) : c = d := by
  obtain ⟨pre, post, hcs, hpos⟩ := hc
  obtain ⟨pre', post', hcs', hpos'⟩ := hd
  rw [hcs, List.append_eq_append_iff] at hcs'
  rcases hcs' with ⟨us, rfl, hus⟩ | ⟨us, rfl, hus⟩
  · rw [← hpos, byteLength_append] at hpos'
    obtain rfl : us = [] := eq_nil_of_byteLength (by omega)
    exact (List.cons.inj hus).1
  · rw [← hpos', byteLength_append] at hpos
    obtain rfl : us = [] := eq_nil_of_byteLength (by omega)
    exact (List.cons.inj hus).1.symm

theorem Token.glyph_of_ofChar? {c : Char} {t : Token} (h : ofChar? c = some t) : t.glyph = c := by
  rcases ofChar?_cases h with rfl | ⟨rfl, rfl⟩ | ⟨rfl, rfl⟩ | ⟨rfl, rfl⟩ | ⟨rfl, rfl⟩ | ⟨rfl, rfl⟩ <;>
    rfl

namespace Lexeme

/-- The place of a lexeme in a text. -/
inductive Located (cs : List Char) : Lexeme → Prop
  | written {pos : Nat} {c : Char} {token : Token} :
      Token.ofChar? c = some token → StandsAt cs pos c → Located cs ⟨pos, token⟩
  | emptyGroup {pre post : List Char} :
      cs = pre ++ '(' :: ')' :: post → Located cs ⟨byteLength (pre ++ ['(']), .emptyGroup⟩
  | concat {pre post : List Char} {c d : Char} {s t : Token} :
      cs = pre ++ d :: c :: post → Token.ofChar? d = some s → s.closesOperand = true →
      Token.ofChar? c = some t → t.opensOperand = true →
      Located cs ⟨byteLength (pre ++ [d]), .concat⟩

variable {x y : Lexeme} {xs : List Lexeme} {pre cs : List Char} {d : Char} {prev : Token}

/-- A written token stands where it is written. -/
theorem standsAt_of_scan (h : scan (byteLength pre) cs = .ok xs) :
    ∀ x ∈ xs, StandsAt (pre ++ cs) x.pos x.token.glyph := by
  induction cs generalizing pre xs with
  | nil =>
      obtain rfl : [] = xs := Except.ok.inj h
      simp
  | cons c cs ih =>
      obtain ⟨token, rest, htoken, hrest, rfl⟩ := scan_cons_iff.1 h
      rw [List.forall_mem_cons]
      refine ⟨⟨pre, cs, by rw [Token.glyph_of_ofChar? htoken], rfl⟩, ?_⟩
      rw [List.append_cons]
      refine ih ?_
      rw [byteLength_append, byteLength_cons, byteLength_nil, Nat.add_zero]
      exact hrest

theorem standsAt_of_ofPattern {pattern : String} (h : ofPattern pattern = .ok xs) :
    ∀ x ∈ xs, StandsAt pattern.toList x.pos x.token.glyph := by
  have hscan : scan (byteLength []) pattern.toList = .ok xs := h
  exact standsAt_of_scan hscan

theorem eq_of_mem_yield {prev : Option Token} (h : y ∈ x.yield prev) :
    y = x ∨ prev = some .leftParen ∧ x.token = .rightParen ∧ y = ⟨x.pos, .emptyGroup⟩ := by
  rw [yield] at h
  split at h
  · simp at h
  · rename_i hx
    split at h
    · rename_i hprev
      exact .inr ⟨hprev, hx, List.mem_singleton.1 h⟩
    · simp at h
  · exact .inl (List.mem_singleton.1 h)

/-- The lexemes of what follows a character, with all that is put in or left
out behind it, have their places in the text. -/
theorem located_of_mem_unbracketed (hd : Token.ofChar? d = some prev)
    (hscan : scan (byteLength (pre ++ [d])) cs = .ok xs) :
    ∀ x ∈ unbracketed (some prev) (insertConcatsAfter prev xs), x.Located (pre ++ d :: cs) := by
  induction cs generalizing pre d prev xs with
  | nil =>
      obtain rfl : [] = xs := Except.ok.inj hscan
      simp [insertConcatsAfter, unbracketed]
  | cons c cs ih =>
      obtain ⟨token, rest, htoken, hrest, rfl⟩ := scan_cons_iff.1 hscan
      have hwritten : Located (pre ++ d :: c :: cs) ⟨byteLength (pre ++ [d]), token⟩ :=
        .written htoken ⟨pre ++ [d], cs, by simp, rfl⟩
      have hlater : ∀ x ∈ unbracketed (some token) (insertConcatsAfter token rest),
          x.Located (pre ++ d :: c :: cs) := by
        rw [List.append_cons pre d]
        refine ih htoken ?_
        rw [byteLength_append, byteLength_cons, byteLength_nil, Nat.add_zero]
        exact hrest
      rw [insertConcatsAfter]
      split
      · rename_i hoperands
        rw [Bool.and_eq_true] at hoperands
        obtain ⟨hcloses, hopens⟩ := hoperands
        rw [unbracketed, unbracketed, yield_of_not_isBracket rfl]
        simp only [List.forall_mem_append, List.forall_mem_singleton]
        refine ⟨.concat rfl hd hcloses htoken hopens, fun y hy => ?_, hlater⟩
        rcases eq_of_mem_yield hy with rfl | ⟨hprev, -, -⟩
        · exact hwritten
        · cases hprev
      · simp only [unbracketed, List.forall_mem_append]
        refine ⟨fun y hy => ?_, hlater⟩
        rcases eq_of_mem_yield hy with rfl | ⟨hprev, hclose, rfl⟩
        · exact hwritten
        · rw [Option.some.inj hprev] at hd
          obtain rfl : token = .rightParen := hclose
          obtain rfl : '(' = d := Token.glyph_of_ofChar? hd
          obtain rfl : ')' = c := Token.glyph_of_ofChar? htoken
          exact .emptyGroup rfl

end Lexeme

open Lexeme

theorem Pattern.located_of_inReversePolish {pattern : String} {ys : List Lexeme}
    (h : inReversePolish pattern = .ok ys) : ∀ y ∈ ys, y.Located pattern.toList := by
  obtain ⟨xs, hscan, horder⟩ := bind_eq_ok.1 h
  rw [mapError_eq_ok] at horder
  have hperm := perm_unbracketed horder
  rw [ofPattern] at hscan
  generalize pattern.toList = cs at hscan
  intro y hy
  replace hy := hperm.mem_iff.1 hy
  cases cs with
  | nil =>
      obtain rfl : [] = xs := Except.ok.inj hscan
      simp [insertConcats, unbracketed] at hy
  | cons c cs =>
      obtain ⟨token, rest, htoken, hrest, rfl⟩ := scan_cons_iff.1 hscan
      rw [insertConcats_cons, unbracketed, List.mem_append] at hy
      rcases hy with hy | hy
      · rcases eq_of_mem_yield hy with rfl | ⟨hprev, -, -⟩
        · exact .written htoken ⟨[], cs, rfl, rfl⟩
        · cases hprev
      · have hscan' : scan (byteLength ([] ++ [c])) cs = .ok rest := by
          rw [List.nil_append, byteLength_cons, byteLength_nil, Nat.add_comm]
          exact hrest
        exact located_of_mem_unbracketed htoken hscan' y hy

end PatternAutomata
