import PatternAutomata.Proofs.Offsets
import PatternAutomata.Proofs.Order

/-!
# The tree of a pattern

A tree can be read back from its postorder, which is done on a stack of trees
in the way evaluation is done on a stack of operands. So two trees with the same
postorder are the same (`Tree.postorder_injective`), and since the lexemes of a
pattern come out in the postorder of every tree that the pattern is derived for,
there is one such tree only.
-/

namespace PatternAutomata

namespace Tree

/-- Puts a lexeme on a stack of trees, on top of the trees that it takes. -/
def plant (stack : List Tree) (x : Lexeme) : List Tree :=
  match x.token, stack with
  | .symbol c, _ => .symbol x.pos c :: stack
  | .emptyGroup, _ => .emptyGroup x.pos :: stack
  | .concat, r :: l :: below => .concat x.pos l r :: below
  | .union, r :: l :: below => .union x.pos l r :: below
  | .star, t :: below => .star x.pos t :: below
  | .plus, t :: below => .plus x.pos t :: below
  | _, _ => stack

theorem foldl_plant_postorder (t : Tree) (stack : List Tree) :
    t.postorder.foldl plant stack = t :: stack := by
  induction t generalizing stack with
  | symbol pos c => rfl
  | emptyGroup pos => rfl
  | concat pos l r ihl ihr | union pos l r ihl ihr =>
      rw [postorder, List.foldl_append, List.foldl_append, ihl, ihr]
      rfl
  | star pos t ih | plus pos t ih =>
      rw [postorder, List.foldl_append, ih]
      rfl

theorem postorder_injective : Function.Injective postorder := by
  intro t u h
  have hstack := foldl_plant_postorder t []
  rw [h, foldl_plant_postorder] at hstack
  exact (List.cons.inj hstack).1.symm

end Tree

/-- The lexemes of a pattern in reverse Polish order are the postorder of the
one tree that it has, and each of them has its place in the text. -/
theorem Derives.Whole.reversePolish_eq_postorder {pattern : String} {t : Tree}
    (h : Derives.Whole pattern t) :
    (∃ xs, Lexeme.ofPattern pattern = .ok xs ∧
      Lexeme.reversePolish (Lexeme.insertConcats xs) = .ok t.postorder) ∧
    (∀ u, Derives.Whole pattern u → u = t) ∧
    ∀ x ∈ t.postorder, x.Located pattern.toList := by
  have hpattern := h.inReversePolish_eq
  refine ⟨?_, fun u hu => ?_, Pattern.located_of_inReversePolish hpattern⟩
  · obtain ⟨xs, hxs, horder⟩ := bind_eq_ok.1 hpattern
    exact ⟨xs, hxs, mapError_eq_ok.1 horder⟩
  · have heq := hu.inReversePolish_eq.symm.trans hpattern
    exact Tree.postorder_injective (Except.ok.inj heq)

/-- A symbol of two bytes, a group and an empty group. -/
theorem Derives.Whole.reversePolish_eq_postorder_group :
    ∃ t xs, Derives.Whole "λ(a|b)+()" t ∧ Lexeme.ofPattern "λ(a|b)+()" = .ok xs ∧
      Lexeme.reversePolish (Lexeme.insertConcats xs) = .ok t.postorder ∧
      t.postorder = [⟨0, .symbol 'λ'⟩, ⟨3, .symbol 'a'⟩, ⟨5, .symbol 'b'⟩, ⟨4, .union⟩,
        ⟨7, .plus⟩, ⟨2, .concat⟩, ⟨9, .emptyGroup⟩, ⟨8, .concat⟩] := by
  have hunion : Derives .alternatives 3 (['a'] ++ '|' :: ['b'])
      (.union 4 (.symbol 3 'a') (.symbol 5 'b')) :=
    .union (.sequence (.repetition (.atom (.symbol (by decide))))) (.repetition (.atom (.symbol (by decide))))
  have hfirst : Derives .sequence 0 (['λ'] ++ ('(' :: (['a'] ++ '|' :: ['b']) ++ [')'] ++ ['+']))
      (.concat 2 (.symbol 0 'λ') (.plus 7 (.union 4 (.symbol 3 'a') (.symbol 5 'b')))) :=
    .concat (.repetition (.atom (.symbol (by decide)))) (.plus (.atom (.group hunion)))
  have hwhole : Derives.Whole "λ(a|b)+()" _ := .sequence (.concat hfirst (.atom .emptyGroup))
  obtain ⟨⟨xs, hxs, horder⟩, -, -⟩ := hwhole.reversePolish_eq_postorder
  exact ⟨_, xs, hwhole, hxs, horder, rfl⟩

end PatternAutomata
