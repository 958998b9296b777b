import Mathlib.Data.List.Chain
import PatternAutomata.Proofs.Acceptance

/-!
# Patterns in brackets

Writing an operator behind a text in brackets is applying the operator to the
automaton of the text (`Pattern.compile_bracketed`). A text in brackets is one
operand whatever operators stand in it, since the grammar derives it anew at its
new place, from the same tree up to offsets, and nothing that is built depends
on offsets (`Tree.Makes.shift`).

Concatenation alone looks into its operands: text is joined with text, through
any number of brackets. So what two texts in brackets give depends on whether
both of them are kept as text, and that can be seen from their characters
(`Plain`, `Derives.folded`).
-/

namespace PatternAutomata

/-! ## Patterns at another place -/

namespace Tree

/-- The tree of a text that stands `k` bytes further on. -/
def shift (k : Nat) : Tree → Tree
  | symbol pos c => symbol (pos + k) c
  | emptyGroup pos => emptyGroup (pos + k)
  | concat pos l r => concat (pos + k) (l.shift k) (r.shift k)
  | union pos l r => union (pos + k) (l.shift k) (r.shift k)
  | star pos t => star (pos + k) (t.shift k)
  | plus pos t => plus (pos + k) (t.shift k)

theorem Makes.shift {t : Tree} {x : Operand} (k : Nat) (h : t.Makes x) : (t.shift k).Makes x := by
  induction h with
  | symbol pos c => exact .symbol _ c
  | emptyGroup pos => exact .emptyGroup _
  | join pos _ _ ihl ihr => exact .join _ ihl ihr
  | concat pos _ _ hne ha hb ihl ihr => exact .concat _ ihl ihr hne ha hb
  | union pos _ _ ha hb ihl ihr => exact .union _ ihl ihr ha hb
  | star pos _ ha ih => exact .star _ ih ha
  | plus pos _ ha ih => exact .plus _ ih ha

end Tree

theorem Derives.shift {level : Level} {pos : Nat} {cs : List Char} {t : Tree} (k : Nat)
    (h : Derives level pos cs t) : Derives level (pos + k) cs (t.shift k) := by
  induction h with
  | symbol hc => exact .symbol hc
  | emptyGroup =>
      rw [Tree.shift, Nat.add_right_comm]
      exact .emptyGroup
  | group _ ih =>
      rw [Nat.add_right_comm] at ih
      exact .group ih
  | atom _ ih => exact .atom ih
  | star _ ih =>
      rw [Tree.shift, Nat.add_right_comm]
      exact .star ih
  | plus _ ih =>
      rw [Tree.shift, Nat.add_right_comm]
      exact .plus ih
  | repetition _ ih => exact .repetition ih
  | concat _ _ ihl ihr =>
      rw [Nat.add_right_comm] at ihr
      rw [Tree.shift, Nat.add_right_comm]
      exact .concat ihl ihr
  | sequence _ ih => exact .sequence ih
  | @union pos cs _ _ _ _ _ ihl ihr =>
      rw [Nat.add_right_comm _ 1 k, Nat.add_right_comm pos] at ihr
      rw [Tree.shift, Nat.add_right_comm]
      exact .union ihl ihr

/-! ## Plain text -/

/-- The characters of a text that are no brackets. -/
def symbolsOf (cs : List Char) : List Char :=
  cs.filter fun c => c ≠ '(' ∧ c ≠ ')'

theorem symbolsOf_append (cs ds : List Char) :
    symbolsOf (cs ++ ds) = symbolsOf cs ++ symbolsOf ds :=
  List.filter_append ..

/-- The text has only symbols and brackets in it, some at least, and no pair of
brackets with nothing in between. -/
structure Plain (cs : List Char) : Prop where
  ne_nil : cs ≠ []
  symbols : ∀ c ∈ cs, c = '(' ∨ c = ')' ∨ IsSymbol c
  groups : cs.IsChain fun c d => c = '(' → d ≠ ')'

/-- The text does not begin with a closing bracket, nor end with an opening one. -/
structure Ends (cs : List Char) : Prop where
  ne_nil : cs ≠ []
  head : ∀ c ∈ cs.head?, c ≠ ')'
  last : ∀ c ∈ cs.getLast?, c ≠ '('

namespace Ends

variable {cs ds : List Char}

theorem singleton {c : Char} (hopen : c ≠ '(') (hclose : c ≠ ')') : Ends [c] where
  ne_nil := List.cons_ne_nil c []
  head _ hd := Option.mem_some.1 hd ▸ hclose
  last _ hd := Option.mem_some.1 hd ▸ hopen

theorem append (h : Ends cs) (hne : ds ≠ []) (hlast : ∀ c ∈ ds.getLast?, c ≠ '(') :
    Ends (cs ++ ds) where
  ne_nil := List.append_ne_nil_of_left_ne_nil h.ne_nil ds
  head := by
    rw [List.head?_append_of_ne_nil cs h.ne_nil]
    exact h.head
  last := by
    rw [List.getLast?_append_of_ne_nil cs hne]
    exact hlast

/-- No empty group arises where one operand follows another. -/
theorem plain_append_iff (h : Ends cs) (k : Ends ds) :
    Plain (cs ++ ds) ↔ Plain cs ∧ Plain ds := by
  constructor
  · intro hplain
    have hsymbols := List.forall_mem_append.1 hplain.symbols
    exact ⟨⟨h.ne_nil, hsymbols.1, hplain.groups.left_of_append⟩,
      ⟨k.ne_nil, hsymbols.2, hplain.groups.right_of_append⟩⟩
  · rintro ⟨hleft, hright⟩
    refine ⟨List.append_ne_nil_of_left_ne_nil h.ne_nil ds, ?_, ?_⟩
    · exact List.forall_mem_append.2 ⟨hleft.symbols, hright.symbols⟩
    · exact hleft.groups.append hright.groups fun c hc _ _ hopen =>
        absurd hopen (h.last c hc)

theorem plain_group_iff (h : Ends cs) : Plain ('(' :: cs ++ [')']) ↔ Plain cs := by
  constructor
  · intro hplain
    have hsymbols := (List.forall_mem_append.1 hplain.symbols).1
    exact ⟨h.ne_nil, (List.forall_mem_cons.1 hsymbols).2, hplain.groups.left_of_append.tail⟩
  · intro hplain
    have hopened : ('(' :: cs).IsChain fun c d => c = '(' → d ≠ ')' :=
      hplain.groups.cons fun d hd _ => h.head d hd
    refine ⟨List.cons_ne_nil _ _, ?_, ?_⟩
    · refine List.forall_mem_append.2 ⟨?_, List.forall_mem_singleton.2 (.inr (.inl rfl))⟩
      exact List.forall_mem_cons.2 ⟨.inl rfl, hplain.symbols⟩
    · refine hopened.append (List.isChain_singleton _) fun c hc _ _ hopen => ?_
      rw [List.getLast?_cons_of_ne_nil h.ne_nil] at hc
      exact absurd hopen (h.last c hc)

end Ends

theorem Derives.ends {level : Level} {pos : Nat} {cs : List Char} {t : Tree}
    (h : Derives level pos cs t) : Ends cs := by
  induction h with
  | symbol hc =>
      refine .singleton ?_ ?_
      · rintro rfl
        exact absurd hc (by decide)
      · rintro rfl
        exact absurd hc (by decide)
  | emptyGroup => exact ⟨List.cons_ne_nil _ _, by simp, by simp⟩
  | group _ _ =>
      refine ⟨List.cons_ne_nil _ _, by simp, ?_⟩
      rw [List.getLast?_concat]
      simp
  | atom _ ih | repetition _ ih | sequence _ ih => exact ih
  | star _ ih | plus _ ih => exact ih.append (List.cons_ne_nil _ _) (by simp)
  | concat _ _ ihl ihr => exact ihl.append ihr.ne_nil ihr.last
  | union _ _ ihl ihr =>
      refine ihl.append (List.cons_ne_nil _ _) ?_
      rw [List.getLast?_cons_of_ne_nil ihr.ne_nil]
      exact ihr.last

/-! ## What stays text -/

/-- Plain text is the text of its symbols, and nothing else is text. -/
def Operand.Folded (cs : List Char) : Operand → Prop
  | .text s => Plain cs ∧ s.toList = symbolsOf cs
  | .automaton _ => ¬ Plain cs

theorem Operand.Folded.isText_iff {cs : List Char} {x : Operand} (h : x.Folded cs) :
    x.isText = true ↔ Plain cs := by
  cases x with
  | text s => exact iff_of_true rfl h.1
  | automaton a => exact iff_of_false nofun h

theorem not_plain_of_mem {cs : List Char} {c : Char} (h : c ∈ cs) (hc : c ∈ ['|', '*', '+']) :
    ¬ Plain cs := by
  intro hplain
  rcases hplain.symbols c h with rfl | rfl | hsymbol
  · simp at hc
  · simp at hc
  · exact hsymbol.2 (List.mem_append_left ['(', ')'] hc)

theorem Derives.folded {level : Level} {pos : Nat} {cs : List Char} {t : Tree} {x : Operand}
    (h : Derives level pos cs t) (hx : t.Makes x) : x.Folded cs := by
  induction h generalizing x with
  | @symbol pos c hc =>
      cases hx
      have hends := (show Derives .atom pos [c] _ from .symbol hc).ends
      refine ⟨⟨hends.ne_nil, ?_, List.isChain_singleton c⟩, ?_⟩
      · exact List.forall_mem_singleton.2 (.inr (.inr hc))
      · have hopen := hends.last c rfl
        have hclose := hends.head c rfl
        simp [symbolsOf, hopen, hclose]
  | emptyGroup =>
      cases hx
      intro hplain
      exact List.isChain_pair.1 hplain.groups rfl rfl
  | @group pos cs t hinner ih =>
      have hfolded := ih hx
      have hplain := hinner.ends.plain_group_iff
      cases x with
      | automaton a => exact mt hplain.1 hfolded
      | text s =>
          refine ⟨hplain.2 hfolded.1, hfolded.2.trans ?_⟩
          simp [symbolsOf]
  | atom _ ih | repetition _ ih | sequence _ ih => exact ih hx
  | star _ _ =>
      cases hx
      exact not_plain_of_mem (c := '*') (by simp) (by decide)
  | plus _ _ =>
      cases hx
      exact not_plain_of_mem (c := '+') (by simp) (by decide)
  | @concat pos cs ds l r hl hr ihl ihr =>
      have hplain := hl.ends.plain_append_iff hr.ends
      cases hx with
      | join _ hleft hright =>
          obtain ⟨hcs, hs⟩ := ihl hleft
          obtain ⟨hds, hs'⟩ := ihr hright
          refine ⟨hplain.2 ⟨hcs, hds⟩, ?_⟩
          rw [String.toList_append, hs, hs', symbolsOf_append]
      | concat _ hleft hright hne _ _ =>
          intro hboth
          obtain ⟨hcs, hds⟩ := hplain.1 hboth
          rw [(ihl hleft).isText_iff.2 hcs, (ihr hright).isText_iff.2 hds] at hne
          cases hne
  | union _ _ _ _ =>
      cases hx
      exact not_plain_of_mem (c := '|') (by simp) (by decide)

/-! ## Operators behind brackets -/

/-- The text is derived at the offset, and makes the operand there. -/
def Yields (level : Level) (pos : Nat) (cs : List Char) (x : Operand) : Prop :=
  ∃ t, Derives level pos cs t ∧ t.Makes x

namespace Yields

variable {pos : Nat} {cs ds : List Char} {x y : Operand} {s s' : String} {a b : Automaton}
  {pattern : String}

theorem star (h : Yields .repetition pos cs x) (ha : x.build = .ok a) :
    Yields .repetition pos (cs ++ ['*']) (.automaton a.star) := by
  obtain ⟨t, ht, hx⟩ := h
  exact ⟨_, .star ht, .star _ hx ha⟩

theorem plus (h : Yields .repetition pos cs x) (ha : x.build = .ok a) :
    Yields .repetition pos (cs ++ ['+']) (.automaton a.plus) := by
  obtain ⟨t, ht, hx⟩ := h
  exact ⟨_, .plus ht, .plus _ hx ha⟩

theorem union (h : Yields .alternatives pos cs x)
    (k : Yields .sequence (pos + byteLength cs + 1) ds y) (ha : x.build = .ok a)
    (hb : y.build = .ok b) :
    Yields .alternatives pos (cs ++ '|' :: ds) (.automaton (a.union b)) := by
  obtain ⟨l, hl, hx⟩ := h
  obtain ⟨r, hr, hy⟩ := k
  exact ⟨_, .union hl hr, .union _ hx hy ha hb⟩

theorem join (h : Yields .sequence pos cs (.text s))
    (k : Yields .repetition (pos + byteLength cs) ds (.text s')) :
    Yields .sequence pos (cs ++ ds) (.text (s ++ s')) := by
  obtain ⟨l, hl, hx⟩ := h
  obtain ⟨r, hr, hy⟩ := k
  exact ⟨_, .concat hl hr, .join _ hx hy⟩

theorem concat (h : Yields .sequence pos cs x)
    (k : Yields .repetition (pos + byteLength cs) ds y) (hne : (x.isText && y.isText) = false)
    (ha : x.build = .ok a) (hb : y.build = .ok b) :
    Yields .sequence pos (cs ++ ds)
      (.automaton ((Automaton.emptyWord.concat a).concat b)) := by
  obtain ⟨l, hl, hx⟩ := h
  obtain ⟨r, hr, hy⟩ := k
  exact ⟨_, .concat hl hr, .concat _ hx hy hne ha hb⟩

theorem atom (h : Yields .atom pos cs x) : Yields .repetition pos cs x :=
  h.imp fun _ ht => ⟨.atom ht.1, ht.2⟩

theorem repetition (h : Yields .repetition pos cs x) : Yields .sequence pos cs x :=
  h.imp fun _ ht => ⟨.repetition ht.1, ht.2⟩

theorem sequence (h : Yields .sequence pos cs x) : Yields .alternatives pos cs x :=
  h.imp fun _ ht => ⟨.sequence ht.1, ht.2⟩

theorem compile_eq (h : Yields .alternatives 0 pattern.toList x) :
    Pattern.compile none pattern = x.build := by
  obtain ⟨t, ht, hx⟩ := h
  rw [Derives.Whole.compile_eq ht, hx.build_eq]

end Yields

namespace Pattern

variable {p q : String} {a b : Automaton}

/-- A text that compiles is, in brackets, an operand at every place. -/
theorem exists_yields_bracketed (ha : compile none p = .ok a) :
    ∃ x : Operand, x.build = .ok a ∧ x.Folded p.toList ∧
      ∀ pos, Yields .atom pos ('(' :: p.toList ++ [')']) x := by
  obtain rfl | ⟨t, ht⟩ := exists_derives_of_compile ha
  · -- The empty text has no tree, but it becomes an empty group in brackets.
    obtain rfl := Except.ok.inj ha
    exact ⟨.automaton .emptyWord, rfl, fun hplain => hplain.ne_nil rfl,
      fun pos => ⟨_, .emptyGroup, .emptyGroup _⟩⟩
  · rw [ht.compile_eq] at ha
    obtain ⟨x, hx, hb⟩ := Tree.exists_makes_of_build ha
    refine ⟨x, hb, ht.folded hx, fun pos => ⟨t.shift (pos + 1), .group ?_, hx.shift _⟩⟩
    have hmoved := ht.shift (pos + 1)
    rwa [Nat.zero_add] at hmoved

/-- A pattern in brackets does what the pattern does, and an operator behind
brackets or between them is applied to the automata of the patterns. In
sequence two plain texts become the text of their symbols, and any two other
patterns are put behind the empty word, one after the other. -/
theorem compile_bracketed (ha : compile none p = .ok a) (hb : compile none q = .ok b) :
    compile none ("(" ++ p ++ ")") = .ok a ∧
    compile none ("(" ++ p ++ ")*") = .ok a.star ∧
    compile none ("(" ++ p ++ ")+") = .ok a.plus ∧
    compile none ("(" ++ p ++ ")|(" ++ q ++ ")") = .ok (a.union b) ∧
    (Plain p.toList ∧ Plain q.toList → ∃ c,
      Automaton.ofText (.ofList (symbolsOf p.toList ++ symbolsOf q.toList)) = .ok c ∧
      compile none ("(" ++ p ++ ")(" ++ q ++ ")") = .ok c) ∧
    (¬ (Plain p.toList ∧ Plain q.toList) →
      compile none ("(" ++ p ++ ")(" ++ q ++ ")") =
        .ok ((Automaton.emptyWord.concat a).concat b)) := by
  obtain ⟨x, hx, hfolded, hp⟩ := exists_yields_bracketed ha
  obtain ⟨y, hy, hfolded', hq⟩ := exists_yields_bracketed hb
  have hgroup := (hp 0).atom
  have hboth : ("(" ++ p ++ ")(" ++ q ++ ")").toList =
      ('(' :: p.toList ++ [')']) ++ ('(' :: q.toList ++ [')']) := by simp
  refine ⟨?_, ?_, ?_, ?_, fun ⟨hplain, hplain'⟩ => ?_, fun hnot => ?_⟩
  · have hyields := hgroup.repetition.sequence
    rw [Yields.compile_eq (x := x) (by simpa using hyields), hx]
  · have hyields := (hgroup.star hx).repetition.sequence
    exact Yields.compile_eq (x := .automaton a.star) (by simpa using hyields)
  · have hyields := (hgroup.plus hx).repetition.sequence
    exact Yields.compile_eq (x := .automaton a.plus) (by simpa using hyields)
  · have hyields := hgroup.repetition.sequence.union (hq _).atom.repetition hx hy
    exact Yields.compile_eq (x := .automaton (a.union b)) (by simpa using hyields)
  · -- Both are text then, and what is built is the text of all their symbols.
    cases x with
    | automaton d => exact absurd hplain hfolded
    | text s =>
        cases y with
        | automaton d => exact absurd hplain' hfolded'
        | text s' =>
            have hyields := (hgroup.repetition.join (hq _).atom).sequence
            obtain ⟨c, hc⟩ := Operand.exists_build_iff.2 (Operand.inRange_append_iff.2
              ⟨Operand.exists_build_iff.1 ⟨a, hx⟩, Operand.exists_build_iff.1 ⟨b, hy⟩⟩)
            rw [← hfolded.2, ← hfolded'.2, ← String.toList_append, String.ofList_toList]
            exact ⟨c, hc, (Yields.compile_eq (hboth ▸ hyields)).trans hc⟩
  · have hne : (x.isText && y.isText) = false := by
      rwa [← hfolded.isText_iff, ← hfolded'.isText_iff, ← Bool.and_eq_true,
        Bool.not_eq_true] at hnot
    have hyields := (hgroup.repetition.concat (hq _).atom hne hx hy).sequence
    exact Yields.compile_eq (hboth ▸ hyields)

/-- Text is joined with text through the brackets. -/
theorem compile_bracketed_text :
    ∃ a b, compile none "a(b)" = .ok a ∧ compile none "c" = .ok b ∧
      compile none "(a(b))*" = .ok a.star ∧ compile none "(a(b))|(c)" = .ok (a.union b) ∧
      ∃ c, Automaton.ofText "abc" = .ok c ∧ compile none "(a(b))(c)" = .ok c := by
  obtain ⟨a, ha⟩ := exists_eq_ok_of_isOk (x := compile none "a(b)") (by decide +kernel)
  obtain ⟨b, hb⟩ := exists_eq_ok_of_isOk (x := compile none "c") (by decide +kernel)
  have hp : Plain "a(b)".toList := ⟨by decide, by simp [IsSymbol, IsUnsupported], by decide⟩
  have hq : Plain "c".toList := ⟨by decide, by simp [IsSymbol, IsUnsupported], by decide⟩
  obtain ⟨-, hstar, -, hunion, htext, -⟩ := compile_bracketed ha hb
  exact ⟨a, b, ha, hb, hstar, hunion, htext ⟨hp, hq⟩⟩

end Pattern

end PatternAutomata
