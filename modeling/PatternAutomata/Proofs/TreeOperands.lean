import PatternAutomata.Pattern.Tree
import PatternAutomata.Proofs.Reductions

/-!
# What a tree makes

`Makes` lists the ways in which the operand of a tree comes about, with one rule
for each kind of tree and two for concatenation, which keeps text as text. As
with a step on the stack, a limit can refuse what is made but does not change
it, so an operand that was made under some limit is made without one.
-/

namespace PatternAutomata

def Operand.isText : Operand → Bool
  | .text _ => true
  | .automaton _ => false

namespace Tree

/-- The operand of a tree, if no limit is set. -/
inductive Makes : Tree → Operand → Prop
  | symbol (pos : Nat) (c : Char) : Makes (.symbol pos c) (.text (.singleton c))
  | emptyGroup (pos : Nat) : Makes (.emptyGroup pos) (.automaton .emptyWord)
  | join (pos : Nat) {l r : Tree} {s s' : String} :
      Makes l (.text s) → Makes r (.text s') → Makes (.concat pos l r) (.text (s ++ s'))
  | concat (pos : Nat) {l r : Tree} {x y : Operand} {a b : Automaton} :
      Makes l x → Makes r y → (x.isText && y.isText) = false →
      x.build = .ok a → y.build = .ok b →
      Makes (.concat pos l r) (.automaton ((Automaton.emptyWord.concat a).concat b))
  | union (pos : Nat) {l r : Tree} {x y : Operand} {a b : Automaton} :
      Makes l x → Makes r y → x.build = .ok a → y.build = .ok b →
      Makes (.union pos l r) (.automaton (a.union b))
  | star (pos : Nat) {t : Tree} {x : Operand} {a : Automaton} :
      Makes t x → x.build = .ok a → Makes (.star pos t) (.automaton a.star)
  | plus (pos : Nat) {t : Tree} {x : Operand} {a : Automaton} :
      Makes t x → x.build = .ok a → Makes (.plus pos t) (.automaton a.plus)

variable {limit : SizeLimit} {l r t : Tree} {x y z : Operand} {a : Automaton}

theorem makes_of_joined {pos : Nat} (hl : l.Makes x) (hr : r.Makes y)
    (hz : joined limit x y = .ok z) : (concat pos l r).Makes z := by
  unfold joined at hz
  split at hz
  · obtain rfl := Except.ok.inj hz
    exact .join pos hl hr
  · rename_i hne
    obtain ⟨d, hd, hz⟩ := bind_eq_ok.1 hz
    obtain ⟨e, he, hz⟩ := bind_eq_ok.1 hz
    obtain rfl := pure_eq_ok.1 hz
    obtain rfl := SizeLimit.eq_of_enforce_eq_ok he
    obtain ⟨a, b, ha, hb, rfl⟩ := Automaton.concatAll_pair_iff.1 hd
    refine .concat pos hl hr ?_ ha hb
    cases x with
    | automaton _ => rfl
    | text s =>
        cases y with
        | automaton _ => rfl
        | text s' => exact absurd rfl (hne s s' rfl)

theorem makes_of_operand (hx : t.operand limit = .ok x) : t.Makes x := by
  induction t generalizing x with
  | symbol pos c =>
      obtain rfl := Except.ok.inj hx
      exact .symbol pos c
  | emptyGroup pos =>
      obtain rfl := Except.ok.inj hx
      exact .emptyGroup pos
  | concat pos l r ihl ihr =>
      obtain ⟨y, hy, hx⟩ := bind_eq_ok.1 hx
      obtain ⟨z, hz, hx⟩ := bind_eq_ok.1 hx
      exact makes_of_joined (ihl hy) (ihr hz) hx
  | union pos l r ihl ihr =>
      obtain ⟨y, hy, hx⟩ := bind_eq_ok.1 hx
      obtain ⟨z, hz, hx⟩ := bind_eq_ok.1 hx
      obtain ⟨d, hd, hx⟩ := bind_eq_ok.1 hx
      obtain ⟨e, he, hx⟩ := bind_eq_ok.1 hx
      obtain rfl := pure_eq_ok.1 hx
      obtain rfl := SizeLimit.eq_of_enforce_eq_ok he
      obtain ⟨a, b, ha, hb, rfl⟩ := Automaton.unionAll_pair_iff.1 hd
      exact .union pos (ihl hy) (ihr hz) ha hb
  | star pos t ih =>
      obtain ⟨y, hy, hx⟩ := bind_eq_ok.1 hx
      obtain ⟨a, ha, hx⟩ := bind_eq_ok.1 hx
      obtain ⟨b, hb, hx⟩ := bind_eq_ok.1 hx
      obtain rfl := pure_eq_ok.1 hx
      obtain rfl := SizeLimit.eq_of_enforce_eq_ok hb
      exact .star pos (ih hy) ha
  | plus pos t ih =>
      obtain ⟨y, hy, hx⟩ := bind_eq_ok.1 hx
      obtain ⟨a, ha, hx⟩ := bind_eq_ok.1 hx
      obtain ⟨b, hb, hx⟩ := bind_eq_ok.1 hx
      obtain rfl := pure_eq_ok.1 hx
      obtain rfl := SizeLimit.eq_of_enforce_eq_ok hb
      exact .plus pos (ih hy) ha

theorem joined_eq {b : Automaton} (h : (x.isText && y.isText) = false) (ha : x.build = .ok a)
    (hb : y.build = .ok b) :
    joined none x y = .ok (.automaton ((Automaton.emptyWord.concat a).concat b)) := by
  unfold joined
  split
  · cases h
  · exact bind_eq_ok.2 ⟨_, Automaton.concatAll_pair_iff.2 ⟨a, b, ha, hb, rfl⟩, rfl⟩

theorem Makes.operand_eq (h : t.Makes x) : t.operand none = .ok x := by
  induction h with
  | symbol pos c => rfl
  | emptyGroup pos => rfl
  | join pos _ _ ihl ihr => exact bind_eq_ok.2 ⟨_, ihl, bind_eq_ok.2 ⟨_, ihr, rfl⟩⟩
  | concat pos _ _ hne ha hb ihl ihr =>
      exact bind_eq_ok.2 ⟨_, ihl, bind_eq_ok.2 ⟨_, ihr, joined_eq hne ha hb⟩⟩
  | union pos _ _ ha hb ihl ihr =>
      have hunion := Automaton.unionAll_pair_iff.2 ⟨_, _, ha, hb, rfl⟩
      exact bind_eq_ok.2 ⟨_, ihl, bind_eq_ok.2 ⟨_, ihr, bind_eq_ok.2 ⟨_, hunion, rfl⟩⟩⟩
  | star pos _ ha ih => exact bind_eq_ok.2 ⟨_, ih, bind_eq_ok.2 ⟨_, ha, rfl⟩⟩
  | plus pos _ ha ih => exact bind_eq_ok.2 ⟨_, ih, bind_eq_ok.2 ⟨_, ha, rfl⟩⟩

theorem Makes.build_eq (h : t.Makes x) : t.build none = x.build := by
  rw [build, h.operand_eq]
  exact bind_pure x.build

theorem exists_makes_of_build (h : t.build limit = .ok a) :
    ∃ x, t.Makes x ∧ x.build = .ok a := by
  obtain ⟨x, hx, h⟩ := bind_eq_ok.1 h
  obtain ⟨b, hb, hlimit⟩ := bind_eq_ok.1 h
  obtain rfl := SizeLimit.eq_of_enforce_eq_ok hlimit
  exact ⟨x, makes_of_operand hx, hb⟩

end Tree

end PatternAutomata
