import PatternAutomata.Proofs.Denotation
import PatternAutomata.Proofs.OutOfRange
import PatternAutomata.Proofs.Reading

/-!
# Which texts compile

Without a limit on the size a text compiles exactly when it is empty, or the
grammar derives it from symbols that automata can read. One direction builds
the tree of the text, and all that can go wrong there is a character above
U+00FF. The other direction is that a text without faults is a pattern.

So no operator ever takes an operand from outside its group: a text that lacks
an operand somewhere does not compile, whatever stands around the place.
-/

namespace PatternAutomata

/-! ## Symbols that automata can read -/

def Tree.InRange : Tree → Prop
  | symbol _ c => c.toNat ≤ 255
  | emptyGroup _ => True
  | concat _ l r | union _ l r => l.InRange ∧ r.InRange
  | star _ t | plus _ t => t.InRange

/-- The operand is an automaton, or text that can become one. -/
def Operand.InRange : Operand → Prop
  | .automaton _ => True
  | .text s => ∀ c ∈ s.toList, c.toNat ≤ 255

namespace Operand

variable {x y : Operand}

theorem exists_build_iff : (∃ a, x.build = .ok a) ↔ x.InRange := by
  rw [x.consumes_build.exists_ok_iff]
  cases x with
  | automaton a => simp [characters, InRange]
  | text s => rfl

theorem inRange_of_build {a : Automaton} (h : x.build = .ok a) : x.InRange :=
  exists_build_iff.1 ⟨a, h⟩

theorem inRange_append_iff {s s' : String} :
    (text (s ++ s')).InRange ↔ (text s).InRange ∧ (text s').InRange := by
  simp [InRange, or_imp, forall_and]

end Operand

namespace Tree

open Operand

theorem Makes.inRange {t : Tree} {x : Operand} (h : t.Makes x) (hx : x.InRange) : t.InRange := by
  induction h with
  | symbol pos c => simpa [Operand.InRange, InRange] using hx
  | emptyGroup pos => trivial
  | join pos _ _ ihl ihr =>
      obtain ⟨hleft, hright⟩ := inRange_append_iff.1 hx
      exact ⟨ihl hleft, ihr hright⟩
  | concat pos _ _ _ ha hb ihl ihr =>
      exact ⟨ihl (inRange_of_build ha), ihr (inRange_of_build hb)⟩
  | union pos _ _ ha hb ihl ihr =>
      exact ⟨ihl (inRange_of_build ha), ihr (inRange_of_build hb)⟩
  | star pos _ ha ih => exact ih (inRange_of_build ha)
  | plus pos _ ha ih => exact ih (inRange_of_build ha)

/-- Nothing but a symbol out of range keeps a tree from becoming an operand. -/
theorem exists_makes (t : Tree) (h : t.InRange) : ∃ x, t.Makes x ∧ x.InRange := by
  induction t with
  | symbol pos c => exact ⟨_, .symbol pos c, by simpa [Operand.InRange, InRange] using h⟩
  | emptyGroup pos => exact ⟨_, .emptyGroup pos, trivial⟩
  | concat pos l r ihl ihr =>
      obtain ⟨x, hl, hx⟩ := ihl h.1
      obtain ⟨y, hr, hy⟩ := ihr h.2
      obtain ⟨a, ha⟩ := exists_build_iff.2 hx
      obtain ⟨b, hb⟩ := exists_build_iff.2 hy
      match x, y with
      | .text s, .text s' => exact ⟨_, .join pos hl hr, inRange_append_iff.2 ⟨hx, hy⟩⟩
      | .automaton _, _ => exact ⟨_, .concat pos hl hr rfl ha hb, trivial⟩
      | .text _, .automaton _ => exact ⟨_, .concat pos hl hr rfl ha hb, trivial⟩
  | union pos l r ihl ihr =>
      obtain ⟨x, hl, hx⟩ := ihl h.1
      obtain ⟨y, hr, hy⟩ := ihr h.2
      obtain ⟨a, ha⟩ := exists_build_iff.2 hx
      obtain ⟨b, hb⟩ := exists_build_iff.2 hy
      exact ⟨_, .union pos hl hr ha hb, trivial⟩
  | star pos t ih =>
      obtain ⟨x, ht, hx⟩ := ih h
      obtain ⟨a, ha⟩ := exists_build_iff.2 hx
      exact ⟨_, .star pos ht ha, trivial⟩
  | plus pos t ih =>
      obtain ⟨x, ht, hx⟩ := ih h
      obtain ⟨a, ha⟩ := exists_build_iff.2 hx
      exact ⟨_, .plus pos ht ha, trivial⟩

theorem exists_build_iff (t : Tree) : (∃ a, t.build none = .ok a) ↔ t.InRange := by
  constructor
  · rintro ⟨a, ha⟩
    obtain ⟨x, hx, hb⟩ := exists_makes_of_build ha
    exact hx.inRange (inRange_of_build hb)
  · intro h
    obtain ⟨x, hx, hrange⟩ := t.exists_makes h
    rw [hx.build_eq]
    exact Operand.exists_build_iff.2 hrange

end Tree

/-! ## Texts that lack an operand -/

/-- An operator has nothing to its left, in the text or in its group or
alternative, or a `|` has nothing to its right. -/
inductive LacksOperand : List Char → Prop
  | first {c : Char} {post : List Char} : c ∈ ['|', '*', '+'] → LacksOperand (c :: post)
  | behind {pre post : List Char} {c d : Char} : d ∈ ['(', '|'] → c ∈ ['|', '*', '+'] →
      LacksOperand (pre ++ d :: c :: post)
  | last {pre : List Char} : LacksOperand (pre ++ ['|'])
  | before {pre post : List Char} : LacksOperand (pre ++ '|' :: ')' :: post)

namespace Lexeme

theorem faults_le_append (prev : Token) (xs : List Lexeme) (y : Lexeme) (ys : List Lexeme) :
    faults y.token ys ≤ faults prev (xs ++ y :: ys) := by
  induction xs generalizing prev with
  | nil =>
      rw [List.nil_append, faults]
      omega
  | cons x xs ih =>
      have hle := ih x.token
      rw [List.cons_append, faults]
      omega

theorem faults_pos_of_clashes {prev : Token} {x : Lexeme} (h : prev.clashes x.token = true)
    (xs : List Lexeme) : 0 < faults prev (x :: xs) := by
  rw [faults, h, Bool.toNat_true]
  omega

theorem clashes_of_mem {c d : Char} {prev token : Token} (hd : d ∈ ['(', '|'])
    (hc : c ∈ ['|', '*', '+']) (hprev : Token.ofChar? d = some prev)
    (htoken : Token.ofChar? c = some token) : prev.clashes token = true := by
  simp only [List.mem_cons, List.not_mem_nil, or_false] at hd hc
  rcases hd with rfl | rfl <;> rcases hc with rfl | rfl | rfl <;>
    · obtain rfl := Option.some.inj hprev
      obtain rfl := Option.some.inj htoken
      rfl

theorem faults_pos_of_lacksOperand {cs : List Char} {zs : List Lexeme} (h : LacksOperand cs)
    (hscan : scan 0 cs = .ok zs) : 0 < faults .union zs := by
  cases h with
  | first hc =>
      obtain ⟨token, rest, htoken, -, rfl⟩ := scan_cons_iff.1 hscan
      exact faults_pos_of_clashes (clashes_of_mem (d := '|') (by simp) hc rfl htoken) rest
  | behind hd hc =>
      obtain ⟨xs, ys, -, hys, rfl⟩ := exists_scan_append hscan
      obtain ⟨prev, rest, hprev, hrest, rfl⟩ := scan_cons_iff.1 hys
      obtain ⟨token, rest', htoken, -, rfl⟩ := scan_cons_iff.1 hrest
      exact Nat.lt_of_lt_of_le (faults_pos_of_clashes (clashes_of_mem hd hc hprev htoken) rest')
        (faults_le_append .union xs ⟨_, prev⟩ _)
  | last =>
      obtain ⟨xs, ys, -, hys, rfl⟩ := exists_scan_append hscan
      obtain rfl := Except.ok.inj hys
      exact faults_le_append .union xs ⟨_, .union⟩ []
  | before =>
      obtain ⟨xs, ys, -, hys, rfl⟩ := exists_scan_append hscan
      obtain ⟨prev, rest, hprev, hrest, rfl⟩ := scan_cons_iff.1 hys
      obtain ⟨token, rest', htoken, -, rfl⟩ := scan_cons_iff.1 hrest
      obtain rfl := Option.some.inj hprev
      obtain rfl := Option.some.inj htoken
      exact Nat.lt_of_lt_of_le (faults_pos_of_clashes rfl rest')
        (faults_le_append .union xs ⟨_, .union⟩ _)

end Lexeme

/-- Without a limit a text compiles exactly when it is empty or the grammar
derives it from symbols up to U+00FF. A text in which some operator lacks an
operand does not compile at all. -/
theorem Pattern.compile_eq_ok_iff (pattern : String) :
    ((∃ a, compile none pattern = .ok a) ↔
      pattern = "" ∨ ∃ t, Derives.Whole pattern t ∧ t.InRange) ∧
    (LacksOperand pattern.toList → ∀ limit a, compile limit pattern ≠ .ok a) := by
  refine ⟨⟨fun ⟨a, ha⟩ => ?_, fun h => ?_⟩, fun hlacks limit a ha => ?_⟩
  · rcases exists_derives_of_compile ha with hempty | ⟨t, ht⟩
    · exact .inl hempty
    · rw [ht.compile_eq] at ha
      exact .inr ⟨t, ht, t.exists_build_iff.1 ⟨a, ha⟩⟩
  · rcases h with rfl | ⟨t, ht, hrange⟩
    · exact ⟨.emptyWord, rfl⟩
    · rw [ht.compile_eq]
      exact t.exists_build_iff.2 hrange
  · have hne : pattern ≠ "" := by
      intro hempty
      rw [hempty] at hlacks
      generalize hcs : "".toList = cs at hlacks
      cases hlacks <;> simp at hcs
    obtain ⟨xs, hscan, hfaults, -⟩ := faults_eq_zero_of_compile ha hne
    have hpos := Lexeme.faults_pos_of_lacksOperand hlacks hscan
    omega

/-- The repetition does not take its operand from before the group. -/
theorem Pattern.compile_eq_ok_iff_borrowed :
    LacksOperand "a(*b)".toList ∧ ∀ limit a, compile limit "a(*b)" ≠ .ok a := by
  have hlacks : LacksOperand "a(*b)".toList :=
    @LacksOperand.behind ['a'] ['b', ')'] '*' '(' (by simp) (by simp)
  exact ⟨hlacks, (compile_eq_ok_iff "a(*b)").2 hlacks⟩

end PatternAutomata
