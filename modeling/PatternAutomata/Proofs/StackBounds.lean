import PatternAutomata.Proofs.OperandCount
import PatternAutomata.Proofs.Reading
import PatternAutomata.Proofs.SizeLimits

/-!
# What is on the stack under a limit

A limit is put to an automaton after it was made, and text on the stack is not
counted at all until it is made an automaton. Still nothing large ever comes
about. The automata on the stack are within the limit, but for the one of the
empty word, which no limit is put to; and the texts on it are made of different
symbols of the pattern, so taken together they are no longer than all of these
(`Contained`). A step takes at most two operands, or one operand twice, and adds
two states at most, so what it makes is not larger than twice the largest
operand and two more, and that is as far beyond the limit as an automaton gets
that is refused.
-/

namespace PatternAutomata

/-! ## Counting symbols -/

def Token.isSymbol : Token → Bool
  | symbol _ => true
  | _ => false

/-- The number of characters in a pattern that are written for a symbol. -/
def Pattern.symbolCount (pattern : String) : Nat :=
  pattern.toList.countP fun c => IsSymbol c

namespace Lexeme

variable {xs ys : List Lexeme} {pos : Nat} {cs : List Char}

def symbols (xs : List Lexeme) : Nat :=
  xs.countP (·.token.isSymbol)

@[simp] theorem symbols_nil : symbols [] = 0 := rfl

@[simp] theorem symbols_append (xs ys : List Lexeme) :
    symbols (xs ++ ys) = symbols xs + symbols ys :=
  List.countP_append

theorem symbols_cons (x : Lexeme) (xs : List Lexeme) :
    symbols (x :: xs) = symbols xs + x.token.isSymbol.toNat :=
  countP_token_cons Token.isSymbol x xs

theorem isSymbol_eq_of_ofChar? {c : Char} {token : Token} (h : Token.ofChar? c = some token) :
    token.isSymbol = decide (IsSymbol c) := by
  rcases Token.ofChar?_cases h with
    rfl | ⟨rfl, rfl⟩ | ⟨rfl, rfl⟩ | ⟨rfl, rfl⟩ | ⟨rfl, rfl⟩ | ⟨rfl, rfl⟩
  · exact (decide_eq_true (Token.ofChar?_eq_symbol_iff.1 h)).symm
  all_goals rfl

theorem symbols_of_scan (h : scan pos cs = .ok xs) :
    symbols xs = cs.countP fun c => IsSymbol c := by
  induction cs generalizing pos xs with
  | nil =>
      obtain rfl := Except.ok.inj h
      rfl
  | cons c cs ih =>
      obtain ⟨token, rest, htoken, hrest, rfl⟩ := scan_cons_iff.1 h
      rw [symbols_cons, ih hrest, isSymbol_eq_of_ofChar? htoken, List.countP_cons]
      by_cases hc : IsSymbol c <;> simp [hc]

theorem symbols_yield (prev : Option Token) (x : Lexeme) :
    symbols (x.yield prev) = x.token.isSymbol.toNat := by
  obtain ⟨pos, token⟩ := x
  cases token with
  | rightParen =>
      rw [yield]
      split
      · rfl
      · split <;> rfl
      · contradiction
  | _ => rfl

theorem symbols_unbracketed (prev : Option Token) (xs : List Lexeme) :
    symbols (unbracketed prev xs) = symbols xs := by
  induction xs generalizing prev with
  | nil => rfl
  | cons x xs ih => rw [unbracketed, symbols_append, symbols_yield, ih, symbols_cons, Nat.add_comm]

theorem symbols_insertConcatsAfter (prev : Token) (xs : List Lexeme) :
    symbols (insertConcatsAfter prev xs) = symbols xs := by
  induction xs generalizing prev with
  | nil => rfl
  | cons x xs ih =>
      rw [insertConcatsAfter]
      split
      · rw [symbols_cons, symbols_cons, ih, symbols_cons]
        rfl
      · rw [symbols_cons, ih, symbols_cons]

theorem symbols_of_reversePolish (h : reversePolish (insertConcats xs) = .ok ys) :
    symbols ys = symbols xs := by
  have hcount : symbols ys = _ := (perm_unbracketed h).countP_eq _
  rw [hcount, ← symbols, symbols_unbracketed, ← insertConcatsAfter_union,
    symbols_insertConcatsAfter]

end Lexeme

open Lexeme (symbols)

theorem Pattern.symbols_of_inReversePolish {pattern : String} {xs : List Lexeme}
    (h : inReversePolish pattern = .ok xs) : symbols xs = symbolCount pattern := by
  obtain ⟨written, hwritten, hxs⟩ := bind_eq_ok.1 h
  rw [Lexeme.symbols_of_reversePolish (mapError_eq_ok.1 hxs), Lexeme.symbols_of_scan hwritten,
    symbolCount]

namespace Evaluation

variable {n m k : Nat} {t : Token} {x : Lexeme} {xs : List Lexeme} {y : Operand}
  {stack later below whole : List Operand} {a : Automaton} {s : String}

/-! ## What a step does to the stack -/

/-- The number of characters in all texts on a stack. -/
def textLength (stack : List Operand) : Nat :=
  (stack.flatMap Operand.characters).length

theorem textLength_append (front stack : List Operand) :
    textLength (front ++ stack) = textLength front + textLength stack := by
  rw [textLength, List.flatMap_append, List.length_append]
  rfl

theorem textLength_cons (y : Operand) (stack : List Operand) :
    textLength (y :: stack) = y.characters.length + textLength stack := by
  rw [textLength, List.flatMap_cons, List.length_append]
  rfl

/-- Only the topmost operand of a stack is new. -/
theorem suffix_of_reduced (h : Reduced t stack (y :: below)) : below <:+ stack := by
  cases resized_of_reduced h with
  | kept => exact List.suffix_cons y below
  | pushed => exact List.suffix_rfl
  | one => exact List.suffix_cons _ below
  | two => exact (List.suffix_cons _ below).trans (List.suffix_cons _ _)

theorem built_ne_settled {r : Except BuildError Automaton} {f : Automaton → Automaton} :
    (do return Reduction.built (f (← r)) below) ≠ .ok (.settled later) := by
  intro h
  obtain ⟨b, -, hb⟩ := bind_eq_ok.1 h
  cases hb

/-- The only automaton that comes on a stack without being checked. -/
theorem eq_emptyWord_or_mem_of_settled (h : reduce x stack = .ok (.settled later))
    (ha : .automaton a ∈ later) : a = .emptyWord ∨ .automaton a ∈ stack := by
  obtain ⟨pos, token⟩ := x
  cases token with
  | symbol c =>
      obtain rfl := Reduction.settled.inj (Except.ok.inj h)
      exact .inr ((List.mem_cons.1 ha).resolve_left nofun)
  | emptyGroup =>
      obtain rfl := Reduction.settled.inj (Except.ok.inj h)
      exact (List.mem_cons.1 ha).imp_left Operand.automaton.inj
  | leftParen | rightParen => exact .inr (Reduction.settled.inj (Except.ok.inj h) ▸ ha)
  | concat =>
      match stack, h with
      | .text right :: .text left :: below, h =>
          obtain rfl := Reduction.settled.inj (Except.ok.inj h)
          have hbelow := (List.mem_cons.1 ha).resolve_left nofun
          exact .inr (List.mem_cons_of_mem _ (List.mem_cons_of_mem _ hbelow))
      | .automaton right :: left :: below, h | .text right :: .automaton left :: below, h =>
          exact absurd h built_ne_settled
  | union =>
      match stack, h with
      | right :: left :: below, h => exact absurd h built_ne_settled
  | star | plus =>
      match stack, h with
      | y :: below, h => exact absurd h built_ne_settled

theorem size_le_of_step (h : step (some n) stack x = .ok later) (ha : .automaton a ∈ later) :
    a.size ≤ n ∨ a = .emptyWord ∨ .automaton a ∈ stack := by
  obtain ⟨r, hr, hlater⟩ := bind_eq_ok.1 h
  cases r with
  | settled later =>
      obtain rfl := pure_eq_ok.1 hlater
      exact .inr (eq_emptyWord_or_mem_of_settled hr ha)
  | built b below =>
      obtain ⟨c, hc, heq⟩ := bind_eq_ok.1 hlater
      obtain rfl := pure_eq_ok.1 heq
      rcases List.mem_cons.1 ha with hnew | hbelow
      · obtain rfl := Operand.automaton.inj hnew
        exact .inl (SizeLimit.le_of_enforce hc)
      · exact .inr (.inr ((suffix_of_reduced (reduced_of_reduce hr)).mem hbelow))

theorem length_pos_of_reduced (h : Reduced t stack later)
    (hpos : ∀ s, .text s ∈ stack → 0 < s.length) : ∀ s, .text s ∈ later → 0 < s.length := by
  intro s hs
  cases h with
  | symbol c =>
      rcases List.mem_cons.1 hs with hnew | hs
      · obtain rfl := Operand.text.inj hnew
        rw [String.length_singleton]
        exact Nat.one_pos
      · exact hpos s hs
  | emptyGroup => exact hpos s ((List.mem_cons.1 hs).resolve_left nofun)
  | leftParen => exact hpos s hs
  | rightParen => exact hpos s hs
  | join left right below =>
      rcases List.mem_cons.1 hs with hnew | hs
      · obtain rfl := Operand.text.inj hnew
        rw [String.length_append]
        exact Nat.add_pos_right _ (hpos right List.mem_cons_self)
      · exact hpos s (List.mem_cons_of_mem _ (List.mem_cons_of_mem _ hs))
  | concat below _ | union below _ =>
      have hbelow := (List.mem_cons.1 hs).resolve_left nofun
      exact hpos s (List.mem_cons_of_mem _ (List.mem_cons_of_mem _ hbelow))
  | star below _ | plus below _ =>
      exact hpos s (List.mem_cons_of_mem _ ((List.mem_cons.1 hs).resolve_left nofun))

/-- No step makes text but of a symbol. -/
theorem textLength_of_reduced (h : Reduced t stack later) :
    textLength later ≤ textLength stack + t.isSymbol.toNat := by
  cases h with
  | symbol c =>
      have hlength : (String.singleton c).length = 1 := String.length_singleton
      have hsymbol : (Token.symbol c).isSymbol.toNat = 1 := rfl
      rw [textLength_cons, Operand.characters_text, String.length_toList]
      omega
  | leftParen | rightParen => exact Nat.le_add_right ..
  | join left right below =>
      have hlength : (left ++ right).length = left.length + right.length := String.length_append ..
      simp only [textLength_cons, Operand.characters_text, String.length_toList]
      omega
  | emptyGroup | concat below _ | union below _ | star below _ | plus below _ =>
      simp only [textLength_cons, Operand.characters_automaton, List.length_nil]
      omega

/-- Sizes at most double in a step, up to two states. -/
theorem size_le_of_reduced (h : Reduced t stack (y :: below)) (hk : 2 ≤ k) (hfits : Fits k stack) :
    y.size ≤ 2 * k + 2 := by
  cases resized_of_reduced h with
  | kept =>
      have hle := hfits y List.mem_cons_self
      omega
  | pushed _ hsize => omega
  | one =>
      have hle := hfits _ List.mem_cons_self
      omega
  | two =>
      have hright := hfits _ List.mem_cons_self
      have hleft := hfits _ (List.mem_cons_of_mem _ List.mem_cons_self)
      omega

/-! ## Stacks under a limit -/

/-- What a limit and the number of symbols so far say about a stack. -/
structure Contained (n m : Nat) (stack : List Operand) : Prop where
  size_le : ∀ a, .automaton a ∈ stack → a.size ≤ max n 2
  length_pos : ∀ s, .text s ∈ stack → 0 < s.length
  textLength_le : textLength stack ≤ m

namespace Contained

theorem nil (n : Nat) : Contained n 0 [] :=
  ⟨nofun, nofun, Nat.le_refl 0⟩

theorem step (h : Contained n m stack) (hstep : Evaluation.step (some n) stack x = .ok later) :
    Contained n (m + x.token.isSymbol.toNat) later where
  size_le a ha := by
    rcases size_le_of_step hstep ha with hle | rfl | hmem
    · exact Nat.le_trans hle (Nat.le_max_left n 2)
    · exact Nat.le_max_right n 2
    · exact h.size_le a hmem
  length_pos := length_pos_of_reduced (reduced_of_step hstep) h.length_pos
  textLength_le := Nat.le_trans (textLength_of_reduced (reduced_of_step hstep))
    (Nat.add_le_add_right h.textLength_le _)

theorem of_foldlM (h : xs.foldlM (Evaluation.step (some n)) [] = .ok stack) :
    Contained n (symbols xs) stack := by
  refine holds_of_foldlM_append (P := fun us stack => Contained n (symbols us) stack) []
    (fun us x _ c d hc hstep => ?_) (nil n) h
  rw [Lexeme.symbols_append, Lexeme.symbols_cons, Lexeme.symbols_nil, Nat.zero_add]
  exact hc.step hstep

theorem mono (h : Contained n k stack) (hkm : k ≤ m) : Contained n m stack :=
  ⟨h.size_le, h.length_pos, Nat.le_trans h.textLength_le hkm⟩

theorem of_suffix (h : Contained n m whole) (hs : stack <:+ whole) : Contained n m stack where
  size_le a ha := h.size_le a (hs.mem ha)
  length_pos s hmem := h.length_pos s (hs.mem hmem)
  textLength_le := by
    obtain ⟨front, rfl⟩ := hs
    have hle := h.textLength_le
    rw [textLength_append] at hle
    omega

theorem length_le (h : Contained n m stack) (hs : .text s ∈ stack) : s.length ≤ m := by
  obtain ⟨front, back, rfl⟩ := List.append_of_mem hs
  have hle := h.textLength_le
  rw [textLength_append, textLength_cons, Operand.characters_text, String.length_toList] at hle
  omega

theorem fits (h : Contained n m stack) : Fits (max n (max (2 * m) 2)) stack := by
  intro y hy
  cases y with
  | automaton a =>
      have hle := h.size_le a hy
      rw [Operand.size_automaton]
      omega
  | text s =>
      have hle := h.length_le hy
      rw [Operand.size_text]
      omega

end Contained

/-! ## What the limit is put to -/

/-- The stacks of an evaluation: those between two steps, and what is left of
one of them while a step takes its operands. -/
def Passes (limit : SizeLimit) (xs : List Lexeme) (stack : List Operand) : Prop :=
  ∃ us vs whole, xs = us ++ vs ∧ us.foldlM (step limit) [] = .ok whole ∧ stack <:+ whole

/-- The automata of an evaluation that the limit is put to: what a step built,
and what is left on the stack in the end. -/
inductive Checked (limit : SizeLimit) (xs : List Lexeme) (a : Automaton) : Prop
  | built {us vs : List Lexeme} {x : Lexeme} {stack below : List Operand} : xs = us ++ x :: vs →
      us.foldlM (step limit) [] = .ok stack → reduce x stack = .ok (.built a below) →
      Checked limit xs a
  | last {y : Operand} : xs.foldlM (step limit) [] = .ok [y] → y.build = .ok a →
      Checked limit xs a

theorem Passes.contained (h : Passes (some n) xs stack) : Contained n (symbols xs) stack := by
  obtain ⟨us, vs, whole, rfl, hwhole, hsuffix⟩ := h
  rw [Lexeme.symbols_append]
  exact ((Contained.of_foldlM hwhole).mono (Nat.le_add_right _ _)).of_suffix hsuffix

theorem Checked.size_le (h : Checked (some n) xs a) :
    a.size ≤ 2 * max n (max (2 * symbols xs) 2) + 2 := by
  cases h with
  | @built us vs x stack below hsplit hstack hbuilt =>
      have hpasses : Passes (some n) xs stack :=
        ⟨us, x :: vs, stack, hsplit, hstack, List.suffix_rfl⟩
      exact size_le_of_reduced (reduced_of_reduce hbuilt) (by omega) hpasses.contained.fits
  | @last y hstack hbuild =>
      have hle := (Contained.of_foldlM hstack).fits y List.mem_cons_self
      rw [Operand.size_of_build hbuild]
      omega

/-! ## Refusals -/

theorem step_eq_tooComplex_iff : step (some n) stack x = .error (.tooComplex m) ↔
    ∃ a below, reduce x stack = .ok (.built a below) ∧ n < a.size ∧ n = m := by
  rw [step, bind_eq_error]
  constructor
  · rintro (hreduce | ⟨r, hr, herror⟩)
    · exact absurd rfl ((failsOnly_reduce x stack _ hreduce).ne_tooComplex m)
    · cases r with
      | settled later => cases herror
      | built a below =>
          rcases bind_eq_error.1 herror with henforce | ⟨b, -, hb⟩
          · exact ⟨a, below, hr, SizeLimit.enforce_eq_tooComplex_iff.1 henforce⟩
          · cases hb
  · rintro ⟨a, below, hr, hlt⟩
    exact .inr ⟨_, hr, bind_eq_error.2 (.inl (SizeLimit.enforce_eq_tooComplex_iff.2 hlt))⟩

theorem finish_eq_tooComplex_iff : finish (some n) stack = .error (.tooComplex m) ↔
    ∃ y a, stack = [y] ∧ y.build = .ok a ∧ n < a.size ∧ n = m := by
  constructor
  · intro h
    unfold finish at h
    split at h
    · cases h
    · rename_i y
      rcases bind_eq_error.1 h with hbuild | ⟨a, ha, henforce⟩
      · exact absurd rfl ((y.consumes_build.failsOnly _ hbuild).ne_tooComplex m)
      · exact ⟨y, a, rfl, ha, SizeLimit.enforce_eq_tooComplex_iff.1 henforce⟩
    · cases h
  · rintro ⟨y, a, rfl, ha, hlt⟩
    exact bind_eq_error.2 (.inr ⟨a, ha, SizeLimit.enforce_eq_tooComplex_iff.2 hlt⟩)

/-- An evaluation is refused for its size exactly if something that the limit is
put to is larger, and then the error names the limit. -/
theorem evaluate_eq_tooComplex_iff : Lexeme.evaluate (some n) xs = .error (.tooComplex m) ↔
    ∃ a, Checked (some n) xs a ∧ n < a.size ∧ n = m := by
  rw [Lexeme.evaluate, bind_eq_error]
  constructor
  · rintro (hxs | ⟨stack, hstack, hfinish⟩)
    · obtain ⟨us, x, vs, stack, hsplit, hus, hx⟩ := exists_of_foldlM_eq_error hxs
      obtain ⟨a, below, hbuilt, hlt⟩ := step_eq_tooComplex_iff.1 hx
      exact ⟨a, .built hsplit hus hbuilt, hlt⟩
    · obtain ⟨y, a, rfl, ha, hlt⟩ := finish_eq_tooComplex_iff.1 hfinish
      exact ⟨a, .last hstack ha, hlt⟩
  · rintro ⟨a, hchecked, hlt⟩
    cases hchecked with
    | built hsplit hus hbuilt =>
        have hx := step_eq_tooComplex_iff.2 ⟨a, _, hbuilt, hlt⟩
        exact .inl (hsplit ▸ foldlM_append_cons_of_error hus hx _)
    | last hstack ha => exact .inr ⟨_, hstack, finish_eq_tooComplex_iff.2 ⟨_, a, rfl, ha, hlt⟩⟩

end Evaluation

/-! ## Patterns under a limit -/

namespace Pattern

open Evaluation (Passes Checked)

variable {pattern : String} {xs : List Lexeme}

/-- Nothing large comes about before the limit is met, neither on the stack nor
in what is refused. -/
theorem evaluation_contained (hxs : inReversePolish pattern = .ok xs) (n : Nat) :
    (∀ stack, Passes (some n) xs stack →
      (∀ a, .automaton a ∈ stack → a.size ≤ max n 2) ∧
      (∀ s, .text s ∈ stack → 1 ≤ s.length ∧ s.length ≤ symbolCount pattern) ∧
      (stack.flatMap Operand.characters).length ≤ symbolCount pattern) ∧
    (∀ a, Checked (some n) xs a → a.size ≤ 2 * max n (max (2 * symbolCount pattern) 2) + 2) ∧
    (compile (some n) pattern = .error (.tooComplex n) ↔
      ∃ a, Checked (some n) xs a ∧ n < a.size) := by
  rw [← symbols_of_inReversePolish hxs]
  refine ⟨fun stack hstack => ?_, fun a ha => ha.size_le, ?_⟩
  · have h := hstack.contained
    exact ⟨h.size_le, fun s hs => ⟨h.length_pos s hs, h.length_le hs⟩, h.textLength_le⟩
  · rw [compile, hxs]
    refine Evaluation.evaluate_eq_tooComplex_iff.trans ?_
    simp only [and_true]

/-- Text of two symbols, and a copy made of it that is refused. -/
theorem evaluation_contained_refused :
    ∃ xs a, inReversePolish "(ab)+c" = .ok xs ∧ Passes (some 5) xs [.text "ab"] ∧
      ("ab".length ≤ symbolCount "(ab)+c" ∧ symbolCount "(ab)+c" = 3) ∧
      Checked (some 5) xs a ∧ 5 < a.size ∧ a.size ≤ 14 := by
  have hxs : inReversePolish "(ab)+c" = .ok [⟨1, .symbol 'a'⟩, ⟨2, .symbol 'b'⟩, ⟨2, .concat⟩,
      ⟨4, .plus⟩, ⟨5, .symbol 'c'⟩, ⟨5, .concat⟩] := by rfl
  have hpasses : Passes (some 5) _ [.text "ab"] :=
    ⟨[⟨1, .symbol 'a'⟩, ⟨2, .symbol 'b'⟩, ⟨2, .concat⟩],
      [⟨4, .plus⟩, ⟨5, .symbol 'c'⟩, ⟨5, .concat⟩], _, rfl, rfl, List.suffix_rfl⟩
  obtain ⟨hstack, hsize, hrefused⟩ := evaluation_contained hxs 5
  obtain ⟨a, ha, hlt⟩ := hrefused.1 (by decide +kernel)
  have htext := (hstack _ hpasses).2.1 "ab" List.mem_cons_self
  exact ⟨_, a, hxs, hpasses, ⟨htext.2, by decide +kernel⟩, ha, hlt, hsize a ha⟩

end Pattern

end PatternAutomata
