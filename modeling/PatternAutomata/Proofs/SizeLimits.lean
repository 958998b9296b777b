import PatternAutomata.Proofs.EvaluationFaults
import PatternAutomata.Proofs.Reading
import PatternAutomata.Proofs.StackEvaluation

/-!
# Limits on the size

A limit is put to one automaton after the other while a pattern is evaluated,
and still it acts as if it were put to the result alone. It never changes what
is built, so under a limit the evaluation goes the same way as without one, or
is cut short (`Limited`). And it does not cut short what fits in the end, since
no operand ever gets smaller: whatever is on the stack at some point is part of
something on the stack later on (`covered_of_foldlM`).

The one result that no limit is put to is that of the empty pattern.
-/

namespace PatternAutomata

/-! ## Sizes -/

/-- The number of states that an operand has as an automaton. -/
def Operand.size : Operand → Nat
  | .automaton a => a.size
  | .text s => max 2 (2 * s.length)

@[simp] theorem Operand.size_automaton (a : Automaton) : (automaton a).size = a.size := rfl

@[simp] theorem Operand.size_text (s : String) : (text s).size = max 2 (2 * s.length) := rfl

namespace Automaton

variable {a b : Automaton}

theorem size_of_ofChar {c : Char} (h : ofChar c = .ok a) : a.size = 2 := by
  rw [ofChar] at h
  split at h
  · simp at h
  · exact Except.ok.inj h ▸ size_ofSymbol _

theorem size_of_foldlM {cs : List Char}
    (h : cs.foldlM (fun a c => return a.concat (← ofChar c)) a =
      (.ok b : Except BuildError Automaton)) : b.size = a.size + 2 * cs.length := by
  induction cs generalizing a with
  | nil =>
      obtain rfl := pure_eq_ok.1 h
      rfl
  | cons c cs ih =>
      obtain ⟨d, hd, hrest⟩ := foldlM_cons_eq_ok.1 h
      obtain ⟨e, he, heq⟩ := bind_eq_ok.1 hd
      obtain rfl := pure_eq_ok.1 heq
      rw [ih hrest, size_concat, size_of_ofChar he, List.length_cons]
      omega

theorem size_of_ofText {s : String} (h : ofText s = .ok a) : a.size = max 2 (2 * s.length) := by
  rw [ofText] at h
  rw [← String.length_toList]
  split at h
  · rename_i hs
    rw [hs, ← Except.ok.inj h]
    rfl
  · rename_i c rest hs
    obtain ⟨first, hfirst, hrest⟩ := bind_eq_ok.1 h
    rw [hs, size_of_foldlM hrest, size_of_ofChar hfirst, List.length_cons]
    omega

end Automaton

theorem Operand.size_of_build {x : Operand} {a : Automaton} (h : x.build = .ok a) :
    a.size = x.size := by
  cases x with
  | automaton b => exact Except.ok.inj h ▸ rfl
  | text s => exact Automaton.size_of_ofText h

namespace Automaton

variable {x y : Operand} {a : Automaton}

theorem size_of_concatAll (h : concatAll [x, y] = .ok a) : a.size = x.size + y.size + 2 := by
  obtain ⟨b, c, hb, hc, rfl⟩ := concatAll_pair_iff.1 h
  rw [size_concat, size_concat, size_emptyWord, Operand.size_of_build hb, Operand.size_of_build hc]
  omega

theorem size_of_unionAll (h : unionAll [x, y] = .ok a) : a.size = x.size + y.size + 2 := by
  obtain ⟨b, c, hb, hc, rfl⟩ := unionAll_pair_iff.1 h
  rw [size_union, Operand.size_of_build hb, Operand.size_of_build hc]

end Automaton

/-! ## Nothing on the stack gets smaller -/

/-- For every operand on the one stack there is one on the other that is at
least as large. -/
def Covered (stack later : List Operand) : Prop :=
  ∀ y ∈ stack, ∃ z ∈ later, y.size ≤ z.size

namespace Covered

variable {x y z : Operand} {stack later last : List Operand}

theorem refl (stack : List Operand) : Covered stack stack :=
  fun y hy => ⟨y, hy, Nat.le_refl _⟩

theorem trans (h : Covered stack later) (k : Covered later last) : Covered stack last := by
  intro y hy
  obtain ⟨z, hz, hyz⟩ := h y hy
  obtain ⟨w, hw, hzw⟩ := k z hz
  exact ⟨w, hw, Nat.le_trans hyz hzw⟩

theorem cons (h : Covered stack later) (z : Operand) : Covered stack (z :: later) := by
  intro y hy
  obtain ⟨w, hw, hyw⟩ := h y hy
  exact ⟨w, List.mem_cons_of_mem z hw, hyw⟩

theorem replace (hle : x.size ≤ z.size) (h : Covered stack (z :: later)) :
    Covered (x :: stack) (z :: later) :=
  List.forall_mem_cons.2 ⟨⟨z, List.mem_cons_self, hle⟩, h⟩

theorem one (hx : x.size ≤ z.size) (stack : List Operand) : Covered (x :: stack) (z :: stack) :=
  .replace hx ((refl stack).cons z)

theorem two (hx : x.size ≤ z.size) (hy : y.size ≤ z.size) (stack : List Operand) :
    Covered (x :: y :: stack) (z :: stack) :=
  .replace hx (one hy stack)

end Covered

namespace Evaluation

variable {xs : List Lexeme} {stack later : List Operand}

/-- What a step does to the sizes on a stack. Only a copy adds more than two
states. -/
inductive Resized (t : Token) : List Operand → List Operand → Prop
  | kept (stack : List Operand) : Resized t stack stack
  | pushed {z : Operand} (stack : List Operand) : z.size = 2 → Resized t stack (z :: stack)
  | one {y z : Operand} (below : List Operand) : y.size ≤ z.size →
      z.size ≤ y.size + y.size + 2 → (t ≠ .plus → z.size ≤ y.size + 2) →
      Resized t (y :: below) (z :: below)
  | two {x y z : Operand} (below : List Operand) : x.size ≤ z.size → y.size ≤ z.size →
      z.size ≤ x.size + y.size + 2 → Resized t (x :: y :: below) (z :: below)

theorem resized_of_reduced {t : Token} (h : Reduced t stack later) : Resized t stack later := by
  cases h with
  | symbol c =>
      refine .pushed stack ?_
      rw [Operand.size_text, String.length_singleton]
      rfl
  | emptyGroup => exact .pushed stack rfl
  | leftParen | rightParen => exact .kept stack
  | join left right below =>
      have hlength : (left ++ right).length = left.length + right.length := String.length_append ..
      refine .two below ?_ ?_ ?_ <;> simp only [Operand.size_text] <;> omega
  | concat below ha =>
      have hsize := Automaton.size_of_concatAll ha
      refine .two below ?_ ?_ ?_ <;> rw [Operand.size_automaton] <;> omega
  | union below ha =>
      have hsize := Automaton.size_of_unionAll ha
      refine .two below ?_ ?_ ?_ <;> rw [Operand.size_automaton] <;> omega
  | star below ha =>
      have hsize := Operand.size_of_build ha
      refine .one below ?_ ?_ fun _ => ?_ <;>
        rw [Operand.size_automaton, Automaton.size_star] <;> omega
  | plus below ha =>
      have hsize := Operand.size_of_build ha
      refine .one below ?_ ?_ fun hplus => absurd rfl hplus <;>
        rw [Operand.size_automaton, Automaton.size_plus] <;> omega

theorem covered_of_reduced {t : Token} (h : Reduced t stack later) : Covered stack later := by
  cases resized_of_reduced h with
  | kept => exact .refl stack
  | pushed => exact (Covered.refl stack).cons _
  | one below hy => exact .one hy below
  | two below hx hy => exact .two hx hy below

theorem covered_of_foldlM {limit : SizeLimit} (h : xs.foldlM (step limit) stack = .ok later) :
    Covered stack later :=
  holds_of_foldlM (fun _ _ _ _ hc hstep => hc.trans (covered_of_reduced (reduced_of_step hstep)))
    (.refl stack) h

end Evaluation

/-! ## What fits in the end is never refused -/

theorem SizeLimit.enforce_of_le {n : Nat} {a : Automaton} (h : a.size ≤ n) :
    enforce (some n) a = .ok a :=
  if_neg (Nat.not_lt.2 h)

theorem SizeLimit.le_of_enforce {n : Nat} {a b : Automaton} (h : enforce (some n) a = .ok b) :
    b.size ≤ n := by
  rw [enforce] at h
  split at h
  · simp at h
  · rename_i hle
    exact Except.ok.inj h ▸ Nat.not_lt.1 hle

theorem SizeLimit.enforce_eq_tooComplex_iff {n m : Nat} {a : Automaton} :
    enforce (some n) a = .error (.tooComplex m) ↔ n < a.size ∧ n = m := by
  rw [enforce]
  by_cases hlt : n < a.size
  · simp [hlt]
  · simp [hlt]

namespace Evaluation

variable {n : Nat} {x : Lexeme} {xs : List Lexeme} {stack later : List Operand} {a : Automaton}

/-- No operand on the stack is larger than the limit. -/
def Fits (n : Nat) (stack : List Operand) : Prop :=
  ∀ y ∈ stack, y.size ≤ n

theorem Fits.of_covered (h : Covered stack later) (hfits : Fits n later) : Fits n stack := by
  intro y hy
  obtain ⟨z, hz, hyz⟩ := h y hy
  exact Nat.le_trans hyz (hfits z hz)

theorem step_of_fits (h : step none stack x = .ok later) (hfits : Fits n later) :
    step (some n) stack x = .ok later := by
  obtain ⟨r, hr, hlater⟩ := bind_eq_ok.1 h
  rw [step, hr]
  cases r with
  | settled stack => exact hlater
  | built b below =>
      obtain rfl := pure_eq_ok.1 hlater
      show (do return Operand.automaton (← SizeLimit.enforce (some n) b) :: below) = _
      rw [SizeLimit.enforce_of_le (hfits (Operand.automaton b) List.mem_cons_self)]
      rfl

theorem foldlM_of_fits (h : xs.foldlM (step none) stack = .ok later) (hfits : Fits n later) :
    xs.foldlM (step (some n)) stack = .ok later := by
  induction xs generalizing stack with
  | nil => exact h
  | cons x xs ih =>
      obtain ⟨between, hbetween, hrest⟩ := foldlM_cons_eq_ok.1 h
      -- What fits is known of the last stack, and goes back to the one in between.
      have hfirst := step_of_fits hbetween (.of_covered (covered_of_foldlM hrest) hfits)
      exact foldlM_cons_of_ok hfirst (ih hrest)

theorem fits_of_finish (h : finish none stack = .ok a) (hle : a.size ≤ n) : Fits n stack := by
  unfold finish at h
  split at h
  · exact fun y hy => absurd hy List.not_mem_nil
  · obtain ⟨b, hb, henforce⟩ := bind_eq_ok.1 h
    obtain rfl := Except.ok.inj henforce
    rw [Operand.size_of_build hb] at hle
    exact List.forall_mem_singleton.2 hle
  · simp at h

theorem finish_of_le (h : finish none stack = .ok a) (hle : a.size ≤ n) :
    finish (some n) stack = .ok a := by
  unfold finish at h ⊢
  split at h
  · exact h
  · obtain ⟨b, hb, henforce⟩ := bind_eq_ok.1 h
    obtain rfl := Except.ok.inj henforce
    rw [hb]
    exact SizeLimit.enforce_of_le hle
  · simp at h

end Evaluation

theorem Lexeme.evaluate_of_le {n : Nat} {xs : List Lexeme} {a : Automaton}
    (h : evaluate none xs = .ok a) (hle : a.size ≤ n) : evaluate (some n) xs = .ok a := by
  obtain ⟨stack, hstack, hfinish⟩ := bind_eq_ok.1 h
  rw [evaluate, Evaluation.foldlM_of_fits hstack (Evaluation.fits_of_finish hfinish hle)]
  exact Evaluation.finish_of_le hfinish hle

/-! ## The same outcome, or a refusal -/

/-- The first computation has a limit that the second one does not have, and is
cut short by it or not. -/
def Limited {α : Type} (n : Nat) (r s : Except BuildError α) : Prop :=
  r = s ∨ r = .error (.tooComplex n)

theorem Limited.bind {α β : Type} {n : Nat} {r s : Except BuildError α}
    {f g : α → Except BuildError β} (h : Limited n r s) (hf : ∀ y, Limited n (f y) (g y)) :
    Limited n (r >>= f) (s >>= g) := by
  rcases h with rfl | rfl
  · cases r with
    | error e => exact .inl rfl
    | ok y => exact hf y
  · exact .inr rfl

theorem SizeLimit.limited_enforce (n : Nat) (a : Automaton) :
    Limited n (enforce (some n) a) (enforce none a) := by
  by_cases hle : a.size ≤ n
  · exact .inl (enforce_of_le hle)
  · exact .inr (if_pos (Nat.lt_of_not_le hle))

namespace Evaluation

theorem limited_step (n : Nat) (stack : List Operand) (x : Lexeme) :
    Limited n (step (some n) stack x) (step none stack x) := by
  refine Limited.bind (.inl rfl) fun r => ?_
  cases r with
  | settled later => exact .inl rfl
  | built a below => exact (SizeLimit.limited_enforce n a).bind fun _ => .inl rfl

theorem limited_foldlM (n : Nat) (xs : List Lexeme) (stack : List Operand) :
    Limited n (xs.foldlM (step (some n)) stack) (xs.foldlM (step none) stack) := by
  induction xs generalizing stack with
  | nil => exact .inl rfl
  | cons x xs ih =>
      rw [List.foldlM_cons, List.foldlM_cons]
      exact (limited_step n stack x).bind ih

theorem limited_finish (n : Nat) (stack : List Operand) :
    Limited n (finish (some n) stack) (finish none stack) := by
  match stack with
  | [] => exact .inl rfl
  | [y] => exact Limited.bind (.inl rfl) (SizeLimit.limited_enforce n)
  | _ :: _ :: _ => exact .inl rfl

end Evaluation

theorem Pattern.limited_compile (n : Nat) (pattern : String) :
    Limited n (compile (some n) pattern) (compile none pattern) :=
  Limited.bind (.inl rfl) fun xs =>
    (Evaluation.limited_foldlM n xs []).bind (Evaluation.limited_finish n)

/-! ## Limits on patterns -/

namespace Pattern

variable {n : Nat} {pattern : String} {a : Automaton}

theorem size_le_of_compile (h : compile (some n) pattern = .ok a) (hne : pattern ≠ "") :
    a.size ≤ n := by
  obtain hempty | ⟨t, ht⟩ := exists_derives_of_compile h
  · exact absurd hempty hne
  · rw [ht.compile_eq] at h
    obtain ⟨x, -, h⟩ := bind_eq_ok.1 h
    obtain ⟨b, -, henforce⟩ := bind_eq_ok.1 h
    exact SizeLimit.le_of_enforce henforce

theorem compile_of_le (h : compile none pattern = .ok a) (hle : a.size ≤ n) :
    compile (some n) pattern = .ok a := by
  obtain ⟨xs, hxs, heval⟩ := bind_eq_ok.1 h
  rw [compile, hxs]
  exact Lexeme.evaluate_of_le heval hle

/-- A limit bounds every result but that of the empty pattern, which is the
automaton of two states for the empty word whatever the limit. -/
theorem size_le_or_eq_emptyWord (h : compile (some n) pattern = .ok a) :
    a.size ≤ n ∨ pattern = "" ∧ a = .emptyWord := by
  by_cases hne : pattern = ""
  · subst hne
    exact .inr ⟨rfl, (Except.ok.inj h).symm⟩
  · exact .inl (size_le_of_compile h hne)

/-- A result that fills its limit. -/
theorem size_le_or_eq_emptyWord_filled :
    ∃ a, compile (some 6) "(ab)*" = .ok a ∧
      (a.size ≤ 6 ∨ "(ab)*" = "" ∧ a = .emptyWord) := by
  obtain ⟨a, ha⟩ := exists_eq_ok_of_isOk (x := compile (some 6) "(ab)*") (by decide +kernel)
  exact ⟨a, ha, size_le_or_eq_emptyWord ha⟩

/-- No limit keeps the empty pattern from having two states. -/
theorem emptyWord_exceeds_limit : ∃ a, compile (some 1) "" = .ok a ∧ ¬ a.size ≤ 1 :=
  ⟨.emptyWord, rfl, Nat.not_succ_le_self 1⟩

/-- Under a limit a pattern compiles to the same automaton as without one, if
that is small enough, and is refused for its size otherwise. What does not
compile has the same error or is refused for its size before that error is
met, and errors in the text are always met first. -/
theorem compile_limited (hne : pattern ≠ "") (n : Nat) :
    (∀ a, compile none pattern = .ok a →
      compile (some n) pattern = if a.size ≤ n then .ok a else .error (.tooComplex n)) ∧
    ∀ e, compile none pattern = .error e →
      (compile (some n) pattern = .error e ∨ compile (some n) pattern = .error (.tooComplex n)) ∧
      (e.InText → compile (some n) pattern = .error e) := by
  have hlimited := limited_compile n pattern
  refine ⟨fun a ha => ?_, fun e he => ⟨?_, fun htext => ?_⟩⟩
  · by_cases hle : a.size ≤ n
    · rw [if_pos hle]
      exact compile_of_le ha hle
    · rw [if_neg hle]
      rcases hlimited with heq | hrefused
      · exact absurd (size_le_of_compile (heq.trans ha) hne) hle
      · exact hrefused
  · rw [← he]
    exact hlimited
  · -- The text is read before the evaluation begins, and no limit has a part in that.
    cases hxs : inReversePolish pattern with
    | error f =>
        rw [compile, hxs] at he ⊢
        exact he
    | ok xs =>
        rw [compile, hxs] at he
        exact absurd htext (Lexeme.failsOnly_evaluate none xs e he).not_inText

/-- A pattern with an automaton of six states, which the limits 6 and 5 allow
and refuse. -/
theorem compile_limited_star :
    ∃ a, compile none "(ab)*" = .ok a ∧ compile (some 6) "(ab)*" = .ok a ∧
      compile (some 5) "(ab)*" = .error (.tooComplex 5) := by
  have hsize : (compile none "(ab)*").toOption.map Automaton.size = some 6 := by decide +kernel
  cases ha : compile none "(ab)*" with
  | error e => simp [ha, Except.toOption] at hsize
  | ok a =>
      replace hsize : a.size = 6 := by simpa [ha, Except.toOption] using hsize
      refine ⟨a, rfl, ?_, ?_⟩
      · rw [(compile_limited (by decide) 6).1 a ha, if_pos (Nat.le_of_eq hsize)]
      · rw [(compile_limited (by decide) 5).1 a ha, if_neg (by rw [hsize]; decide)]

end Pattern

end PatternAutomata
