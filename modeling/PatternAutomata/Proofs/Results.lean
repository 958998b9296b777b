/-!
# Results of computations that may fail

When a computation with several steps has a result, each of its steps had one,
and when it has an error, one of its steps had it.
-/

namespace PatternAutomata

variable {α β ε : Type}

theorem bind_eq_ok {x : Except ε α} {f : α → Except ε β} {r : β} :
    (x >>= f) = .ok r ↔ ∃ y, x = .ok y ∧ f y = .ok r := by
  cases x with
  | error e => simp [bind, Except.bind]
  | ok y => simp [bind, Except.bind]

theorem bind_eq_error {x : Except ε α} {f : α → Except ε β} {e : ε} :
    (x >>= f) = .error e ↔ x = .error e ∨ ∃ y, x = .ok y ∧ f y = .error e := by
  cases x with
  | error e' => simp [bind, Except.bind]
  | ok y => simp [bind, Except.bind]

theorem pure_eq_ok {y r : α} : (pure y : Except ε α) = .ok r ↔ y = r := by
  simp [pure, Except.pure]

theorem mapError_eq_ok {δ : Type} {f : ε → δ} {x : Except ε α} {r : α} :
    x.mapError f = .ok r ↔ x = .ok r := by
  cases x with
  | error e => exact ⟨nofun, nofun⟩
  | ok y => exact ⟨fun h => congrArg _ (Except.ok.inj h), fun h => congrArg _ (Except.ok.inj h)⟩

theorem exists_eq_ok_of_isOk {x : Except ε α} (h : x.isOk = true) : ∃ r, x = .ok r := by
  cases x with
  | error e => cases h
  | ok r => exact ⟨r, rfl⟩

theorem foldlM_cons_eq_ok {f : β → α → Except ε β} {x : α} {xs : List α} {b r : β} :
    (x :: xs).foldlM f b = .ok r ↔ ∃ c, f b x = .ok c ∧ xs.foldlM f c = .ok r := by
  rw [List.foldlM_cons, bind_eq_ok]

theorem foldlM_cons_of_ok {f : β → α → Except ε β} {x : α} {xs : List α} {b c r : β}
    (hx : f b x = .ok c) (hxs : xs.foldlM f c = .ok r) : (x :: xs).foldlM f b = .ok r :=
  foldlM_cons_eq_ok.2 ⟨c, hx, hxs⟩

theorem foldlM_append_of_ok {f : β → α → Except ε β} {xs ys : List α} {b c r : β}
    (hxs : xs.foldlM f b = .ok c) (hys : ys.foldlM f c = .ok r) :
    (xs ++ ys).foldlM f b = .ok r := by
  rw [List.foldlM_append, hxs]
  exact hys

/-- A loop fails in one of its steps, after all those before it. -/
theorem exists_of_foldlM_eq_error {f : β → α → Except ε β} {xs : List α} {b : β} {e : ε}
    (h : xs.foldlM f b = .error e) :
    ∃ us x vs c, xs = us ++ x :: vs ∧ us.foldlM f b = .ok c ∧ f c x = .error e := by
  induction xs generalizing b with
  | nil => cases h
  | cons x xs ih =>
      rw [List.foldlM_cons] at h
      cases hx : f b x with
      | error e' =>
          rw [hx] at h
          obtain rfl := Except.error.inj h
          exact ⟨[], x, xs, b, rfl, rfl, hx⟩
      | ok c =>
          rw [hx] at h
          obtain ⟨us, y, vs, d, rfl, hus, hy⟩ := ih h
          exact ⟨x :: us, y, vs, d, rfl, foldlM_cons_of_ok hx hus, hy⟩

theorem foldlM_append_cons_of_error {f : β → α → Except ε β} {us : List α} {x : α} {b c : β} {e : ε}
    (hus : us.foldlM f b = .ok c) (hx : f c x = .error e) (vs : List α) :
    (us ++ x :: vs).foldlM f b = .error e := by
  rw [List.foldlM_append, hus]
  show (x :: vs).foldlM f c = .error e
  rw [List.foldlM_cons]
  exact bind_eq_error.2 (.inl hx)

/-- The result of a loop satisfies what held before it and what every step
keeps. -/
theorem holds_of_foldlM {f : β → α → Except ε β} {xs : List α} {P : β → Prop} {b r : β}
    (hstep : ∀ x ∈ xs, ∀ c d, P c → f c x = .ok d → P d) (hb : P b)
    (h : xs.foldlM f b = .ok r) : P r := by
  induction xs generalizing b with
  | nil =>
      rw [List.foldlM_nil, pure_eq_ok] at h
      exact h ▸ hb
  | cons x xs ih =>
      obtain ⟨c, hc, hrest⟩ := foldlM_cons_eq_ok.1 h
      exact ih (fun y hy => hstep y (List.mem_cons_of_mem _ hy))
        (hstep x List.mem_cons_self b c hb hc) hrest

/-- The same for a property of the elements behind as well as of the value that
was made of them. -/
theorem holds_of_foldlM_append {f : β → α → Except ε β} {xs : List α}
    {P : List α → β → Prop} {b r : β} (us : List α)
    (hstep : ∀ us, ∀ x ∈ xs, ∀ c d, P us c → f c x = .ok d → P (us ++ [x]) d) (hb : P us b)
    (h : xs.foldlM f b = .ok r) : P (us ++ xs) r := by
  induction xs generalizing us b with
  | nil =>
      rw [List.foldlM_nil, pure_eq_ok] at h
      rw [List.append_nil]
      exact h ▸ hb
  | cons x xs ih =>
      obtain ⟨c, hc, hrest⟩ := foldlM_cons_eq_ok.1 h
      rw [← List.singleton_append, ← List.append_assoc]
      exact ih (us ++ [x]) (fun vs y hy => hstep vs y (List.mem_cons_of_mem _ hy))
        (hstep us x List.mem_cons_self b c hb hc) hrest

theorem holds_of_mapM {f : α → Except ε β} {xs : List α} {ys : List β} {P : β → Prop}
    (hf : ∀ x y, f x = .ok y → P y) (h : xs.mapM f = .ok ys) : ∀ y ∈ ys, P y := by
  induction xs generalizing ys with
  | nil =>
      obtain rfl := pure_eq_ok.1 h
      exact fun y hy => absurd hy List.not_mem_nil
  | cons x xs ih =>
      rw [List.mapM_cons] at h
      obtain ⟨y, hy, h⟩ := bind_eq_ok.1 h
      obtain ⟨rest, hrest, h⟩ := bind_eq_ok.1 h
      obtain rfl := pure_eq_ok.1 h
      exact List.forall_mem_cons.2 ⟨hf x y hy, ih hrest⟩

/-! ## Errors -/

/-- Every error that the computation may end in has the property. -/
def FailsOnly (Q : ε → Prop) (x : Except ε α) : Prop :=
  ∀ e, x = .error e → Q e

namespace FailsOnly

variable {Q : ε → Prop}

theorem ok (y : α) : FailsOnly Q (.ok y) := nofun

theorem error {e : ε} (h : Q e) : FailsOnly Q (.error e : Except ε α) := by
  intro f hf
  exact Except.error.inj hf ▸ h

theorem mono {P : ε → Prop} {x : Except ε α} (hx : FailsOnly P x) (h : ∀ e, P e → Q e) :
    FailsOnly Q x :=
  fun e he => h e (hx e he)

theorem bind_of_ok {x : Except ε α} {f : α → Except ε β} (hx : FailsOnly Q x)
    (hf : ∀ y, x = .ok y → FailsOnly Q (f y)) : FailsOnly Q (x >>= f) := by
  cases x with
  | error e => exact error (hx e rfl)
  | ok y => exact hf y rfl

theorem bind {x : Except ε α} {f : α → Except ε β} (hx : FailsOnly Q x)
    (hf : ∀ y, FailsOnly Q (f y)) : FailsOnly Q (x >>= f) :=
  hx.bind_of_ok fun y _ => hf y

theorem mapError {δ : Type} {Q : δ → Prop} {f : ε → δ} {x : Except ε α}
    (hx : FailsOnly (fun e => Q (f e)) x) : FailsOnly Q (x.mapError f) := by
  cases x with
  | error e => exact error (hx e rfl)
  | ok y => exact ok y

theorem foldlM {f : β → α → Except ε β} {xs : List α} (h : ∀ b, ∀ x ∈ xs, FailsOnly Q (f b x))
    (b : β) : FailsOnly Q (xs.foldlM f b) := by
  induction xs generalizing b with
  | nil => exact ok b
  | cons x xs ih =>
      rw [List.foldlM_cons]
      refine (h b x List.mem_cons_self).bind fun c => ?_
      exact ih (fun d y hy => h d y (List.mem_cons_of_mem _ hy)) c

end FailsOnly

end PatternAutomata
