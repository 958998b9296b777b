import Mathlib.Logic.Function.Basic
import PatternAutomata.Text.Quoted

/-!
# Legible writing

A way to put things into text is legible if two texts that go on behind what was
written are only equal when the same was written and they go on alike. What may
stand behind is a condition: decimal digits can be told from a blank behind them,
but not from another digit.

Nothing is said about how to read. A text that is put together from legible parts
is legible if each part may stand behind the one before (`Legible.append`,
`Legible.flatMap`), so it is enough to look at one seam at a time.
-/

namespace PatternAutomata.Text

variable {α β : Type}

/-- What was written can be told apart from what stands behind it, as long as
that is as `next` says. -/
def Legible (write : α → List Char) (next : List Char → Prop) : Prop :=
  ∀ ⦃x y : α⦄ ⦃r s : List Char⦄, next r → next s → write x ++ r = write y ++ s → x = y ∧ r = s

/-- No condition on what stands behind. -/
def Anything (_ : List Char) : Prop := True

namespace Legible

variable {f write : α → List Char} {g : β → List Char} {next after : List Char → Prop}

theorem injective (h : Legible write next) (hnil : next []) : write.Injective := by
  intro x y hxy
  exact (h hnil hnil (congrArg (· ++ []) hxy)).1

theorem mono (h : Legible write next) (hnext : ∀ r, after r → next r) : Legible write after :=
  fun _ _ r s hr hs heq => h (hnext r hr) (hnext s hs) heq

theorem comp (h : Legible write next) {p : β → α} (hp : p.Injective) :
    Legible (fun x => write (p x)) next := by
  intro x y r s hr hs heq
  obtain ⟨hxy, hrs⟩ := h hr hs heq
  exact ⟨hp hxy, hrs⟩

/-- One thing behind the other. What is written of the second has to be something
that may stand behind the first. -/
theorem append (hf : Legible f next) (hg : Legible g after)
    (hseam : ∀ y r, after r → next (g y ++ r)) :
    Legible (fun x : α × β => f x.1 ++ g x.2) after := by
  rintro ⟨x, x'⟩ ⟨y, y'⟩ r s hr hs heq
  rw [List.append_assoc, List.append_assoc] at heq
  obtain ⟨hxy, heq⟩ := hf (hseam x' r hr) (hseam y' s hs) heq
  obtain ⟨hxy', hrs⟩ := hg hr hs heq
  exact ⟨Prod.ext hxy hxy', hrs⟩

theorem append_left (h : Legible write next) (fixed : List Char) :
    Legible (fun x => fixed ++ write x) next := by
  intro x y r s hr hs heq
  rw [List.append_assoc, List.append_assoc] at heq
  exact h hr hs (List.append_cancel_left heq)

theorem append_right (h : Legible write next) (fixed : List Char)
    (hseam : ∀ r, after r → next (fixed ++ r)) :
    Legible (fun x => write x ++ fixed) after := by
  intro x y r s hr hs heq
  rw [List.append_assoc, List.append_assoc] at heq
  obtain ⟨hxy, heq⟩ := h (hseam r hr) (hseam s hs) heq
  exact ⟨hxy, List.append_cancel_left heq⟩

theorem fixed (text : List Char) : Legible (fun _ : Unit => text) Anything :=
  fun _ _ _ _ _ _ heq => ⟨rfl, List.append_cancel_left heq⟩

/-- Many things, one behind the other. Another one begins as `start` says, which
is how the end is told. -/
theorem flatMap (h : Legible write next) (start : List Char → Prop)
    (hnext : ∀ x r, next (write x ++ r)) (hstart : ∀ x r, start (write x ++ r)) :
    Legible (fun xs : List α => xs.flatMap write) fun r => next r ∧ ¬ start r := by
  have hrest (xs : List α) {r : List Char} (hr : next r) : next (xs.flatMap write ++ r) := by
    cases xs with
    | nil => exact hr
    | cons x xs =>
        rw [List.flatMap_cons, List.append_assoc]
        exact hnext x _
  -- Where one text is at its end, the other one cannot begin another item.
  have hends {y : α} {ys : List α} {r s : List Char} (hr : ¬ start r) :
      r ≠ (y :: ys).flatMap write ++ s := by
    rintro rfl
    rw [List.flatMap_cons, List.append_assoc] at hr
    exact hr (hstart y _)
  intro xs ys r s hr hs heq
  dsimp only at heq
  induction xs generalizing ys with
  | nil =>
      cases ys with
      | nil => exact ⟨rfl, heq⟩
      | cons y ys => exact absurd heq (hends hr.2)
  | cons x xs ih =>
      cases ys with
      | nil => exact absurd heq.symm (hends hs.2)
      | cons y ys =>
          simp only [List.flatMap_cons, List.append_assoc] at heq
          obtain ⟨hxy, heq⟩ := h (hrest xs hr.1) (hrest ys hs.1) heq
          obtain ⟨hxys, hrs⟩ := ih heq
          exact ⟨congrArg₂ List.cons hxy hxys, hrs⟩

/-- What is written with characters of one kind goes as far as these go. -/
theorem of_forall {p : Char → Bool} (hinj : write.Injective) (hp : ∀ x, ∀ c ∈ write x, p c) :
    Legible write fun r => ∀ c ∈ r.head?, p c = false := by
  have hread (x : α) {r : List Char} (hr : ∀ c ∈ r.head?, p c = false) :
      (write x ++ r).takeWhile p = write x := by
    rw [List.takeWhile_append_of_pos (hp x)]
    cases r with
    | nil => simp
    | cons c cs => simp [hr c rfl]
  intro x y r s hr hs heq
  have hxy : write x = write y := by rw [← hread x hr, heq, hread y hs]
  rw [hxy] at heq
  exact ⟨hinj hxy, List.append_cancel_left heq⟩

end Legible

/-! ## Numbers -/

theorem digitChar_inj {i j : Nat} (hi : i < 16) (hj : j < 16)
    (h : i.digitChar = j.digitChar) : i = j := by
  have hall : ∀ i < 16, ∀ j < 16, Nat.digitChar i = Nat.digitChar j → i = j := by decide
  exact hall i hi j hj h

theorem toDigits_injective {b : Nat} (hb : 1 < b) (hle : b ≤ 16) : (Nat.toDigits b).Injective := by
  intro m
  induction m using Nat.strongRecOn with
  | ind m ih =>
      intro n h
      have hmod (k : Nat) : k % b < 16 := Nat.lt_of_lt_of_le (Nat.mod_lt k (by omega)) hle
      rw [Nat.toDigits_eq_if hb, Nat.toDigits_eq_if (n := n) hb] at h
      split at h <;> split at h
      · exact digitChar_inj (by omega) (by omega) (List.singleton_inj.1 h)
      -- One digit is not as long as two or more.
      · simpa [Nat.toDigits_ne_nil] using congrArg List.length h
      · simpa [Nat.toDigits_ne_nil] using congrArg List.length h
      · obtain ⟨hdiv, hlast⟩ := List.append_inj' h rfl
        have hquot : m / b = n / b := ih (m / b) (Nat.div_lt_self (by omega) hb) hdiv
        have hrem : m % b = n % b := digitChar_inj (hmod m) (hmod n) (List.singleton_inj.1 hlast)
        rw [← Nat.div_add_mod m b, hquot, hrem, Nat.div_add_mod]

theorem legible_decimal : Legible (Nat.toDigits 10) fun r => ∀ c ∈ r.head?, c.isDigit = false :=
  .of_forall (toDigits_injective (by omega) (by omega)) fun _ _ hc =>
    Nat.isDigit_of_mem_toDigits (by omega) (by omega) hc

theorem exists_digitChar_of_mem_toDigits {b n : Nat} {c : Char} (hb : 1 < b)
    (h : c ∈ Nat.toDigits b n) : ∃ i < b, c = i.digitChar := by
  induction n using Nat.strongRecOn with
  | ind n ih =>
      rw [Nat.toDigits_eq_if hb] at h
      split at h
      · exact ⟨n, ‹_›, List.mem_singleton.1 h⟩
      · rcases List.mem_append.1 h with h | h
        · exact ih (n / b) (Nat.div_lt_self (by omega) hb) h
        · exact ⟨n % b, Nat.mod_lt n (by omega), List.mem_singleton.1 h⟩

/-! ## Quoted characters -/

namespace Quoted

theorem legible_hexDigits : Legible hexDigits fun r => ∀ c ∈ r.head?, (c != '\x7d') = false := by
  refine .of_forall (toDigits_injective (by omega) (by omega)) fun n c hc => ?_
  obtain ⟨i, hi, rfl⟩ := exists_digitChar_of_mem_toDigits (by omega) hc
  have hall : ∀ i < 16, (Nat.digitChar i != '\x7d') = true := by decide
  exact hall i hi

/-- The characters with a short escape between single marks, each behind the
letter of its escape. -/
def shortForms : List (Char × Char) :=
  [('0', '\x00'), ('t', '\t'), ('n', '\n'), ('r', '\r'), ('\x5c', '\x5c'), ('\x27', '\x27')]

/-- What a character between single marks looks like. -/
inductive Escaped : Char → List Char → Prop
  | short {letter c : Char} (h : (letter, c) ∈ shortForms) : Escaped c ['\x5c', letter]
  | value (c : Char) :
      Escaped c ('\x5c' :: 'u' :: '\x7b' :: (hexDigits c.toNat ++ ['\x7d']))
  | bare {c : Char} (h : c ≠ '\x5c') : Escaped c [c]

theorem escaped_escape (c : Char) : Escaped c (escape '\x27' c) := by
  rw [escape]
  iterate 6
    split
    · exact .short (by simp_all [shortForms])
  split
  · exact .value c
  · exact .bare ‹_›

theorem eq_of_mem_shortForms {letter c d : Char} (hc : (letter, c) ∈ shortForms)
    (hd : (letter, d) ∈ shortForms) : c = d := by
  have hall : ∀ e ∈ shortForms, ∀ f ∈ shortForms, e.1 = f.1 → e.2 = f.2 := by decide
  exact hall _ hc _ hd rfl

theorem not_mem_shortForms (c : Char) : ('u', c) ∉ shortForms := by
  have hall : ∀ e ∈ shortForms, e.1 ≠ 'u' := by decide
  exact fun h => hall _ h rfl

/-- The backslash tells an escape from a bare character, and the letter behind it
tells the escapes apart. -/
theorem Escaped.unique {c d : Char} {v w r s : List Char} (hc : Escaped c v) (hd : Escaped d w)
    (heq : v ++ r = w ++ s) : c = d ∧ r = s := by
  cases hc with
  | short hc =>
      cases hd with
      | short hd =>
          obtain ⟨hletter, hrs⟩ := List.cons.inj (List.cons.inj heq).2
          exact ⟨eq_of_mem_shortForms (hletter ▸ hc) hd, hrs⟩
      | value =>
          have hletter := (List.cons.inj (List.cons.inj heq).2).1
          exact absurd (hletter ▸ hc) (not_mem_shortForms c)
      | bare hd => exact absurd (List.cons.inj heq).1.symm hd
  | value =>
      cases hd with
      | short hd =>
          have hletter := (List.cons.inj (List.cons.inj heq).2).1
          exact absurd (hletter ▸ hd) (not_mem_shortForms d)
      | value =>
          have hvalue := (List.cons.inj (List.cons.inj (List.cons.inj heq).2).2).2
          have hread : Legible (fun n => hexDigits n ++ ['\x7d']) Anything :=
            legible_hexDigits.append_right _ fun r _ => by simp
          obtain ⟨hnat, hrs⟩ := hread trivial trivial hvalue
          exact ⟨Char.toNat_inj.1 hnat, hrs⟩
      | bare hd => exact absurd (List.cons.inj heq).1.symm hd
  | bare hc =>
      cases hd with
      | short hd => exact absurd (List.cons.inj heq).1 hc
      | value => exact absurd (List.cons.inj heq).1 hc
      | bare hd => exact List.cons.inj heq

theorem legible_escape : Legible (escape '\x27') Anything :=
  fun c d _ _ _ _ heq => (escaped_escape c).unique (escaped_escape d) heq

theorem toList_char (c : Char) : (char c).toList = ['\x27'] ++ (escape '\x27' c ++ ['\x27']) := by
  rw [char, String.toList_ofList]
  rfl

theorem legible_char : Legible (fun c => (char c).toList) Anything := by
  simp only [toList_char]
  exact (legible_escape.append_right _ fun _ _ => trivial).append_left _

end Quoted

end PatternAutomata.Text
