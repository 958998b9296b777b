import PatternAutomata.Proofs.OperandLists
import PatternAutomata.Proofs.ThompsonShape

/-!
# Chains

Text is built by concatenation, one character after the other, and each of them
brings an automaton of two states that is moved behind all that is there. What
comes out is a `Chain`, in which the place of a state says all about it. Chains
put one behind the other make a chain (`Chain.append`): a state of the first
keeps its place, a state of the second is moved by an even number, and the one
state that is neither is the exit of the first, which goes on to the entry of
the second. One character is a chain, so a text is one.
-/

namespace PatternAutomata.Automaton

variable {a b : Automaton} {i : Nat} {s : State} {cs ds : List Char} {x : Char} {text : String}

theorem state?_concat_of_ne (b : Automaton) (hs : a.state? i = some s) (hi : i ≠ a.exit) :
    (a.concat b).state? i = some s := by
  have hstate := (embeds_concat_left a b).state?_of_ne (lt_size_of_state? hs) hi
  rwa [hs, Option.map_some, State.shift_zero] at hstate

/-! ## Chains -/

/-- The automaton reads the characters one after the other, with two states for
each: state `2 * i` reads character `i`, and the state behind it goes on to the
next character, or is the exit. -/
structure Chain (cs : List Char) (a : Automaton) : Prop where
  size_eq : a.size = 2 * cs.length
  entry_eq : a.entry = 0
  size_eq_exit : a.size = a.exit + 1
  reads : ∀ i x, cs[i]? = some x →
    ∃ s, Symbol.ofChar? x = some s ∧ a.state? (2 * i) = some { edges := .single s (2 * i + 1) }
  goesOn : ∀ i, i + 1 < cs.length → a.state? (2 * i + 1) = some { epsilons := [2 * i + 2] }
  ends : a.state? a.exit = some { accepting := true }

namespace Chain

theorem ofChar (h : Automaton.ofChar x = .ok a) : Chain [x] a := by
  rw [Automaton.ofChar] at h
  split at h
  · simp at h
  · rename_i s hs
    obtain rfl := Except.ok.inj h
    refine ⟨rfl, rfl, rfl, fun i d hd => ?_, fun i hi => ?_, rfl⟩
    · obtain ⟨rfl, rfl⟩ : i = 0 ∧ x = d := by
        rw [List.getElem?_singleton] at hd
        split at hd <;> simp_all
      exact ⟨s, hs, rfl⟩
    · simp at hi

/-- The exit of the first chain goes on to the first character of the second one. -/
theorem state?_joint (h : Chain cs a) (k : Chain ds b) :
    (a.concat b).state? a.exit = some { epsilons := [a.size] } := by
  have hjoint := (embeds_concat_left a b).state?_exit h.ends
  rw [k.entry_eq, Nat.zero_add] at hjoint
  exact hjoint

theorem append (h : Chain cs a) (k : Chain ds b) : Chain (cs ++ ds) (a.concat b) where
  size_eq := by
    rw [size_concat, h.size_eq, k.size_eq, List.length_append]
    omega
  entry_eq := h.entry_eq
  size_eq_exit := by
    rw [size_concat, k.size_eq_exit, Nat.add_left_comm, ← Nat.add_assoc]
    rfl
  reads i x hx := by
    have hsize := h.size_eq
    have hexit := h.size_eq_exit
    by_cases hi : i < cs.length
    · rw [List.getElem?_append_left hi] at hx
      obtain ⟨s, hs, hstate⟩ := h.reads i x hx
      exact ⟨s, hs, state?_concat_of_ne b hstate (by omega)⟩
    · obtain ⟨j, rfl⟩ := Nat.exists_eq_add_of_le' (Nat.le_of_not_lt hi)
      rw [List.getElem?_append_right (Nat.le_add_left ..), Nat.add_sub_cancel] at hx
      obtain ⟨s, hs, hstate⟩ := k.reads j x hx
      refine ⟨s, hs, ?_⟩
      rw [Nat.mul_add, Nat.add_right_comm, ← hsize]
      exact (embeds_concat_right a b).state?_of_none hstate
  goesOn i hi := by
    have hsize := h.size_eq
    have hexit := h.size_eq_exit
    rw [List.length_append] at hi
    -- In the first chain, at its exit, or in the second chain.
    rcases Nat.lt_trichotomy (i + 1) cs.length with hlt | heq | hgt
    · exact state?_concat_of_ne b (h.goesOn i hlt) (by omega)
    · have hplace : 2 * i + 1 = a.exit := by omega
      have hnext : 2 * i + 2 = a.size := by omega
      rw [hplace, hnext]
      exact h.state?_joint k
    · obtain ⟨j, rfl⟩ := Nat.exists_eq_add_of_le' (Nat.le_of_lt_succ hgt)
      have hstate := k.goesOn j (by omega)
      rw [Nat.mul_add, Nat.add_right_comm _ _ 1, Nat.add_right_comm _ _ 2, ← hsize]
      exact (embeds_concat_right a b).state?_of_none hstate
  ends := (embeds_concat_right a b).state?_of_none k.ends

theorem ofText (h : Automaton.ofText text = .ok a) (hne : text ≠ "") : Chain text.toList a := by
  rw [Automaton.ofText] at h
  split at h
  · rename_i hs
    exact absurd (String.toList_eq_nil_iff.1 hs) hne
  · rename_i c rest hs
    obtain ⟨first, hfirst, hrest⟩ := bind_eq_ok.1 h
    rw [hs]
    refine holds_of_foldlM_append [c] (fun us x _ b d hb hstep => ?_) (.ofChar hfirst) hrest
    obtain ⟨e, he, hd⟩ := bind_eq_ok.1 hstep
    obtain rfl := pure_eq_ok.1 hd
    exact append hb (.ofChar he)

end Chain

/-! ## Text as an automaton -/

/-- A text has an automaton exactly if each of its characters stands for a
symbol, and the first that does not is the one that is refused. The automaton is
known state by state, and both engines accept the text with it and nothing else. -/
theorem ofText_expands (text : String) :
    ((∃ a, ofText text = .ok a) ↔ ∀ x ∈ text.toList, x.toNat ≤ 255) ∧
    (∀ x, text.toList.find? (255 < ·.toNat) = some x →
      ofText text = .error (.invalidArgument (.symbolOutOfRange x.toNat))) ∧
    (text = "" → ofText text = .ok emptyWord) ∧
    ∀ a, ofText text = .ok a →
      (text ≠ "" →
        a.size = 2 * text.length ∧ a.entry = 0 ∧ a.exit = 2 * text.length - 1 ∧
        (∀ i x, text.toList[i]? = some x → ∃ s, Symbol.ofChar? x = some s ∧
          a.state? (2 * i) = some { edges := .single s (2 * i + 1) }) ∧
        (∀ i, i + 1 < text.length →
          a.state? (2 * i + 1) = some { epsilons := [2 * i + 2] }) ∧
        a.state? (2 * text.length - 1) = some { accepting := true } ∧
        ∀ p, a.accepts p = true ↔ p = 2 * text.length - 1) ∧
      ∀ (engine : Engine) (input : String), engine.accepts a input = true ↔ input = text := by
  refine ⟨(consumes_ofText text).exists_ok_iff, (consumes_ofText text).error, ?_,
    fun a ha => ⟨fun hne => ?_, fun engine input => ?_⟩⟩
  · rintro rfl
    rfl
  · have hchain := Chain.ofText ha hne
    have hsize := hchain.size_eq
    rw [String.length_toList] at hsize
    have hexit : a.exit = 2 * text.length - 1 :=
      Nat.eq_sub_of_add_eq (hchain.size_eq_exit.symm.trans hsize)
    have haccepts (p : StateId) := (Operand.Means.recognizes_ofText ha).accepts_iff (p := p)
    refine ⟨hsize, hchain.entry_eq, hexit, hchain.reads, ?_, hexit ▸ hchain.ends,
      fun p => hexit ▸ haccepts p⟩
    rw [← String.length_toList]
    exact hchain.goesOn
  · rw [engine.accepts_iff, (Operand.Means.recognizes_ofText ha).language_eq]
    exact String.toList_inj

end PatternAutomata.Automaton
