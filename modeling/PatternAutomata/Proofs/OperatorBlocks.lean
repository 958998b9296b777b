import PatternAutomata.Proofs.Embedding

/-!
# The blocks of each operator

Which blocks an operator puts its operands into, and what the two states are
good for that `union` and `star` put before them: state 0 does nothing but go
on to the blocks, and state 1 does nothing but accept.
-/

namespace PatternAutomata.Automaton

variable {a b : Automaton} {i : Nat} {w : List Char}

/-! ## Operands stand in blocks -/

theorem getElem?_modify_eq_map (xs : Array State) (f : State → State) (e i : Nat) :
    (xs.modify e f)[i]? = (xs[i]?).map fun s => if i = e then f s else s := by
  rw [Array.getElem?_modify]
  by_cases h : e = i
  · simp [h]
  · simp [h, Ne.symm h]

theorem getElem?_block (a : Automaton) (k : Nat) (next : List StateId) (i : Nat) :
    (a.block k next)[i]? = (a.state? i).map fun s =>
      if i = a.exit then (s.shift k).onward (some next) else s.shift k := by
  rw [block, getElem?_modify_eq_map, Array.getElem?_map, Option.map_map]
  rfl

theorem getElem?_front (s t : State) (xs : Array State) :
    (Array.mk [s, t] ++ xs)[0]? = some s ∧ (Array.mk [s, t] ++ xs)[1]? = some t := by
  refine ⟨?_, ?_⟩ <;> rw [Array.getElem?_append_left (by simp)] <;> rfl

theorem getElem?_append_add {xs ys : Array State} {k : Nat} (h : xs.size = k) (i : Nat) :
    (xs ++ ys)[i + k]? = ys[i]? := by
  rw [Array.getElem?_append_right (by omega), h, Nat.add_sub_cancel]

theorem embeds_concat_left (a b : Automaton) :
    Embeds a (a.concat b) 0 (some [b.entry + a.size]) := by
  intro i hi
  have hlt : i < (a.states.modify a.exit (·.continueTo [b.entry + a.size])).size := by
    rw [Array.size_modify]
    exact hi
  rw [state?, concat, Nat.add_zero, Array.getElem?_append_left hlt, getElem?_modify_eq_map]
  simp only [State.shift_zero]
  rfl

theorem embeds_concat_right (a b : Automaton) : Embeds b (a.concat b) a.size none := by
  intro i _
  rw [state?, concat, getElem?_append_add (by simp [size]), Array.getElem?_map]
  simp only [State.onward, ite_self]
  rfl

theorem embeds_union_left (a b : Automaton) : Embeds a (a.union b) 2 (some [1]) := by
  intro i hi
  have hlt : i < (a.block 2 [1]).size := by rwa [size_block]
  rw [state?, union, Array.append_assoc, getElem?_append_add (k := 2) rfl,
    Array.getElem?_append_left hlt]
  exact getElem?_block a 2 [1] i

theorem embeds_union_right (a b : Automaton) :
    Embeds b (a.union b) (a.size + 2) (some [1]) := by
  intro i _
  rw [state?, union, getElem?_append_add (by simp [Nat.add_comm])]
  exact getElem?_block b (a.size + 2) [1] i

theorem embeds_star (a : Automaton) : Embeds a a.star 2 (some [a.entry + 2, 1]) := by
  intro i _
  rw [state?, star, getElem?_append_add (k := 2) rfl]
  exact getElem?_block a 2 [a.entry + 2, 1] i

/-- A block that is continued does not accept at its exit. -/
theorem Embeds.accepts_exit {c : Automaton} {k : Nat} {next : List StateId}
    (h : Embeds a c k (some next)) (hexit : a.exit < a.size) :
    c.accepts (a.exit + k) = false := by
  rw [accepts, h a.exit hexit]
  cases a.state? a.exit <;> simp [State.onward]

theorem Embeds.accepts_of_none {c : Automaton} {k : Nat} (h : Embeds a c k none)
    (hi : i < a.size) : c.accepts (i + k) = a.accepts i := by
  rw [accepts, accepts, h i hi]
  cases a.state? i <;> simp [State.onward]

/-! ## States that only go on, and states that only accept -/

/-- Nothing is read in the state and nothing ends there. -/
structure Relay (c : Automaton) (p : StateId) (next : List StateId) : Prop where
  accepts_eq : c.accepts p = false
  onChar_eq : ∀ x, c.onChar p x = []
  epsilons_eq : c.epsilons p = next

/-- The empty word is accepted in the state, and no edge leaves it. -/
structure Final (c : Automaton) (p : StateId) : Prop where
  accepts_eq : c.accepts p = true
  onChar_eq : ∀ x, c.onChar p x = []
  epsilons_eq : c.epsilons p = []

theorem Relay.mem_wordsFrom_iff {c : Automaton} {p : StateId} {next : List StateId}
    (h : Relay c p next) : w ∈ c.wordsFrom p ↔ ∃ q ∈ next, w ∈ c.wordsFrom q := by
  refine ⟨fun ⟨r, hpath, hacc⟩ => ?_, fun ⟨q, hq, hw⟩ => ?_⟩
  · cases hpath with
    | refl => simp [h.accepts_eq] at hacc
    | epsilon hq htail => exact ⟨_, h.epsilons_eq ▸ hq, r, htail, hacc⟩
    | read hq _ => simp [h.onChar_eq] at hq
  · exact mem_wordsFrom_of_epsilon (h.epsilons_eq ▸ hq) hw

theorem Relay.path {c : Automaton} {p q : StateId} {next : List StateId} (h : Relay c p next)
    (hq : q ∈ next) : c.Path p [] q :=
  .epsilon (h.epsilons_eq ▸ hq) (.refl q)

theorem Final.wordsFrom_eq {c : Automaton} {p : StateId} (h : Final c p) :
    c.wordsFrom p = 1 := by
  ext w
  rw [Language.mem_one]
  refine ⟨fun ⟨r, hpath, hacc⟩ => ?_, fun hw => ?_⟩
  · cases hpath with
    | refl => rfl
    | epsilon hq _ => simp [h.epsilons_eq] at hq
    | read hq _ => simp [h.onChar_eq] at hq
  · rw [hw]
    exact ⟨p, .refl p, h.accepts_eq⟩

/-! A state without edges on symbols is one of the two. -/

theorem onChar_eq_nil {c : Automaton} {p : StateId} {s : State} (h : c.state? p = some s)
    (hs : s.edges = .empty) (x : Char) : c.onChar p x = [] := by
  rw [onChar]
  cases Symbol.ofChar? x with
  | none => rfl
  | some symbol => simp [on, h, hs]

theorem relay_of_state? {c : Automaton} {p : StateId} {next : List StateId}
    (h : c.state? p = some { epsilons := next }) : Relay c p next where
  accepts_eq := by simp [accepts, h]
  onChar_eq := onChar_eq_nil h rfl
  epsilons_eq := by simp [epsilons, h]

theorem final_of_state? {c : Automaton} {p : StateId}
    (h : c.state? p = some { accepting := true }) : Final c p where
  accepts_eq := by simp [accepts, h]
  onChar_eq := onChar_eq_nil h rfl
  epsilons_eq := by simp [epsilons, h]

theorem relay_emptyWord : Relay emptyWord 0 [1] :=
  relay_of_state? rfl

theorem final_emptyWord : Final emptyWord 1 :=
  final_of_state? rfl

theorem final_ofSymbol (s : Symbol) : Final (ofSymbol s) 1 :=
  final_of_state? rfl

theorem mem_onChar_ofSymbol {s : Symbol} {x : Char} {q : StateId} :
    q ∈ (ofSymbol s).onChar 0 x ↔ Symbol.ofChar? x = some s ∧ q = 1 := by
  rw [onChar]
  cases Symbol.ofChar? x with
  | none => simp
  | some t => by_cases ht : t = s <;> simp [on, state?, ofSymbol, ht]

/-! The two states before the blocks. -/

theorem state?_zero_union (a b : Automaton) :
    (a.union b).state? 0 = some { epsilons := [a.entry + 2, b.entry + (a.size + 2)] } := by
  rw [state?, union, Array.append_assoc]
  exact (getElem?_front ..).1

theorem state?_one_union (a b : Automaton) :
    (a.union b).state? 1 = some { accepting := true } := by
  rw [state?, union, Array.append_assoc]
  exact (getElem?_front ..).2

theorem state?_zero_star (a : Automaton) :
    a.star.state? 0 = some { epsilons := [a.entry + 2, 1] } :=
  (getElem?_front ..).1

theorem state?_one_star (a : Automaton) : a.star.state? 1 = some { accepting := true } :=
  (getElem?_front ..).2

theorem relay_union (a b : Automaton) :
    Relay (a.union b) 0 [a.entry + 2, b.entry + (a.size + 2)] :=
  relay_of_state? (state?_zero_union a b)

theorem final_union (a b : Automaton) : Final (a.union b) 1 :=
  final_of_state? (state?_one_union a b)

theorem relay_star (a : Automaton) : Relay a.star 0 [a.entry + 2, 1] :=
  relay_of_state? (state?_zero_star a)

theorem final_star (a : Automaton) : Final a.star 1 :=
  final_of_state? (state?_one_star a)

/-! ## Blocks and the states before them are all there is -/

theorem block_of_lt_concat {p : Nat} (h : p < (a.concat b).size) :
    p < a.size ∨ ∃ i < b.size, p = i + a.size := by
  rw [size_concat] at h
  by_cases hlt : p < a.size
  · exact .inl hlt
  · exact .inr ⟨p - a.size, by omega, by omega⟩

theorem block_of_lt_union {p : Nat} (h : p < (a.union b).size) :
    p = 0 ∨ p = 1 ∨ (∃ i < a.size, p = i + 2) ∨ ∃ i < b.size, p = i + (a.size + 2) := by
  rw [size_union] at h
  match p with
  | 0 => exact .inl rfl
  | 1 => exact .inr (.inl rfl)
  | i + 2 =>
      refine .inr (.inr ?_)
      by_cases hlt : i < a.size
      · exact .inl ⟨i, hlt, rfl⟩
      · exact .inr ⟨i - a.size, by omega, by omega⟩

theorem block_of_lt_star {p : Nat} (h : p < a.star.size) :
    p = 0 ∨ p = 1 ∨ ∃ i < a.size, p = i + 2 := by
  rw [size_star] at h
  match p with
  | 0 => exact .inl rfl
  | 1 => exact .inr (.inl rfl)
  | i + 2 => exact .inr (.inr ⟨i, by omega, rfl⟩)

end PatternAutomata.Automaton
