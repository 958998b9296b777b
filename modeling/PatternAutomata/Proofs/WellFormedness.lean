import PatternAutomata.Proofs.OperatorBlocks
import PatternAutomata.Proofs.Origin

/-!
# Every automaton is well formed

`Made.wellFormed`: whatever operations an automaton comes out of, its
entry and its exit are two of its states, it accepts at the exit, and no edge
leads out of it. Edges are a matter of single states: a state that is fit for
`n` states (`State.Within`) stays fit when it is moved `k` places on among
`n + k` states or gets edges to some of them.

As long as nothing is wired by hand the exit is the only state that accepts
(`Constructed.acceptsAtExit`), since each operator takes that away from
the exits of its operands.
-/

namespace PatternAutomata

/-! ## States -/

structure State.Within (n : Nat) (s : State) : Prop where
  edges_lt : ∀ e ∈ s.edges.entries, ∀ dest ∈ e.2, dest < n
  edges_ne_nil : ∀ e ∈ s.edges.entries, e.2 ≠ []
  epsilons_lt : ∀ dest ∈ s.epsilons, dest < n

namespace State.Within

variable {n m k : Nat} {s : State}

theorem mono (h : s.Within n) (hle : n ≤ m) : s.Within m where
  edges_lt e he dest hdest := Nat.lt_of_lt_of_le (h.edges_lt e he dest hdest) hle
  edges_ne_nil := h.edges_ne_nil
  epsilons_lt dest hdest := Nat.lt_of_lt_of_le (h.epsilons_lt dest hdest) hle

theorem shift (h : s.Within n) (k : Nat) : (s.shift k).Within (n + k) where
  edges_lt e he dest hdest := by
    obtain ⟨e', he', rfl⟩ := List.mem_map.1 he
    obtain ⟨d, hd, rfl⟩ := List.mem_map.1 hdest
    exact Nat.add_lt_add_right (h.edges_lt e' he' d hd) k
  edges_ne_nil e he := by
    obtain ⟨e', he', rfl⟩ := List.mem_map.1 he
    rw [ne_eq, List.map_eq_nil_iff]
    exact h.edges_ne_nil e' he'
  epsilons_lt dest hdest := by
    obtain ⟨d, hd, rfl⟩ := List.mem_map.1 hdest
    exact Nat.add_lt_add_right (h.epsilons_lt d hd) k

theorem addEpsilons (h : s.Within n) {dests : List StateId} (hdests : ∀ d ∈ dests, d < n) :
    (s.addEpsilons dests).Within n where
  edges_lt := h.edges_lt
  edges_ne_nil := h.edges_ne_nil
  epsilons_lt dest hdest := by
    rcases List.mem_append.1 hdest with hdest | hdest
    · exact h.epsilons_lt dest hdest
    · exact hdests dest hdest

theorem continueTo (h : s.Within n) {dests : List StateId} (hdests : ∀ d ∈ dests, d < n) :
    (s.continueTo dests).Within n :=
  { h.addEpsilons hdests with }

theorem of_edges_empty (he : s.edges = .empty) (h : ∀ dest ∈ s.epsilons, dest < n) :
    s.Within n where
  edges_lt := by simp [he, EdgeTable.empty]
  edges_ne_nil := by simp [he, EdgeTable.empty]
  epsilons_lt := h

/-- What holds of each list of destinations still does when one list is new or
longer by one. -/
theorem forall_mem_insertEntry {Q : List StateId → Prop} {symbol : Symbol} {dest : StateId}
    {es : List (Symbol × List StateId)} (h : ∀ e ∈ es, Q e.2) (hnew : Q [dest])
    (hlonger : ∀ dests, Q dests → Q (dests ++ [dest])) :
    ∀ e ∈ EdgeTable.insertEntry symbol dest es, Q e.2 := by
  induction es with
  | nil => simpa [EdgeTable.insertEntry] using hnew
  | cons e es ih =>
      rw [List.forall_mem_cons] at h
      rw [EdgeTable.insertEntry]
      split
      · exact List.forall_mem_cons.2 ⟨hnew, List.forall_mem_cons.2 h⟩
      · split
        · exact List.forall_mem_cons.2 ⟨hlonger _ h.1, h.2⟩
        · exact List.forall_mem_cons.2 ⟨h.1, ih h.2⟩

theorem addEdge (h : s.Within n) (symbol : Symbol) {dest : StateId} (hdest : dest < n) :
    (s.addEdge symbol dest).Within n where
  edges_lt :=
    forall_mem_insertEntry (Q := fun dests => ∀ d ∈ dests, d < n) h.edges_lt (by simpa)
      fun _ hdests => List.forall_mem_append.2 ⟨hdests, by simpa⟩
  edges_ne_nil :=
    forall_mem_insertEntry (Q := fun dests => dests ≠ []) h.edges_ne_nil (by simp) (by simp)
  epsilons_lt := h.epsilons_lt

end State.Within

namespace Automaton

variable {a b : Automaton} {n k : Nat} {next : List StateId}

/-! ## Automata -/

theorem forall_mem_modify {Q : State → Prop} {xs : Array State} {f : State → State} {e : Nat}
    (h : ∀ s ∈ xs, Q s) (hf : ∀ s, Q s → Q (f s)) : ∀ s ∈ xs.modify e f, Q s := by
  intro s hs
  obtain ⟨i, hi⟩ := Array.mem_iff_getElem?.1 hs
  rw [getElem?_modify_eq_map, Option.map_eq_some_iff] at hi
  obtain ⟨t, ht, rfl⟩ := hi
  have hQ := h t (Array.mem_of_getElem? ht)
  split
  · exact hf t hQ
  · exact hQ

namespace WellFormed

theorem of_within (h : ∀ s ∈ a.states, s.Within a.size) (hentry : a.entry < a.size)
    (hexit : a.exit < a.size) (hne : a.entry ≠ a.exit) (hacc : a.accepts a.exit = true) :
    a.WellFormed where
  edges_lt s hs := (h s hs).edges_lt
  epsilons_lt s hs := (h s hs).epsilons_lt
  entry_lt := hentry
  exit_lt := hexit
  entry_ne_exit := hne
  accepts_exit := hacc
  edges_ne_nil s hs := (h s hs).edges_ne_nil

theorem within (h : a.WellFormed) : ∀ s ∈ a.states, s.Within a.size :=
  fun s hs => ⟨h.edges_lt s hs, h.edges_ne_nil s hs, h.epsilons_lt s hs⟩

theorem within_block (h : a.WellFormed) (hle : a.size + k ≤ n)
    (hnext : ∀ d ∈ next, d < n) : ∀ s ∈ a.block k next, s.Within n := by
  refine forall_mem_modify (fun s hs => ?_) fun s hs => hs.continueTo hnext
  obtain ⟨t, ht, rfl⟩ := Array.mem_map.1 hs
  exact ((h.within t ht).shift k).mono hle

theorem forall_mem_pair {Q : State → Prop} {s t : State} (hs : Q s) (ht : Q t) :
    ∀ u ∈ Array.mk [s, t], Q u := by
  simp [hs, ht]

theorem emptyWord : Automaton.emptyWord.WellFormed := by
  refine of_within (forall_mem_pair ?_ ?_) Nat.zero_lt_two Nat.one_lt_two Nat.zero_ne_one
    final_emptyWord.accepts_eq
  · exact .of_edges_empty rfl (by simp)
  · exact .of_edges_empty rfl (by simp)

theorem ofSymbol (symbol : Symbol) : (Automaton.ofSymbol symbol).WellFormed := by
  refine of_within (forall_mem_pair ?_ ?_) Nat.zero_lt_two Nat.one_lt_two Nat.zero_ne_one
    (final_ofSymbol symbol).accepts_eq
  · have hempty : State.Within 2 {} := .of_edges_empty rfl (by simp)
    exact hempty.addEdge symbol Nat.one_lt_two
  · exact .of_edges_empty rfl (by simp)

theorem concat (ha : a.WellFormed) (hb : b.WellFormed) : (a.concat b).WellFormed := by
  have hleft : a.size ≤ (a.concat b).size := by
    rw [size_concat]
    omega
  have hright : b.size + a.size ≤ (a.concat b).size := by
    rw [size_concat]
    omega
  have hjoin := Nat.lt_of_lt_of_le (Nat.add_lt_add_right hb.entry_lt a.size) hright
  have hexit := Nat.lt_of_lt_of_le (Nat.add_lt_add_right hb.exit_lt a.size) hright
  refine of_within (fun s hs => ?_) (Nat.lt_of_lt_of_le ha.entry_lt hleft) hexit ?_ ?_
  · rcases Array.mem_append.1 hs with hs | hs
    · exact forall_mem_modify (fun t ht => (ha.within t ht).mono hleft)
        (fun t ht => ht.continueTo (List.forall_mem_singleton.2 hjoin)) s hs
    · obtain ⟨t, ht, rfl⟩ := Array.mem_map.1 hs
      exact ((hb.within t ht).shift a.size).mono hright
  · exact Nat.ne_of_lt (Nat.lt_of_lt_of_le ha.entry_lt (Nat.le_add_left _ _))
  · show (a.concat b).accepts (b.exit + a.size) = true
    rw [(embeds_concat_right a b).accepts_of_none hb.exit_lt]
    exact hb.accepts_exit

theorem union (ha : a.WellFormed) (hb : b.WellFormed) : (a.union b).WellFormed := by
  have hleft : a.size + 2 ≤ (a.union b).size := by
    rw [size_union]
    omega
  have hright : b.size + (a.size + 2) ≤ (a.union b).size := by
    rw [size_union]
    omega
  have hone : 1 < (a.union b).size := by omega
  have hfirst := Nat.lt_of_lt_of_le (Nat.add_lt_add_right ha.entry_lt 2) hleft
  have hsecond := Nat.lt_of_lt_of_le (Nat.add_lt_add_right hb.entry_lt (a.size + 2)) hright
  have hexits : ∀ d ∈ [1], d < (a.union b).size := List.forall_mem_singleton.2 hone
  have hentries : ∀ d ∈ [a.entry + 2, b.entry + (a.size + 2)], d < (a.union b).size :=
    List.forall_mem_cons.2 ⟨hfirst, List.forall_mem_singleton.2 hsecond⟩
  refine of_within (fun s hs => ?_) (Nat.lt_of_succ_lt hone) hone Nat.zero_ne_one
    (final_union a b).accepts_eq
  rw [Automaton.union, Array.mem_append, Array.mem_append] at hs
  rcases hs with (hs | hs) | hs
  · exact forall_mem_pair (.of_edges_empty rfl hentries) (.of_edges_empty rfl (by simp)) s hs
  · exact ha.within_block hleft hexits s hs
  · exact hb.within_block hright hexits s hs

theorem star (ha : a.WellFormed) : a.star.WellFormed := by
  have hleft : a.size + 2 ≤ a.star.size := by rw [size_star]
  have hone : 1 < a.star.size := by omega
  have hentry := Nat.lt_of_lt_of_le (Nat.add_lt_add_right ha.entry_lt 2) hleft
  have hnext : ∀ d ∈ [a.entry + 2, 1], d < a.star.size :=
    List.forall_mem_cons.2 ⟨hentry, List.forall_mem_singleton.2 hone⟩
  refine of_within (fun s hs => ?_) (Nat.lt_of_succ_lt hone) hone Nat.zero_ne_one
    (final_star a).accepts_eq
  rw [Automaton.star, Array.mem_append] at hs
  rcases hs with hs | hs
  · exact forall_mem_pair (.of_edges_empty rfl hnext) (.of_edges_empty rfl (by simp)) s hs
  · exact ha.within_block hleft hnext s hs

/-! ## Wiring -/

theorem accepts_modify {f : State → State} {src : StateId}
    (hf : ∀ s, (f s).accepting = s.accepting) (p : StateId) :
    accepts { a with states := a.states.modify src f } p = a.accepts p := by
  rw [accepts, accepts, state?, state?, getElem?_modify_eq_map]
  cases a.states[p]? with
  | none => rfl
  | some s => by_cases h : p = src <;> simp [h, hf]

theorem addState (h : a.WellFormed) (accepting : Bool) : (a.addState accepting).2.WellFormed := by
  have hsize : (a.addState accepting).2.size = a.size + 1 := by simp [Automaton.addState, size]
  have hexit := h.exit_lt
  refine of_within (fun s hs => ?_) ?_ ?_ h.entry_ne_exit ?_
  · rw [hsize]
    rcases Array.mem_push.1 hs with hs | rfl
    · exact (h.within s hs).mono (Nat.le_succ _)
    · exact .of_edges_empty rfl (by simp)
  · rw [hsize]
    exact Nat.lt_succ_of_lt h.entry_lt
  · rw [hsize]
    exact Nat.lt_succ_of_lt hexit
  · have hacc := h.accepts_exit
    rw [accepts, state?] at hacc ⊢
    rw [Automaton.addState, Array.getElem?_push_lt hexit]
    rwa [Array.getElem?_eq_getElem hexit] at hacc

/-- A state that changes in its edges only, and to a state of the automaton. -/
theorem modify (h : a.WellFormed) {f : State → State} (src : StateId)
    (hf : ∀ s, s.Within a.size → (f s).Within a.size)
    (haccepting : ∀ s, (f s).accepting = s.accepting) :
    WellFormed { a with states := a.states.modify src f } := by
  have hsize : size { a with states := a.states.modify src f } = a.size := by simp [size]
  refine of_within (fun s hs => ?_) ?_ ?_ h.entry_ne_exit ?_
  · rw [hsize]
    exact forall_mem_modify h.within hf s hs
  · exact hsize ▸ h.entry_lt
  · exact hsize ▸ h.exit_lt
  · rw [accepts_modify haccepting]
    exact h.accepts_exit

theorem lt_of_checkState {id : StateId} {u : Unit} (h : a.checkState id = .ok u) :
    id < a.size := by
  rw [checkState] at h
  split at h
  · assumption
  · simp at h

theorem addSymbol (h : a.WellFormed) {src value dest : Nat}
    (hb : a.addSymbol src value dest = .ok b) : b.WellFormed := by
  rw [Automaton.addSymbol] at hb
  split at hb
  · simp at hb
  · obtain ⟨_, hdest, hb⟩ := bind_eq_ok.1 hb
    obtain ⟨_, _, hb⟩ := bind_eq_ok.1 hb
    obtain rfl := pure_eq_ok.1 hb
    exact h.modify src (fun s hs => hs.addEdge _ (lt_of_checkState hdest)) fun _ => rfl

theorem addEpsilon (h : a.WellFormed) {src dest : StateId}
    (hb : a.addEpsilon src dest = .ok b) : b.WellFormed := by
  obtain ⟨_, hdest, hb⟩ := bind_eq_ok.1 hb
  obtain ⟨_, _, hb⟩ := bind_eq_ok.1 hb
  obtain rfl := pure_eq_ok.1 hb
  exact h.modify src
    (fun s hs => hs.addEpsilons (by simpa using lt_of_checkState hdest)) fun _ => rfl

theorem keptByOperators : KeptByOperators WellFormed :=
  ⟨emptyWord, ofSymbol, concat, union, star⟩

theorem keptByWiring : KeptByWiring WellFormed :=
  ⟨fun accepting h => h.addState accepting, fun h => h.addSymbol, fun h => h.addEpsilon⟩

end WellFormed

theorem Made.wellFormed {wired : Bool} (h : Made wired a) : a.WellFormed :=
  h.holds WellFormed.keptByOperators fun _ => WellFormed.keptByWiring

/-! ## The exit is the only state that accepts -/

/-- Input may run out at the exit only. -/
def AcceptsAtExit (a : Automaton) : Prop :=
  ∀ p, a.accepts p = true → p = a.exit

theorem AcceptsAtExit.sideWords_eq_zero (h : a.AcceptsAtExit) : a.sideWords = 0 := by
  ext w
  refine ⟨fun ⟨q, hq, _, hacc⟩ => absurd (h q hacc) hq, fun hw => ?_⟩
  exact absurd hw (Language.notMem_zero w)

/-- A block that is continued does not accept, if its operand accepts at the
exit only. -/
theorem AcceptsAtExit.not_accepts_block (h : a.AcceptsAtExit) (ha : a.WellFormed)
    {c : Automaton} (hc : Embeds a c k (some next)) {i : Nat}
    (hi : i < a.size) : c.accepts (i + k) = false := by
  by_cases he : i = a.exit
  · rw [he]
    exact hc.accepts_exit ha.exit_lt
  · rw [hc.accepts_eq hi he, ← Bool.not_eq_true]
    exact fun hacc => he (h i hacc)

namespace AcceptsAtExit

/-- The state is one of the two that stand before the blocks, or one of theirs. -/
theorem of_front (hzero : Relay a 0 next) (hexit : a.exit = 1)
    (h : ∀ i : Nat, a.accepts (i + 2) = false) : a.AcceptsAtExit := by
  intro p hp
  match p with
  | 0 => simp [hzero.accepts_eq] at hp
  | 1 => exact hexit.symm
  | i + 2 => simp [h] at hp

theorem emptyWord : Automaton.emptyWord.AcceptsAtExit :=
  of_front relay_emptyWord rfl fun i => by simp [accepts, state?, Automaton.emptyWord]

theorem ofSymbol (s : Symbol) : (Automaton.ofSymbol s).AcceptsAtExit := by
  intro p hp
  match p with
  | 0 => simp [accepts, state?, Automaton.ofSymbol] at hp
  | 1 => rfl
  | i + 2 => simp [accepts, state?, Automaton.ofSymbol] at hp

theorem concat (ha : a.WellFormed) (hxa : a.AcceptsAtExit)
    (hxb : b.AcceptsAtExit) : (a.concat b).AcceptsAtExit := by
  intro p hp
  by_cases hlt : p < a.size
  · have hnot := hxa.not_accepts_block ha (embeds_concat_left a b) hlt
    rw [Nat.add_zero] at hnot
    simp [hnot] at hp
  · obtain ⟨i, rfl⟩ := Nat.exists_eq_add_of_le' (Nat.le_of_not_lt hlt)
    have hi := lt_size_of_accepts hp
    rw [size_concat, Nat.add_comm a.size, Nat.add_lt_add_iff_right] at hi
    rw [(embeds_concat_right a b).accepts_of_none hi] at hp
    rw [hxb i hp]
    rfl

theorem union (ha : a.WellFormed) (hb : b.WellFormed) (hxa : a.AcceptsAtExit)
    (hxb : b.AcceptsAtExit) : (a.union b).AcceptsAtExit := by
  refine of_front (relay_union a b) rfl fun p => ?_
  by_cases hlt : p < a.size
  · exact hxa.not_accepts_block ha (embeds_union_left a b) hlt
  · obtain ⟨i, rfl⟩ := Nat.exists_eq_add_of_le' (Nat.le_of_not_lt hlt)
    rw [Nat.add_assoc]
    by_cases hi : i < b.size
    · exact hxb.not_accepts_block hb (embeds_union_right a b) hi
    · refine accepts_of_size_le ?_
      rw [size_union]
      omega

theorem star (ha : a.WellFormed) (hxa : a.AcceptsAtExit) : a.star.AcceptsAtExit := by
  refine of_front (relay_star a) rfl fun i => ?_
  by_cases hi : i < a.size
  · exact hxa.not_accepts_block ha (embeds_star a) hi
  · refine accepts_of_size_le ?_
    rw [size_star]
    omega

theorem keptByOperators : KeptByOperators fun a => a.WellFormed ∧ a.AcceptsAtExit where
  emptyWord := ⟨.emptyWord, emptyWord⟩
  ofSymbol s := ⟨.ofSymbol s, ofSymbol s⟩
  concat ha hb := ⟨ha.1.concat hb.1, concat ha.1 ha.2 hb.2⟩
  union ha hb := ⟨ha.1.union hb.1, union ha.1 hb.1 ha.2 hb.2⟩
  star ha := ⟨ha.1.star, star ha.1 ha.2⟩

end AcceptsAtExit

theorem Constructed.acceptsAtExit (h : Constructed a) : a.AcceptsAtExit :=
  (h.holds AcceptsAtExit.keptByOperators fun hw => absurd hw Bool.false_ne_true).2

end Automaton

end PatternAutomata
