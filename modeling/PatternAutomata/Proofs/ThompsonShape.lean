import PatternAutomata.Automaton.Thompson
import PatternAutomata.Proofs.WellFormedness

/-!
# The operators keep the shape of Thompson's construction

`Thompson` is one invariant for all operators. A block keeps the shape of its
operand but for the exit, which turns from the state that accepts into one that
goes on; and the paths from end to end of an operand become the paths that the
other blocks hang on.
-/

namespace PatternAutomata

theorem State.Inner.shift {s : State} (h : s.Inner) (k : Nat) : (s.shift k).Inner := by
  cases h with
  | reads symbol dest => exact .reads symbol (dest + k)
  | goesOn dest => exact .goesOn (dest + k)
  | forks first second => exact .forks (first + k) (second + k)

theorem State.Inner.degrees {s : State} (h : s.Inner) :
    (s.edges.targets.length = 1 ∧ s.epsilons = []) ∨
      (s.edges.targets = [] ∧ (s.epsilons.length = 1 ∨ s.epsilons.length = 2)) := by
  cases h with
  | reads symbol dest => exact .inl ⟨rfl, rfl⟩
  | goesOn dest => exact .inr ⟨rfl, .inl rfl⟩
  | forks first second => exact .inr ⟨rfl, .inr rfl⟩

namespace Automaton

variable {a b c : Automaton} {i k n p q : Nat} {next : Option (List StateId)} {u v : List Char}

/-! ## States between the entry and the exit -/

/-- What is asked of every state but the exit. -/
structure Inside (c : Automaton) (p : StateId) : Prop where
  inner : ∀ s, c.state? p = some s → s.Inner
  no_edge_to_entry : ¬ c.Edge p c.entry
  onPath : c.OnPath p

theorem lt_size_of_state? {s : State} (h : c.state? p = some s) : p < c.size := by
  refine Nat.lt_of_not_le fun hle => ?_
  simp [state?_eq_none_iff.2 hle] at h

theorem Thompson.of_inside (hc : c.WellFormed) (hexit : c.state? c.exit = some { accepting := true })
    (h : ∀ p < c.size, p ≠ c.exit → c.Inside p) : c.Thompson where
  toWellFormed := hc
  exit_state := hexit
  inner p s hs hp := (h p (lt_size_of_state? hs) hp).inner s hs
  no_edge_to_entry p hedge := by
    by_cases hp : p = c.exit
    · rw [hp, edge_iff hexit] at hedge
      simp at hedge
    · exact (h p hedge.lt_size hp).no_edge_to_entry hedge
  onPath p hlt := by
    by_cases hp : p = c.exit
    · exact hp ▸ (h c.entry hc.entry_lt hc.entry_ne_exit).onPath.exit
    · exact (h p hlt hp).onPath

/-- The state that only goes on to others. -/
theorem Inside.of_relay {dests : List StateId} (hs : c.state? p = some { epsilons := dests })
    (hinner : State.Inner { epsilons := dests }) (hentry : c.entry ∉ dests) (hpath : c.OnPath p) :
    c.Inside p where
  inner t ht := by
    rw [hs] at ht
    exact Option.some.inj ht ▸ hinner
  no_edge_to_entry hedge := by
    rw [edge_iff hs] at hedge
    simp [hentry] at hedge
  onPath := hpath

/-! ## States of a block -/

namespace Embeds

theorem state?_exit {s : State} (h : Embeds a c k next) (hs : a.state? a.exit = some s) :
    c.state? (a.exit + k) = some ((s.shift k).onward next) := by
  rw [h a.exit (lt_size_of_state? hs), hs, Option.map_some, if_pos rfl]

theorem state?_of_ne (h : Embeds a c k next) (hi : i < a.size) (he : i ≠ a.exit) :
    c.state? (i + k) = (a.state? i).map (·.shift k) := by
  rw [h i hi]
  simp only [if_neg he]

/-- Where nothing is hung on a block, its exit is no different from the others. -/
theorem state?_of_none {s : State} (h : Embeds a c k none) (hs : a.state? i = some s) :
    c.state? (i + k) = some (s.shift k) := by
  rw [h i (lt_size_of_state? hs), hs, Option.map_some]
  simp only [State.onward, ite_self]

/-- An edge out of a block is an edge of the operand, or leads on from its exit. -/
theorem of_edge (h : Embeds a c k next) (hi : i < a.size) (hq : c.Edge (i + k) q) :
    (∃ j, a.Edge i j ∧ q = j + k) ∨ (i = a.exit ∧ q ∈ next.getD []) := by
  rcases hq with hq | ⟨symbol, hq⟩
  · rw [h.epsilons_eq hi, List.mem_append] at hq
    rcases hq with hq | hq
    · obtain ⟨j, hj, rfl⟩ := List.mem_map.1 hq
      exact .inl ⟨j, .inl hj, rfl⟩
    · split at hq
      · rename_i he
        exact .inr ⟨he, hq⟩
      · simp at hq
  · rw [h.on_eq hi] at hq
    obtain ⟨j, hj, rfl⟩ := List.mem_map.1 hq
    exact .inl ⟨j, .inr ⟨symbol, hj⟩, rfl⟩

/-- The exit of a block goes on by epsilon edges. -/
theorem path_next (h : Embeds a c k next) (hexit : a.exit < a.size) (hq : q ∈ next.getD []) :
    c.Path (a.exit + k) [] q := by
  refine .epsilon (q := q) ?_ (.refl q)
  rw [h.epsilons_eq hexit, if_pos rfl]
  exact List.mem_append_right _ hq

theorem onPath (h : Embeds a c k next) (hin : c.Path c.entry u (a.entry + k))
    (hout : c.Path (a.exit + k) v c.exit) (hp : a.OnPath p) : c.OnPath (p + k) := by
  obtain ⟨x, y, hx, hy⟩ := hp
  exact ⟨u ++ x, y ++ v, hin.append (h.path hx), (h.path hy).append hout⟩

/-- A state of a block is as it should be if the block is reached and left, and
no edge leads from it to the entry of the whole. -/
theorem inside (h : Embeds a c k next) (ha : a.Thompson) (hi : i < a.size)
    (hexit : i = a.exit → (State.onward next { accepting := true }).Inner)
    (hnext : c.entry ∉ next.getD []) (hback : ∀ j, a.Edge i j → c.entry ≠ j + k)
    (hin : c.Path c.entry u (a.entry + k)) (hout : c.Path (a.exit + k) v c.exit) :
    c.Inside (i + k) where
  inner s hs := by
    by_cases he : i = a.exit
    · rw [he, h.state?_exit ha.exit_state] at hs
      exact Option.some.inj hs ▸ hexit he
    · rw [h.state?_of_ne hi he] at hs
      obtain ⟨t, ht, rfl⟩ := Option.map_eq_some_iff.1 hs
      exact (ha.inner i t ht he).shift k
  no_edge_to_entry hedge := by
    rcases h.of_edge hi hedge with ⟨j, hj, heq⟩ | ⟨-, hq⟩
    · exact hback j hj heq
    · exact hnext hq
  onPath := h.onPath hin hout (ha.onPath i hi)

end Embeds

/-! ## The operators -/

namespace Thompson

theorem exists_path (h : a.Thompson) : ∃ w, a.Path a.entry w a.exit := by
  obtain ⟨u, v, hin, hout⟩ := h.onPath a.entry h.entry_lt
  exact ⟨u ++ v, hin.append hout⟩

/-- Of two states the one that is not the exit has to be looked at. -/
theorem of_pair (hc : c.WellFormed) (hsize : c.size = 2) (hexit : c.exit = 1)
    (hone : c.state? 1 = some { accepting := true }) (hzero : c.Inside 0) : c.Thompson := by
  refine of_inside hc (hexit ▸ hone) fun p hlt hp => ?_
  rw [hsize] at hlt
  rw [hexit] at hp
  obtain rfl : p = 0 := by omega
  exact hzero

theorem emptyWord : Automaton.emptyWord.Thompson := by
  have hzero : Automaton.emptyWord.state? 0 = some { epsilons := [1] } := rfl
  refine of_pair .emptyWord rfl rfl rfl (.of_relay hzero (.goesOn 1) (by decide) ?_)
  exact ⟨[], [], .refl 0, relay_emptyWord.path (List.mem_singleton_self 1)⟩

theorem ofSymbol (symbol : Symbol) : (Automaton.ofSymbol symbol).Thompson := by
  have hzero : (Automaton.ofSymbol symbol).state? 0 = some { edges := .single symbol 1 } := rfl
  refine of_pair (.ofSymbol symbol) rfl rfl rfl ⟨fun s hs => ?_, fun hedge => ?_, ?_⟩
  · rw [hzero] at hs
    exact Option.some.inj hs ▸ .reads symbol 1
  · rw [edge_iff hzero] at hedge
    obtain hq | ⟨t, hq⟩ := hedge
    · simp at hq
    · rw [EdgeTable.on_single] at hq
      split at hq
      · exact absurd (List.mem_singleton.1 hq) Nat.zero_ne_one
      · simp at hq
  · refine ⟨[], [Symbol.toChar symbol], .refl 0, .read (q := 1) ?_ (.refl 1)⟩
    exact mem_onChar_ofSymbol.2 ⟨Symbol.ofChar?_toChar symbol, rfl⟩

theorem concat (ha : a.Thompson) (hb : b.Thompson) : (a.concat b).Thompson := by
  have hleft := embeds_concat_left a b
  have hright := embeds_concat_right a b
  obtain ⟨u, hu⟩ := ha.exists_path
  obtain ⟨v, hv⟩ := hb.exists_path
  have hjoin : (a.concat b).Path a.exit [] (b.entry + a.size) :=
    hleft.path_next ha.exit_lt (List.mem_singleton_self _)
  -- The entry is a state of the first block, so nothing in the second one is taken for it.
  have hbefore : ∀ n, (a.concat b).entry ≠ n + a.size := fun n =>
    Nat.ne_of_lt (Nat.lt_of_lt_of_le ha.entry_lt (Nat.le_add_left _ n))
  refine of_inside (ha.toWellFormed.concat hb.toWellFormed) (hright.state?_exit hb.exit_state)
    fun p hlt hp => ?_
  rcases block_of_lt_concat hlt with hi | ⟨i, hi, rfl⟩
  · refine hleft.inside ha hi (fun _ => .goesOn _) (by simpa using hbefore b.entry) ?_ (.refl _)
      (hjoin.append (hright.path hv))
    exact fun j hj heq => ha.no_edge_to_entry p (heq ▸ hj)
  · refine hright.inside hb hi ?_ (by simp) (fun j _ => hbefore j)
      ((hleft.path hu).append hjoin) (.refl _)
    exact fun he => absurd (he ▸ rfl) hp

theorem union (ha : a.Thompson) (hb : b.Thompson) : (a.union b).Thompson := by
  have hleft := embeds_union_left a b
  have hright := embeds_union_right a b
  have hzero := relay_union a b
  obtain ⟨u, hu⟩ := ha.exists_path
  have hinleft : (a.union b).Path 0 [] (a.entry + 2) := hzero.path (by simp)
  have hinright : (a.union b).Path 0 [] (b.entry + (a.size + 2)) := hzero.path (by simp)
  have houtleft : (a.union b).Path (a.exit + 2) [] 1 := hleft.path_next ha.exit_lt (by simp)
  have houtright : (a.union b).Path (b.exit + (a.size + 2)) [] 1 :=
    hright.path_next hb.exit_lt (by simp)
  refine of_inside (ha.toWellFormed.union hb.toWellFormed) (state?_one_union a b) fun p hlt hp => ?_
  rcases block_of_lt_union hlt with rfl | rfl | ⟨i, hi, rfl⟩ | ⟨i, hi, rfl⟩
  · refine .of_relay (state?_zero_union a b) (.forks _ _) (by simp [Automaton.union]) ?_
    exact ⟨[], _, .refl 0, hinleft.append ((hleft.path hu).append houtleft)⟩
  · exact absurd rfl hp
  · exact hleft.inside ha hi (fun _ => .goesOn 1) (by simp [Automaton.union])
      (fun j _ => Nat.ne_of_lt (Nat.succ_pos _)) hinleft houtleft
  · exact hright.inside hb hi (fun _ => .goesOn 1) (by simp [Automaton.union])
      (fun j _ => Nat.ne_of_lt (Nat.succ_pos _)) hinright houtright

theorem star (ha : a.Thompson) : a.star.Thompson := by
  have hblock := embeds_star a
  have hzero := relay_star a
  have hin : a.star.Path 0 [] (a.entry + 2) := hzero.path (by simp)
  have hout : a.star.Path (a.exit + 2) [] 1 := hblock.path_next ha.exit_lt (by simp)
  refine of_inside ha.toWellFormed.star (state?_one_star a) fun p hlt hp => ?_
  rcases block_of_lt_star hlt with rfl | rfl | ⟨i, hi, rfl⟩
  · refine .of_relay (state?_zero_star a) (.forks _ _) (by simp [Automaton.star]) ?_
    exact ⟨[], [], .refl 0, hzero.path (List.mem_cons_of_mem _ (List.mem_singleton_self 1))⟩
  · exact absurd rfl hp
  · exact hblock.inside ha hi (fun _ => .forks _ _) (by simp [Automaton.star])
      (fun j _ => Nat.ne_of_lt (Nat.succ_pos _)) hin hout

theorem keptByOperators : KeptByOperators Thompson :=
  ⟨emptyWord, ofSymbol, concat, union, star⟩

end Thompson

theorem Constructed.thompson (h : Constructed a) : a.Thompson :=
  h.holds Thompson.keptByOperators fun hw => absurd hw Bool.false_ne_true

/-- The shape of every automaton that the operators and the compiler make. -/
theorem Constructed.shape (h : Constructed a) :
    a.entry ≠ a.exit ∧
      (∀ p, a.accepts p = true ↔ p = a.exit) ∧
      (∀ p, ¬ a.Edge p a.entry) ∧
      (∀ q, ¬ a.Edge a.exit q) ∧
      (∀ p s, a.state? p = some s → p ≠ a.exit →
        (s.edges.targets.length = 1 ∧ s.epsilons = []) ∨
          (s.edges.targets = [] ∧ (s.epsilons.length = 1 ∨ s.epsilons.length = 2))) ∧
      a.Closed ∧
      ∀ p < a.size, ∃ u v, a.Path a.entry u p ∧ a.Path p v a.exit := by
  have hshape := h.thompson
  refine ⟨hshape.entry_ne_exit, fun p => ⟨h.acceptsAtExit p, ?_⟩, hshape.no_edge_to_entry, ?_, ?_,
    hshape.toClosed, hshape.onPath⟩
  · exact fun hp => hp ▸ hshape.accepts_exit
  · intro q hedge
    rw [edge_iff hshape.exit_state] at hedge
    simp at hedge
  · intro p s hs hp
    exact (hshape.inner p s hs hp).degrees

/-- An automaton with copies, alternatives and an empty group in it. -/
theorem Constructed.shape_copied :
    ∃ a, Pattern.compile (some 20) "(a|())+b" = .ok a ∧
      a.entry ≠ a.exit ∧
      (∀ p, a.accepts p = true ↔ p = a.exit) ∧
      (∀ p, ¬ a.Edge p a.entry) ∧
      (∀ q, ¬ a.Edge a.exit q) ∧
      (∀ p s, a.state? p = some s → p ≠ a.exit →
        (s.edges.targets.length = 1 ∧ s.epsilons = []) ∨
          (s.edges.targets = [] ∧ (s.epsilons.length = 1 ∨ s.epsilons.length = 2))) ∧
      a.Closed ∧
      ∀ p < a.size, ∃ u v, a.Path a.entry u p ∧ a.Path p v a.exit := by
  obtain ⟨a, ha⟩ :=
    exists_eq_ok_of_isOk (x := Pattern.compile (some 20) "(a|())+b") (by decide +kernel)
  exact ⟨a, ha, Constructed.shape (.compile ha)⟩

end Automaton

end PatternAutomata
