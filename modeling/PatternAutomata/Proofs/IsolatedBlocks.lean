import Mathlib.Data.List.Pairwise
import PatternAutomata.Proofs.Regrouping
import PatternAutomata.Proofs.ThompsonShape

/-!
# Operands are isolated

What an operator may do to its operands. It gives their states other numbers,
the same distance on for all states of a block, and it continues their exits;
nothing else in an operand is touched. The blocks and the states that the
operator makes itself are all there is, and no number is used twice.

It follows that a block has one way in and one way out, whatever the operand
looks like inside. An edge of the operand stays in the block because the
operand is closed. So an edge that leaves a block is one that was put there,
at the exit, and an edge that enters it comes out of a state that is new or out
of the exit of some block. These are listed, and none of them leads into a
block but to its entry (`Composed.of_embeds`).
-/

namespace PatternAutomata.Automaton

/-- Where an operand has been put: the number its states are moved by, and the
states that its exit goes on to, if there is anything behind it. -/
structure Occurrence where
  operand : Automaton
  offset : Nat
  next : Option (List StateId)

namespace Occurrence

/-- The numbers of the operand's states there. -/
def states (o : Occurrence) : List StateId :=
  List.range' o.offset o.operand.size

def entry (o : Occurrence) : StateId :=
  o.operand.entry + o.offset

def exit (o : Occurrence) : StateId :=
  o.operand.exit + o.offset

theorem mem_states {o : Occurrence} {p : Nat} :
    p ∈ o.states ↔ o.offset ≤ p ∧ p < o.offset + o.operand.size :=
  List.mem_range'_1

theorem exists_of_mem_states {o : Occurrence} {p : Nat} (h : p ∈ o.states) :
    ∃ i < o.operand.size, p = i + o.offset := by
  rw [mem_states] at h
  exact ⟨p - o.offset, by omega, by omega⟩

theorem add_mem_states {o : Occurrence} {i : Nat} (hi : i < o.operand.size) :
    i + o.offset ∈ o.states := by
  rw [mem_states]
  omega

end Occurrence

/-- The operand stands there unchanged, and edges lead out of its block from the
exit only and into it to the entry only. -/
structure Isolated (c : Automaton) (o : Occurrence) : Prop where
  embeds : Embeds o.operand c o.offset o.next
  leaves : ∀ p q, c.Edge p q → p ∈ o.states → q ∉ o.states → p = o.exit
  enters : ∀ p q, c.Edge p q → p ∉ o.states → q ∈ o.states → q = o.entry

/-- The automaton is made of fresh states and of isolated blocks, each state once. -/
structure Composed (c : Automaton) (fresh : List StateId) (blocks : List Occurrence) :
    Prop where
  partition : (fresh ++ blocks.flatMap Occurrence.states).Perm (List.range c.size)
  isolated : ∀ o ∈ blocks, c.Isolated o

variable {a b c : Automaton} {i j k : Nat} {p q : StateId} {next : Option (List StateId)}
  {o u : Occurrence} {fresh : List StateId} {blocks : List Occurrence}

/-! ## Blocks in general -/

namespace Embeds

theorem lt_size (h : Embeds a c k next) (hi : i < a.size) : i + k < c.size := by
  refine Nat.lt_of_not_le fun hle => ?_
  have hnone := h i hi
  rw [state?_eq_none_iff.2 hle, eq_comm, Option.map_eq_none_iff, state?_eq_none_iff] at hnone
  omega

/-- A block within a block that is moved as a whole. -/
theorem trans (h : Embeds a b j next) (h' : Embeds b c k none) :
    Embeds a c (j + k) (next.map (·.map (· + k))) := by
  intro i hi
  rw [← Nat.add_assoc, h' (i + j) (h.lt_size hi), h i hi, Option.map_map]
  refine congrArg (Option.map · (a.state? i)) (funext fun s => ?_)
  simp only [Function.comp_apply, State.onward, ite_self]
  split
  · cases next with
    | none => exact s.shift_shift j k
    | some dests => exact (State.shift_continueTo ..).trans (by rw [State.shift_shift]; rfl)
  · exact s.shift_shift j k

end Embeds

/-- Edges of a closed operand stay in its block, so only the exit leads out. -/
theorem Occurrence.exit_of_edge (h : Embeds o.operand c o.offset o.next)
    (hclosed : o.operand.Closed) (hedge : c.Edge p q) (hp : p ∈ o.states) (hq : q ∉ o.states) :
    p = o.exit ∧ q ∈ o.next.getD [] := by
  obtain ⟨i, hi, rfl⟩ := exists_of_mem_states hp
  rcases h.of_edge hi hedge with ⟨j, hj, rfl⟩ | ⟨rfl, hq⟩
  · exact absurd (add_mem_states (hclosed.lt_of_edge hj)) hq
  · exact ⟨rfl, hq⟩

/-- Blocks that have a state in common are one block. -/
theorem eq_of_mem_states (hnodup : (fresh ++ blocks.flatMap Occurrence.states).Nodup)
    (ho : o ∈ blocks) (hu : u ∈ blocks) (hp : p ∈ o.states) (hp' : p ∈ u.states) : o = u := by
  by_contra hne
  have hdisjoint := (List.nodup_flatMap.1 (List.nodup_append.1 hnodup).2.1).2
  have : Std.Symm (Function.onFun List.Disjoint Occurrence.states) := ⟨fun _ _ h => h.symm⟩
  exact hdisjoint.forall ho hu hne hp hp'

/-- Operands in disjoint blocks are isolated if no edge that was `added` leads to
a state inside one, neither those out of fresh states nor those out of exits. -/
theorem Composed.of_embeds (added : List StateId)
    (hpart : (fresh ++ blocks.flatMap Occurrence.states).Perm (List.range c.size))
    (hembeds : ∀ o ∈ blocks, Embeds o.operand c o.offset o.next)
    (hclosed : ∀ o ∈ blocks, o.operand.Closed)
    (hfresh : ∀ p ∈ fresh, ∀ q, c.Edge p q → q ∈ added)
    (hnext : ∀ o ∈ blocks, ∀ q ∈ o.next.getD [], q ∈ added)
    (hadded : ∀ o ∈ blocks, ∀ q ∈ added, q ∈ o.states → q = o.entry) :
    c.Composed fresh blocks where
  partition := hpart
  isolated o ho := by
    have hnodup := hpart.nodup_iff.2 List.nodup_range
    refine ⟨hembeds o ho, fun p q hedge hp hq => ?_, fun p q hedge hp hq => ?_⟩
    · exact (Occurrence.exit_of_edge (hembeds o ho) (hclosed o ho) hedge hp hq).1
    · refine hadded o ho q ?_ hq
      have hstate := hpart.mem_iff.2 (List.mem_range.2 hedge.lt_size)
      rcases List.mem_append.1 hstate with hnew | hblock
      · exact hfresh p hnew q hedge
      · -- The edge comes out of another block, and `q` is not in that one as well.
        obtain ⟨u, hu, hpu⟩ := List.mem_flatMap.1 hblock
        have hqu : q ∉ u.states := fun hqu => hp (eq_of_mem_states hnodup ho hu hq hqu ▸ hpu)
        exact hnext u hu q
          (Occurrence.exit_of_edge (hembeds u hu) (hclosed u hu) hedge hpu hqu).2

/-- What comes behind the first states in one piece is what is left of them all. -/
theorem range_append_range' (k n : Nat) : List.range k ++ List.range' k n = List.range (n + k) := by
  rw [List.range_eq_range', List.range_eq_range', Nat.add_comm, ← List.range'_append_1,
    Nat.zero_add]

/-! ## The operators -/

theorem mem_of_edge_union (hp : p ∈ [0, 1]) (h : (a.union b).Edge p q) :
    q ∈ [a.entry + 2, b.entry + (a.size + 2)] := by
  rcases List.mem_pair.1 hp with rfl | rfl
  · simpa [edge_iff (state?_zero_union a b)] using h
  · simp [edge_iff (state?_one_union a b)] at h

theorem mem_of_edge_star (hp : p ∈ [0, 1]) (h : a.star.Edge p q) : q ∈ [a.entry + 2, 1] := by
  rcases List.mem_pair.1 hp with rfl | rfl
  · simpa [edge_iff (state?_zero_star a)] using h
  · simp [edge_iff (state?_one_star a)] at h

theorem composed_concat (ha : a.WellFormed) (hb : b.WellFormed) :
    (a.concat b).Composed [] [⟨a, 0, some [b.entry + a.size]⟩, ⟨b, a.size, none⟩] := by
  refine .of_embeds [b.entry + a.size] (.of_eq ?_) ?_ ?_ (by simp) (by simp) ?_
  · calc List.range' 0 a.size ++ (List.range' a.size b.size ++ [])
        = List.range a.size ++ List.range' a.size b.size := by
          rw [List.append_nil, List.range_eq_range']
      _ = List.range (a.concat b).size := by
          rw [range_append_range', size_concat, Nat.add_comm]
  · simp [embeds_concat_left a b, embeds_concat_right a b]
  · simp [ha.toClosed, hb.toClosed]
  · simp [Occurrence.mem_states, Occurrence.entry]

theorem composed_union (ha : a.WellFormed) (hb : b.WellFormed) :
    (a.union b).Composed [0, 1] [⟨a, 2, some [1]⟩, ⟨b, a.size + 2, some [1]⟩] := by
  have hentry : a.size > a.entry := ha.entry_lt
  refine .of_embeds [1, a.entry + 2, b.entry + (a.size + 2)] (.of_eq ?_) ?_ ?_
    (fun p hp q h => List.mem_cons_of_mem _ (mem_of_edge_union hp h)) (by simp) ?_
  · calc List.range 2 ++ (List.range' 2 a.size ++ (List.range' (a.size + 2) b.size ++ []))
        = List.range (a.size + 2) ++ List.range' (a.size + 2) b.size := by
          rw [List.append_nil, ← List.append_assoc, range_append_range']
      _ = List.range (a.union b).size := by
          rw [range_append_range', size_union]
          congr 1
          omega
  · simp [embeds_union_left a b, embeds_union_right a b]
  · simp [ha.toClosed, hb.toClosed]
  · simp [Occurrence.mem_states, Occurrence.entry]
    omega

theorem composed_star (ha : a.WellFormed) :
    a.star.Composed [0, 1] [⟨a, 2, some [a.entry + 2, 1]⟩] := by
  refine .of_embeds [a.entry + 2, 1] (.of_eq ?_) ?_ ?_
    (fun p hp q h => mem_of_edge_star hp h) (by simp) ?_
  · rw [size_star, ← range_append_range', ← List.append_nil (List.range' 2 a.size)]
    rfl
  · simp [embeds_star a]
  · simp [ha.toClosed]
  · simp [Occurrence.mem_states, Occurrence.entry]

/-! The second copy of a repetition's operand stands in a block that was moved
together with the two states before it. -/

theorem embeds_plus_left (a : Automaton) : Embeds a a.plus 0 (some [a.size]) := by
  have h := embeds_concat_left a a.star
  rwa [show a.star.entry + a.size = a.size from Nat.zero_add _] at h

theorem embeds_plus_right (a : Automaton) :
    Embeds a a.plus (a.size + 2) (some [a.entry + (a.size + 2), a.size + 1]) := by
  have h := (embeds_star a).trans (embeds_concat_right a a.star)
  rw [Nat.add_comm a.size 2, Nat.add_comm a.size 1, ← Nat.add_assoc]
  exact h

theorem mem_of_edge_plus (hp : p ∈ [a.size, a.size + 1]) (h : a.plus.Edge p q) :
    q ∈ [a.entry + (a.size + 2), a.size + 1] := by
  obtain ⟨i, hi, rfl⟩ : ∃ i ∈ [0, 1], p = i + a.size := by simpa [Nat.add_comm] using hp
  have hlt : i < a.star.size := by rcases List.mem_pair.1 hi with rfl | rfl <;> simp
  rcases (embeds_concat_right a a.star).of_edge hlt h with ⟨j, hj, rfl⟩ | ⟨-, hq⟩
  · rcases List.mem_pair.1 (mem_of_edge_star hi hj) with rfl | rfl
    · simp [Nat.add_assoc, Nat.add_comm 2]
    · simp [Nat.add_comm 1]
  · simp at hq

theorem composed_plus (ha : a.WellFormed) :
    a.plus.Composed [a.size, a.size + 1]
      [⟨a, 0, some [a.size]⟩, ⟨a, a.size + 2, some [a.entry + (a.size + 2), a.size + 1]⟩] := by
  have hentry : a.size > a.entry := ha.entry_lt
  refine .of_embeds [a.size, a.entry + (a.size + 2), a.size + 1] ?_ ?_ ?_
    (fun p hp q h => List.mem_cons_of_mem _ (mem_of_edge_plus hp h)) (by simp) ?_
  · refine (List.perm_append_comm_assoc ..).trans (.of_eq ?_)
    calc List.range' 0 a.size ++
          (List.range' a.size 2 ++ (List.range' (a.size + 2) a.size ++ []))
        = List.range (a.size + 2) ++ List.range' (a.size + 2) a.size := by
          rw [List.append_nil, ← List.append_assoc, ← List.range_eq_range', range_append_range',
            Nat.add_comm]
      _ = List.range a.plus.size := by rw [range_append_range', size_plus, Nat.add_assoc]
  · simp [embeds_plus_left a, embeds_plus_right a]
  · simp [ha.toClosed]
  · simp [Occurrence.mem_states, Occurrence.entry]
    omega

/-- What each operator does to operands of any shape, and that it gets there
step by step. -/
theorem Obtainable.operands_isolated (ha : Obtainable a) (hb : Obtainable b) :
    (Stepwise.concat a b = some (a.concat b) ∧
      (a.concat b).Composed [] [⟨a, 0, some [b.entry + a.size]⟩, ⟨b, a.size, none⟩]) ∧
    (Stepwise.union a b = some (a.union b) ∧
      (a.union b).Composed [0, 1] [⟨a, 2, some [1]⟩, ⟨b, a.size + 2, some [1]⟩]) ∧
    (Stepwise.star a = some a.star ∧
      a.star.Composed [0, 1] [⟨a, 2, some [a.entry + 2, 1]⟩]) ∧
    (Stepwise.plus a = some a.plus ∧
      a.plus.Composed [a.size, a.size + 1]
        [⟨a, 0, some [a.size]⟩,
          ⟨a, a.size + 2, some [a.entry + (a.size + 2), a.size + 1]⟩]) := by
  have hwa := ha.wellFormed
  have hwb := hb.wellFormed
  exact ⟨⟨Stepwise.concat_eq hwa hwb, composed_concat hwa hwb⟩,
    ⟨Stepwise.union_eq hwa hwb, composed_union hwa hwb⟩,
    ⟨Stepwise.star_eq hwa, composed_star hwa⟩,
    ⟨Stepwise.plus_eq hwa, composed_plus hwa⟩⟩

/-- An operand with an edge into its entry, an edge out of its exit and a second
accepting state, and one that reads a single symbol. -/
theorem Obtainable.operands_isolated_looped :
    looped.Obtainable ∧
      (Stepwise.concat looped (ofSymbol 99) = some (looped.concat (ofSymbol 99)) ∧
        (looped.concat (ofSymbol 99)).Composed []
          [⟨looped, 0, some [3]⟩, ⟨ofSymbol 99, 3, none⟩]) ∧
      (Stepwise.union looped (ofSymbol 99) = some (looped.union (ofSymbol 99)) ∧
        (looped.union (ofSymbol 99)).Composed [0, 1]
          [⟨looped, 2, some [1]⟩, ⟨ofSymbol 99, 5, some [1]⟩]) ∧
      (Stepwise.star looped = some looped.star ∧
        looped.star.Composed [0, 1] [⟨looped, 2, some [2, 1]⟩]) ∧
      (Stepwise.plus looped = some looped.plus ∧
        looped.plus.Composed [3, 4] [⟨looped, 0, some [3]⟩, ⟨looped, 5, some [5, 4]⟩]) :=
  ⟨obtainable_looped, obtainable_looped.operands_isolated (.ofSymbol 99)⟩

end PatternAutomata.Automaton
