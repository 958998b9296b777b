import PatternAutomata.Automaton.Path
import PatternAutomata.Automaton.StateSet

/-!
# The closure is exactly what epsilon edges reach

`saturate` never says why it put a state into its set, and it forgets a state
it has looked at. Two observations make up for that. Whatever enters the set
is the destination of an epsilon edge out of a member, so the result holds
nothing but what the members reach. And a member whose epsilon edges still
lead out of the set is waiting, so with an empty worklist nothing leads out
any more, and the result holds everything they reach.

Neither observation asks for ids in range: an id that no state has has no
epsilon edges, and stays in the set without adding to it.

The worklist runs empty because a state waits only once, when it is new to the
set. Both grow together (`size_discover`), and so the rounds can be counted.
-/

namespace PatternAutomata

namespace StateSet

theorem mem_fst_discover {dests waiting : List StateId} {seen : StateSet} {q : StateId} :
    q ∈ (discover dests seen waiting).1 ↔ q ∈ seen ∨ q ∈ dests := by
  induction dests generalizing seen waiting with
  | nil => simp [discover]
  | cons dest rest ih =>
      rw [discover]
      split <;> rename_i h
      · rw [ih, List.mem_cons]
        constructor
        · rintro (hq | hq)
          · exact .inl hq
          · exact .inr (.inr hq)
        · rintro (hq | rfl | hq)
          · exact .inl hq
          · exact .inl h
          · exact .inr hq
      · rw [ih, Std.ExtTreeSet.mem_insert, Std.LawfulEqCmp.compare_eq_iff_eq, List.mem_cons]
        grind

theorem mem_snd_discover {dests waiting : List StateId} {seen : StateSet} {q : StateId} :
    q ∈ (discover dests seen waiting).2 ↔ q ∈ waiting ∨ (q ∈ dests ∧ q ∉ seen) := by
  induction dests generalizing seen waiting with
  | nil => simp [discover]
  | cons dest rest ih =>
      rw [discover]
      split <;> rename_i h
      · rw [ih, List.mem_cons]
        grind
      · rw [ih, Std.ExtTreeSet.mem_insert, Std.LawfulEqCmp.compare_eq_iff_eq]
        grind

/-- A state enters the set and the states that wait together. -/
theorem size_discover (dests waiting : List StateId) (seen : StateSet) :
    (discover dests seen waiting).1.size + waiting.length =
      seen.size + (discover dests seen waiting).2.length := by
  induction dests generalizing seen waiting with
  | nil => rfl
  | cons dest rest ih =>
      rw [discover]
      split <;> rename_i h
      · exact ih waiting seen
      · have hrest := ih (dest :: waiting) (seen.insert dest)
        rw [Std.ExtTreeSet.size_insert, if_neg (mt Std.ExtTreeSet.mem_iff_contains.2 h),
          List.length_cons] at hrest
        omega

end StateSet

namespace Automaton

variable {a : Automaton} {seen set : StateSet} {waiting : List StateId} {p q : StateId}

def EpsilonClosed (a : Automaton) (set : StateSet) : Prop :=
  ∀ p ∈ set, ∀ q ∈ a.epsilons p, q ∈ set

theorem EpsilonClosed.mem_of_reach (h : a.EpsilonClosed set) (hp : p ∈ set)
    (hpq : a.EpsilonReach p q) : q ∈ set := by
  induction hpq with
  | refl => exact hp
  | tail _ hq ih => exact h _ ih _ hq

theorem mem_saturate_of_mem (h : q ∈ seen) : q ∈ a.saturate seen waiting := by
  fun_induction saturate with
  | case1 seen => exact h
  | case2 seen id rest found ih => exact ih (StateSet.mem_fst_discover.2 (.inl h))

/-- Soundness: what the worklist adds is reached from what was there. -/
theorem exists_reach_of_mem_saturate (hwait : ∀ p ∈ waiting, p ∈ seen)
    (h : q ∈ a.saturate seen waiting) : ∃ p ∈ seen, a.EpsilonReach p q := by
  fun_induction saturate with
  | case1 seen => exact ⟨q, h, .refl⟩
  | case2 seen id rest found ih =>
      have hfound : ∀ p ∈ found.2, p ∈ found.1 := by
        intro p hp
        refine StateSet.mem_fst_discover.2 ?_
        rcases StateSet.mem_snd_discover.1 hp with hp | ⟨hp, _⟩
        · exact .inl (hwait p (List.mem_cons_of_mem _ hp))
        · exact .inr hp
      obtain ⟨p, hp, hpq⟩ := ih hfound h
      rcases StateSet.mem_fst_discover.1 hp with hp | hp
      · exact ⟨p, hp, hpq⟩
      · exact ⟨id, hwait id List.mem_cons_self, .head hp hpq⟩

/-- Completeness: while every edge that leads out of the set leaves a waiting
state, nothing leads out of the result. -/
theorem epsilonClosed_saturate
    (hwait : ∀ p ∈ seen, p ∉ waiting → ∀ q ∈ a.epsilons p, q ∈ seen) :
    a.EpsilonClosed (a.saturate seen waiting) := by
  fun_induction saturate with
  | case1 seen => exact fun p hp => hwait p hp List.not_mem_nil
  | case2 seen id rest found ih =>
      refine ih fun p hp hnot q hq => StateSet.mem_fst_discover.2 ?_
      by_cases hid : p = id
      · exact .inr (hid ▸ hq)
      · have hold : p ∈ seen ∧ p ∉ rest := by
          rw [StateSet.mem_snd_discover] at hnot
          rcases StateSet.mem_fst_discover.1 hp with hp | hp
          · exact ⟨hp, fun hr => hnot (.inl hr)⟩
          · by_cases hs : p ∈ seen
            · exact ⟨hs, fun hr => hnot (.inl hr)⟩
            · exact absurd (.inr ⟨hp, hs⟩) hnot
        exact .inl (hwait p hold.1 (by simp [hid, hold.2]) q hq)

theorem mem_saturate_iff (hwait : ∀ p, p ∈ waiting ↔ p ∈ seen) :
    q ∈ a.saturate seen waiting ↔ ∃ p ∈ seen, a.EpsilonReach p q := by
  constructor
  · exact exists_reach_of_mem_saturate fun p => (hwait p).1
  · rintro ⟨p, hp, hpq⟩
    have hclosed : a.EpsilonClosed (a.saturate seen waiting) :=
      epsilonClosed_saturate fun r hr hnot => absurd ((hwait r).2 hr) hnot
    exact hclosed.mem_of_reach (mem_saturate_of_mem hp) hpq

theorem mem_epsilonClosure : q ∈ a.epsilonClosure set ↔ ∃ p ∈ set, a.EpsilonReach p q :=
  mem_saturate_iff fun _ => Std.ExtTreeSet.mem_toList

/-- It makes no difference in which order the members of the set wait. -/
theorem saturate_eq_epsilonClosure (hwait : waiting.Perm set.toList) :
    a.saturate set waiting = a.epsilonClosure set := by
  ext q
  rw [mem_epsilonClosure]
  exact mem_saturate_iff fun p => hwait.mem_iff.trans Std.ExtTreeSet.mem_toList

theorem mem_epsilonClosure_singleton : q ∈ a.epsilonClosure {p} ↔ a.EpsilonReach p q := by
  simp [mem_epsilonClosure]

/-! ## Rounds of the worklist

A round takes one state from the worklist. Since each state waits exactly once,
the worklist is empty after as many rounds as the closure has members. -/

/-- One round: the state in front is looked at, and what its epsilon edges lead
to is added. -/
def expand (a : Automaton) : StateSet × List StateId → StateSet × List StateId
  | (seen, []) => (seen, [])
  | (seen, id :: rest) => StateSet.discover (a.epsilons id) seen rest

/-- The worklist is empty for the first time when it has been left by every
state that waited, and by every state that has been added to the set. -/
theorem exists_rounds (a : Automaton) (seen : StateSet) (waiting : List StateId) :
    ∃ n, n + seen.size = (a.saturate seen waiting).size + waiting.length ∧
      a.expand^[n] (seen, waiting) = (a.saturate seen waiting, []) ∧
      ∀ m < n, (a.expand^[m] (seen, waiting)).2 ≠ [] := by
  fun_induction saturate with
  | case1 seen => exact ⟨0, Nat.zero_add _, rfl, fun m hm => absurd hm (Nat.not_lt_zero m)⟩
  | case2 seen id rest found ih =>
      obtain ⟨n, hcount, hlast, hbefore⟩ := ih
      have hfound : found.1.size + rest.length = seen.size + found.2.length :=
        StateSet.size_discover ..
      refine ⟨n + 1, ?_, hlast, fun m hm => ?_⟩
      · rw [List.length_cons]
        omega
      · cases m with
        | zero => exact List.cons_ne_nil id rest
        | succ m => exact hbefore m (Nat.lt_of_succ_lt_succ hm)

/-- In whatever order the members of the set wait, the worklist runs empty, after
one round for each member of the closure and not before. The closure is the set of
all ids that epsilon edges lead to from the members of the given set. A member
that is no state of the automaton is among them, and no edge leads on from there. -/
theorem epsilonClosure_exact (a : Automaton) (set : StateSet) :
    (∀ waiting, waiting.Perm set.toList →
      a.expand^[(a.epsilonClosure set).size] (set, waiting) = (a.epsilonClosure set, []) ∧
      ∀ n < (a.epsilonClosure set).size, (a.expand^[n] (set, waiting)).2 ≠ []) ∧
    (∀ q, q ∈ a.epsilonClosure set ↔ ∃ p ∈ set, a.EpsilonReach p q) ∧
    ∀ p ∈ set, a.size ≤ p → p ∈ a.epsilonClosure set ∧ a.epsilons p = [] := by
  refine ⟨fun waiting hwait => ?_, fun _ => mem_epsilonClosure, fun p hp hsize => ⟨?_, ?_⟩⟩
  · obtain ⟨n, hcount, hlast, hbefore⟩ := exists_rounds a set waiting
    rw [saturate_eq_epsilonClosure hwait] at hcount hlast
    rw [hwait.length_eq, Std.ExtTreeSet.length_toList] at hcount
    obtain rfl : n = (a.epsilonClosure set).size := Nat.add_right_cancel hcount
    exact ⟨hlast, hbefore⟩
  · exact mem_epsilonClosure.2 ⟨p, hp, .refl⟩
  · exact epsilons_of_size_le hsize

end Automaton

end PatternAutomata
