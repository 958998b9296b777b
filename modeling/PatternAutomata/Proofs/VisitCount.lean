import Mathlib.Algebra.BigOperators.Group.Finset.Basic
import Mathlib.Algebra.Order.BigOperators.Group.Finset
import PatternAutomata.Proofs.EpsilonClosure
import PatternAutomata.Proofs.GuardedSearch

/-!
# How many states a search visits

The depth-first search ends on every automaton and every text, and how many
states it has visited by then is known beforehand. Under one guard a failed
search puts every state into its set that epsilon edges lead to, each of them
once, and in each it starts anew behind every edge on the next character. That
is what `visitBound` counts. A search that succeeds stops in the middle of this
and has visited no more.

The count is kept as a balance. What a set stands for is the sum over its
members of the visits that each member is answerable for (`spent`), and a call
of the recursion makes as many visits as it adds to that sum, or fewer if it
succeeds (`Explores.meets`).
-/

namespace PatternAutomata

/-! ## Sums over a set of states -/

namespace StateSet

variable {set later : StateSet} {q : StateId}

def members (set : StateSet) : Finset StateId :=
  set.toList.toFinset

theorem mem_members : q ∈ members set ↔ q ∈ set := by
  rw [members, List.mem_toFinset, Std.ExtTreeSet.mem_toList]

theorem members_empty : members ∅ = ∅ :=
  Finset.eq_empty_of_forall_notMem fun _ h => Std.ExtTreeSet.not_mem_empty (mem_members.1 h)

theorem members_insert (set : StateSet) (q : StateId) :
    members (set.insert q) = insert q (members set) := by
  ext p
  simp only [mem_members, Finset.mem_insert, Std.ExtTreeSet.mem_insert,
    Std.LawfulEqCmp.compare_eq_iff_eq]
  rw [eq_comm]

theorem nodup_toList (set : StateSet) : set.toList.Nodup :=
  set.distinct_toList.imp fun h heq => h (by simp [heq])

theorem sum_members (set : StateSet) (f : StateId → Nat) :
    ∑ q ∈ members set, f q = (set.toList.map f).sum :=
  List.sum_toFinset f (nodup_toList set)

theorem card_members (set : StateSet) : (members set).card = set.size := by
  rw [members, List.toFinset_card_of_nodup (nodup_toList set), Std.ExtTreeSet.length_toList]

end StateSet

open Automaton StateSet

variable {a : Automaton} {rest : List Char} {id : StateId} {dests : List StateId}
  {seen later : StateSet} {ok : Bool} {n : Nat}

/-! ## What a set stands for -/

/-- The visits behind the edges of a state on the next character. -/
def readBound (a : Automaton) : List Char → StateId → Nat
  | [], _ => 0
  | c :: rest, q => ((a.onChar q c).map (visitBound a rest)).sum

/-- The visits that the members of a set are answerable for: one for each member
itself, and those behind its edges on the next character. -/
def spent (a : Automaton) (rest : List Char) (set : StateSet) : Nat :=
  ∑ q ∈ members set, (readBound a rest q + 1)

theorem visitBound_eq_spent (a : Automaton) (rest : List Char) (id : StateId) :
    visitBound a rest id = spent a rest (a.epsilonClosure {id}) := by
  rw [spent, Finset.sum_add_distrib, ← Finset.card_eq_sum_ones, card_members, sum_members,
    Nat.add_comm]
  cases rest with
  | nil =>
      have hzero : readBound a [] = fun _ => 0 := rfl
      simp [visitBound, hzero]
  | cons c rest => rfl

theorem spent_empty (a : Automaton) (rest : List Char) : spent a rest ∅ = 0 := by
  rw [spent, members_empty, Finset.sum_empty]

theorem spent_insert (a : Automaton) (rest : List Char) (h : id ∉ seen) :
    spent a rest (seen.insert id) = spent a rest seen + (readBound a rest id + 1) := by
  rw [spent, members_insert, Finset.sum_insert (mt mem_members.1 h), Nat.add_comm, spent]

theorem spent_mono (a : Automaton) (rest : List Char) (h : ∀ q ∈ seen, q ∈ later) :
    spent a rest seen ≤ spent a rest later :=
  Finset.sum_le_sum_of_subset fun q hq => mem_members.2 (h q (mem_members.1 hq))

/-! ## Which states a search puts into its set -/

theorem mem_or_reach_of_mem_insert {q : StateId} (h : q ∈ seen.insert id) :
    q ∈ seen ∨ a.EpsilonReach id q := by
  rcases Std.ExtTreeSet.mem_insert.1 h with heq | h
  · exact .inr (Std.LawfulEqCmp.eq_of_compare heq ▸ .refl)
  · exact .inl h

mutual

theorem Explores.mem_or_reach {rest : List Char} {id : StateId} {seen later : StateSet}
    {ok : Bool} {n : Nat} (h : Explores a rest id seen ok later n) :
    ∀ q ∈ later, q ∈ seen ∨ a.EpsilonReach id q := by
  match h with
  | .known _ => exact fun q hq => .inl hq
  | .accepted _ _ | .readOn _ _ => exact fun q hq => mem_or_reach_of_mem_insert hq
  | .exhausted _ _ heps | .goOn _ _ heps =>
      intro q hq
      rcases heps.mem_or_reach q hq with hq | ⟨dest, hdest, hreach⟩
      · exact mem_or_reach_of_mem_insert hq
      · exact .inr (.head hdest hreach)

theorem ExploresEpsilons.mem_or_reach {rest : List Char} {dests : List StateId}
    {seen later : StateSet} {ok : Bool} {n : Nat}
    (h : ExploresEpsilons a rest dests seen ok later n) :
    ∀ q ∈ later, q ∈ seen ∨ ∃ dest ∈ dests, a.EpsilonReach dest q := by
  match h with
  | .none => exact fun q hq => .inl hq
  | .found hfirst =>
      intro q hq
      exact (hfirst.mem_or_reach q hq).imp_right fun hreach => ⟨_, List.mem_cons_self, hreach⟩
  | .next hfirst hnext =>
      intro q hq
      rcases hnext.mem_or_reach q hq with hq | ⟨dest, hdest, hreach⟩
      · exact (hfirst.mem_or_reach q hq).imp_right fun hreach => ⟨_, List.mem_cons_self, hreach⟩
      · exact .inr ⟨dest, List.mem_cons_of_mem _ hdest, hreach⟩

end

theorem Explores.mem_closure (h : Explores a rest id ∅ ok later n) :
    ∀ q ∈ later, q ∈ a.epsilonClosure {id} := by
  intro q hq
  rcases h.mem_or_reach q hq with hq | hreach
  · exact absurd hq Std.ExtTreeSet.not_mem_empty
  · exact mem_epsilonClosure_singleton.2 hreach

/-- A failed search with an empty set to begin with has put exactly the states
into it that epsilon edges lead to. -/
theorem Explores.eq_closure_of_false (h : Explores a rest id ∅ false later n) :
    later = a.epsilonClosure {id} := by
  have hdone := h.exhausted_of_false rfl
  have hclosed : a.EpsilonClosed later := fun p hp =>
    hdone.closed p hp Std.ExtTreeSet.not_mem_empty
  ext q
  refine ⟨h.mem_closure q, fun hq => ?_⟩
  exact hclosed.mem_of_reach (hdone.mem_of_dests id List.mem_cons_self)
    (mem_epsilonClosure_singleton.1 hq)

/-! ## The balance -/

/-- A search that answers `ok` makes `n` visits where it could make `bound`:
all of them, unless a success keeps it from the others. -/
structure Meets (ok : Bool) (n bound : Nat) : Prop where
  le : n ≤ bound
  eq_of_false : ok = false → n = bound

theorem Meets.of_eq {m : Nat} (h : n = m) : Meets ok n m :=
  ⟨Nat.le_of_eq h, fun _ => h⟩

theorem Meets.eq {bound : Nat} (h : Meets false n bound) : n = bound :=
  h.eq_of_false rfl

/-- For a search with a set of its own, the balance is the bound. -/
theorem Meets.visitBound (h : Explores a rest id ∅ ok later n)
    (hmeets : Meets ok (spent a rest ∅ + n) (spent a rest later)) :
    Meets ok n (visitBound a rest id) := by
  rw [visitBound_eq_spent]
  rw [spent_empty, Nat.zero_add] at hmeets
  refine ⟨Nat.le_trans hmeets.le (spent_mono a rest h.mem_closure), fun hok => ?_⟩
  subst hok
  rw [hmeets.eq, h.eq_closure_of_false]

mutual

theorem Explores.meets {rest : List Char} {id : StateId} {seen later : StateSet} {ok : Bool}
    {n : Nat} (h : Explores a rest id seen ok later n) :
    Meets ok (spent a rest seen + n) (spent a rest later) := by
  match h with
  | .known _ => exact .of_eq rfl
  | .accepted hnew _ =>
      refine .of_eq ?_
      rw [spent_insert a [] hnew, readBound]
  | .exhausted hnew _ heps =>
      have hrest := heps.meets
      rwa [spent_insert a [] hnew, readBound, Nat.zero_add, Nat.add_assoc, Nat.add_comm 1] at hrest
  | @Explores.readOn _ c tail _ _ _ hnew hreads =>
      -- The epsilon edges are not tried any more, so the state itself is all that the set gains.
      have hle := hreads.meets.le
      rw [spent_insert a (c :: tail) hnew, readBound]
      exact ⟨by omega, nofun⟩
  | @Explores.goOn _ c tail _ _ _ _ _ _ hnew hreads heps =>
      have hread := hreads.meets.eq
      have hrest := heps.meets
      rwa [spent_insert a (c :: tail) hnew, readBound, ← hread, Nat.add_assoc,
        Nat.add_right_comm] at hrest

theorem ExploresReads.meets {rest : List Char} {dests : List StateId} {ok : Bool}
    {n : Nat} (h : ExploresReads a rest dests ok n) :
    Meets ok n (dests.map (visitBound a rest)).sum := by
  match h with
  | .none => exact .of_eq rfl
  | .found hfirst =>
      have hle := (Meets.visitBound hfirst hfirst.meets).le
      rw [List.map_cons, List.sum_cons]
      exact ⟨by omega, nofun⟩
  | .next hfirst hnext =>
      have hone := (Meets.visitBound hfirst hfirst.meets).eq
      have hmore := hnext.meets
      rw [List.map_cons, List.sum_cons, ← hone]
      exact ⟨Nat.add_le_add_left hmore.le _, fun hok => by rw [hmore.eq_of_false hok]⟩

theorem ExploresEpsilons.meets {rest : List Char} {dests : List StateId}
    {seen later : StateSet} {ok : Bool} {n : Nat}
    (h : ExploresEpsilons a rest dests seen ok later n) :
    Meets ok (spent a rest seen + n) (spent a rest later) := by
  match h with
  | .none => exact .of_eq rfl
  | .found hfirst => exact hfirst.meets
  | .next hfirst hnext =>
      have hmore := hnext.meets
      rwa [← hfirst.meets.eq, Nat.add_assoc] at hmore

end

/-! ## The search ends -/

namespace DepthFirst

def Steps (a : Automaton) (s t : Search) : Prop :=
  step a s = .running t

theorem exists_last (a : Automaton) (s : Search) :
    ∃ last, Relation.ReflTransGen (Steps a) s last ∧ step a last = .finished (run a s) := by
  induction heffort : effort a s using Nat.strong_induction_on generalizing s with
  | _ k ih =>
      cases hstep : step a s with
      | finished o => exact ⟨s, .refl, by rw [hstep, run_of_step_eq_finished hstep]⟩
      | running t =>
          have hlt := effort_lt_of_step hstep
          obtain ⟨last, hreach, hlast⟩ := ih _ (heffort ▸ hlt) t rfl
          rw [← run_of_step_eq_running hstep] at hlast
          exact ⟨last, .head hstep hreach, hlast⟩

theorem meets_visitBound (a : Automaton) (input : String) :
    Meets (search a input).accepted (search a input).visits
      (visitBound a input.toList a.entry) := by
  obtain ⟨ok, later, n, h⟩ := exists_explores a input.toList a.entry ∅
  rw [search_eq_of_explores h]
  exact .visitBound h h.meets

/-- A search comes to an end after finitely many steps, on every automaton and
every text. If it fails, it has visited as many states as the bound says, in
which the closures are the states that epsilon edges lead to; if it succeeds, it
has not visited more. -/
theorem search_ends (a : Automaton) (input : String) :
    (∃ last, Relation.ReflTransGen (Steps a) (.start a input.toList) last ∧
      step a last = .finished (search a input)) ∧
    (if (search a input).accepted then
      (search a input).visits ≤ visitBound a input.toList a.entry
    else (search a input).visits = visitBound a input.toList a.entry) ∧
    ∀ p q, q ∈ a.epsilonClosure {p} ↔ a.EpsilonReach p q := by
  have hmeets := meets_visitBound a input
  refine ⟨exists_last a _, ?_, fun _ _ => mem_epsilonClosure_singleton⟩
  split
  · exact hmeets.le
  · rename_i hrejected
    exact hmeets.eq_of_false (Bool.eq_false_of_not_eq_true hrejected)

end DepthFirst

end PatternAutomata
