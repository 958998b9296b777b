import PatternAutomata.Match.DepthFirst
import PatternAutomata.Proofs.RecursiveSearch

/-!
# The stack with guards follows the recursion

The depth-first search keeps one set for all paths and a stack of frames where
the recursion keeps a set for each path and calls itself. What ties the two
together is that a guard stands for a set: the states remembered under a guard
are the members of the set that the recursion hands from call to call
(`Remembers`), and a guard that is not issued yet stands for the empty set.

So a failed call clears its frame from the stack, touches no guard that was
issued before it except its own, and leaves the set of its own guard as the
recursion leaves it (`Cleared`), while a call that succeeds ends the search on
the spot. `Follows` is either of the two, and `Explores.follows` is the
simulation. Each entry that the one adds to a set the other adds under a
guard, so the two counts agree on the way.
-/

namespace PatternAutomata

namespace DepthFirst

variable {a : Automaton} {s t u : Search} {visited : Visited} {guard guards : Nat}
  {seen : StateSet} {id : StateId} {rest : List Char} {below : List Frame} {n m : Nat}

/-- The states remembered under a guard are those of the set. -/
def Remembers (visited : Visited) (guard : Nat) (seen : StateSet) : Prop :=
  ∀ id, (guard, id) ∈ visited ↔ id ∈ seen

/-- States are remembered under guards that were issued, and no others. -/
def Search.Issued (s : Search) : Prop :=
  ∀ p ∈ s.visited, p.1 ≤ s.guards

/-- The search comes from `s` to `t` without an answer; it remembers `n` states
on the way, and nothing new under the guards that satisfy `kept`. -/
structure Cleared (a : Automaton) (s t : Search) (kept : Nat → Prop) (n : Nat) : Prop where
  run_eq : run a s = run a t
  guards_le : s.guards ≤ t.guards
  issued : t.Issued
  size_eq : t.visited.size = s.visited.size + n
  mem_iff : ∀ g, kept g → ∀ id, (g, id) ∈ t.visited ↔ (g, id) ∈ s.visited

theorem Cleared.refl {kept : Nat → Prop} (h : s.Issued) : Cleared a s s kept 0 where
  run_eq := rfl
  guards_le := Nat.le_refl _
  issued := h
  size_eq := rfl
  mem_iff _ _ _ := Iff.rfl

theorem Cleared.trans {kept kept' : Nat → Prop} (h : Cleared a s t kept n)
    (k : Cleared a t u kept' m) : Cleared a s u (fun g => kept g ∧ kept' g) (n + m) where
  run_eq := h.run_eq.trans k.run_eq
  guards_le := Nat.le_trans h.guards_le k.guards_le
  issued := k.issued
  size_eq := by rw [k.size_eq, h.size_eq, Nat.add_assoc]
  mem_iff g hg id := (k.mem_iff g hg.2 id).trans (h.mem_iff g hg.1 id)

theorem Cleared.mono {kept kept' : Nat → Prop} (h : Cleared a s t kept n)
    (hsub : ∀ g, kept' g → kept g) : Cleared a s t kept' n :=
  { h with mem_iff := fun g hg => h.mem_iff g (hsub g hg) }

/-- The search works off what stands above `below` as a call does that answers
`ok`: it is accepted at once, or comes to `below` with visited states that
satisfy `left`. Either way it remembers `n` states. -/
inductive Follows (a : Automaton) (s : Search) (below : List Frame) (kept : Nat → Prop)
    (left : Visited → Prop) (n : Nat) : Bool → Prop where
  | accepted : run a s = ⟨true, s.visited.size + n⟩ → Follows a s below kept left n true
  | cleared {guards : Nat} {visited : Visited} :
      Cleared a s ⟨below, guards, visited⟩ kept n → left visited →
      Follows a s below kept left n false

theorem Cleared.follows {kept kept' : Nat → Prop} {left : Visited → Prop} {ok : Bool}
    (h : Cleared a s t kept n) (k : Follows a t below kept' left m ok) :
    Follows a s below (fun g => kept g ∧ kept' g) left (n + m) ok := by
  cases k with
  | accepted hrun =>
      refine .accepted ?_
      rw [h.run_eq, hrun, h.size_eq, Nat.add_assoc]
  | cleared hclear hleft => exact .cleared (h.trans hclear) hleft

theorem Follows.mono {kept kept' : Nat → Prop} {left : Visited → Prop} {ok : Bool}
    (h : Follows a s below kept left n ok) (hsub : ∀ g, kept' g → kept g) :
    Follows a s below kept' left n ok := by
  cases h with
  | accepted hrun => exact .accepted hrun
  | cleared hclear hleft => exact .cleared (hclear.mono hsub) hleft

theorem Remembers.of_cleared {kept : Nat → Prop} (h : Cleared a s t kept n) (hg : kept guard)
    (hseen : Remembers s.visited guard seen) : Remembers t.visited guard seen :=
  fun id => (h.mem_iff guard hg id).trans (hseen id)

/-- The last of several guards under which nothing is remembered yet. -/
theorem Remembers.latest {base : Nat} {dests : List StateId} {dest : StateId}
    (h : ∀ p ∈ visited, base < p.1 → base + (dest :: dests).length < p.1) :
    Remembers visited (base + (dest :: dests).length) ∅ := by
  intro id
  refine ⟨fun hmem => ?_, fun hmem => absurd hmem Std.ExtTreeSet.not_mem_empty⟩
  have hlt := h _ hmem (Nat.lt_add_of_pos_right (Nat.succ_pos _))
  exact absurd hlt (Nat.lt_irrefl _)

theorem Remembers.insert (h : Remembers visited guard seen) (id : StateId) :
    Remembers (visited.insert (guard, id)) guard (seen.insert id) := by
  intro q
  have := h q
  simp only [Std.HashSet.mem_insert, beq_iff_eq, Prod.mk.injEq, true_and,
    Std.ExtTreeSet.mem_insert, Std.LawfulEqCmp.compare_eq_iff_eq, this]

/-! ## One frame -/

theorem cleared_known (a : Automaton) (rest : List Char) (below : List Frame)
    (hissued : ∀ p ∈ visited, p.1 ≤ guards) (h : (guard, id) ∈ visited) :
    Cleared a ⟨⟨id, rest, guard⟩ :: below, guards, visited⟩ ⟨below, guards, visited⟩
      (fun _ => True) 0 where
  run_eq := run_of_step_eq_running (by rw [step]; exact if_pos h)
  guards_le := Nat.le_refl _
  issued := hissued
  size_eq := rfl
  mem_iff _ _ _ := Iff.rfl

theorem le_of_mem_insert (hissued : ∀ p ∈ visited, p.1 ≤ guards) (hguard : guard ≤ guards) :
    ∀ p ∈ visited.insert (guard, id), p.1 ≤ guards := by
  intro p hp
  rcases Std.HashSet.mem_insert.1 hp with hp | hp
  · have hfst : guard = p.1 := congrArg Prod.fst (eq_of_beq hp)
    exact hfst ▸ hguard
  · exact hissued p hp

/-- A frame whose state is new is replaced by the frames behind its edges. -/
theorem cleared_new (rest : List Char) (below : List Frame)
    (hissued : ∀ p ∈ visited, p.1 ≤ guards) (hguard : guard ≤ guards)
    (h : (guard, id) ∉ visited) (hgo : (rest.isEmpty && a.accepts id) = false) :
    Cleared a ⟨⟨id, rest, guard⟩ :: below, guards, visited⟩
      ⟨readFrames a ⟨id, rest, guard⟩ guards ++ (epsilonFrames a ⟨id, rest, guard⟩ ++ below),
        guards + (readFrames a ⟨id, rest, guard⟩ guards).length, visited.insert (guard, id)⟩
      (fun g => g ≠ guard) 1 where
  run_eq := by
    refine run_of_step_eq_running ?_
    rw [step, if_neg h]
    simp [hgo]
  guards_le := Nat.le_add_right _ _
  issued p hp := Nat.le_trans (le_of_mem_insert hissued hguard p hp) (Nat.le_add_right _ _)
  size_eq := by rw [Std.HashSet.size_insert, if_neg h]
  mem_iff g hg q := by simp [Std.HashSet.mem_insert, Ne.symm hg]

theorem run_accepted (h : (guard, id) ∉ visited) (hacc : a.accepts id = true) :
    run a ⟨⟨id, [], guard⟩ :: below, guards, visited⟩ = ⟨true, visited.size + 1⟩ := by
  refine run_of_step_eq_finished ?_
  rw [step, if_neg h]
  simp [hacc, Std.HashSet.size_insert, h]

/-! ## The frames behind the edges on a character -/

def newFrames (rest : List Char) (guards : Nat) (dests : List StateId) : List Frame :=
  dests.mapIdx fun i dest => ⟨dest, rest, guards + dests.length - i⟩

theorem newFrames_cons (rest : List Char) (guards : Nat) (dest : StateId)
    (dests : List StateId) :
    newFrames rest guards (dest :: dests) =
      ⟨dest, rest, guards + (dest :: dests).length⟩ :: newFrames rest guards dests := by
  have hshift : (fun i (dest : StateId) =>
      Frame.mk dest rest (guards + (dests.length + 1) - (i + 1))) =
        fun i dest => ⟨dest, rest, guards + dests.length - i⟩ := by
    funext i dest
    rw [← Nat.add_assoc, Nat.add_sub_add_right]
  rw [newFrames, newFrames, List.mapIdx_cons, List.length_cons, hshift, Nat.sub_zero]

theorem length_onChar_le (a : Automaton) (id : StateId) (c : Char) (tail : List Char)
    (guard guards : Nat) :
    guards + (a.onChar id c).length
      ≤ guards + (readFrames a ⟨id, c :: tail, guard⟩ guards).length := by
  rw [readFrames, List.length_mapIdx]

end DepthFirst

open DepthFirst

variable {a : Automaton}

/-! ## The simulation -/

mutual

theorem Explores.follows {rest : List Char} {id : StateId} {seen later : StateSet} {ok : Bool}
    {n : Nat} (h : Explores a rest id seen ok later n) (below : List Frame) :
    ∀ {guards guard : Nat} {visited : Visited}, guard ≤ guards →
      (∀ p ∈ visited, p.1 ≤ guards) → Remembers visited guard seen →
      Follows a ⟨⟨id, rest, guard⟩ :: below, guards, visited⟩ below
        (fun g => g ≤ guards ∧ g ≠ guard) (Remembers · guard later) n ok := by
  match h with
  | .known hid =>
      intro guards guard visited _ hissued hseen
      have hdrop := cleared_known a rest below hissued ((hseen id).2 hid)
      exact .cleared (hdrop.mono fun _ _ => trivial) hseen
  | .accepted hnew hacc =>
      intro guards guard visited _ _ hseen
      exact .accepted (run_accepted (fun hmem => hnew ((hseen id).1 hmem)) hacc)
  | .exhausted hnew hacc heps =>
      intro guards guard visited hguard hissued hseen
      have hvisit := cleared_new (a := a) [] below hissued hguard
        (fun hmem => hnew ((hseen id).1 hmem)) (by simp [hacc])
      have hrest := heps.follows below hguard hvisit.issued (hseen.insert id)
      rw [Nat.add_comm]
      exact (hvisit.follows hrest).mono fun g hg => ⟨hg.2, hg⟩
  | @Explores.readOn _ c tail _ _ _ hnew hreads =>
      intro guards guard visited hguard hissued hseen
      have hvisit := cleared_new (a := a) (c :: tail) below hissued hguard
        (fun hmem => hnew ((hseen id).1 hmem)) (by simp)
      have hread := hreads.follows (epsilonFrames a ⟨id, c :: tail, guard⟩ ++ below)
        (length_onChar_le a id c tail guard guards) hvisit.issued
        fun p hp hlt => absurd (le_of_mem_insert hissued hguard p hp) (by omega)
      rw [Nat.add_comm]
      cases hvisit.follows hread with
      | accepted hrun => exact .accepted hrun
  | @Explores.goOn _ c tail _ _ _ _ _ _ hnew hreads heps =>
      intro guards guard visited hguard hissued hseen
      have hvisit := cleared_new (a := a) (c :: tail) below hissued hguard
        (fun hmem => hnew ((hseen id).1 hmem)) (by simp)
      have hread := hreads.follows (epsilonFrames a ⟨id, c :: tail, guard⟩ ++ below)
        (length_onChar_le a id c tail guard guards) hvisit.issued
        fun p hp hlt => absurd (le_of_mem_insert hissued hguard p hp) (by omega)
      cases hread with
      | @cleared between _ hread _ =>
          have hle : guards ≤ between := Nat.le_trans (Nat.le_add_right _ _) hread.guards_le
          have hrest := heps.follows below (Nat.le_trans hguard hle) hread.issued
            ((hseen.insert id).of_cleared hread hguard)
          rw [Nat.add_comm, ← Nat.add_assoc]
          exact ((hvisit.trans hread).follows hrest).mono
            fun g hg => ⟨⟨hg.2, hg.1⟩, Nat.le_trans hg.1 hle, hg.2⟩

theorem ExploresReads.follows {rest : List Char} {dests : List StateId} {ok : Bool}
    {n : Nat} (h : ExploresReads a rest dests ok n) (below : List Frame) :
    ∀ {base guards : Nat} {visited : Visited}, base + dests.length ≤ guards →
      (∀ p ∈ visited, p.1 ≤ guards) →
      (∀ p ∈ visited, base < p.1 → base + dests.length < p.1) →
      Follows a ⟨newFrames rest base dests ++ below, guards, visited⟩ below
        (fun g => g ≤ base) (fun _ => True) n ok := by
  match h with
  | .none =>
      intro base guards visited _ hissued _
      exact .cleared (.refl hissued) trivial
  | @ExploresReads.found _ _ dest dests _ _ hfirst =>
      intro base guards visited hroom hissued hunused
      rw [newFrames_cons, List.cons_append]
      cases hfirst.follows _ hroom hissued (.latest hunused) with
      | accepted hrun => exact .accepted hrun
  | @ExploresReads.next _ _ dest dests _ _ _ _ hfirst hnext =>
      intro base guards visited hroom hissued hunused
      rw [newFrames_cons, List.cons_append]
      cases hfirst.follows _ hroom hissued (.latest hunused) with
      | @cleared between visited₁ hone _ =>
          have hle : guards ≤ between := hone.guards_le
          -- The other guards were issued, but the first call had no use for them.
          rw [List.length_cons] at hroom hunused hone
          have hstill : ∀ p ∈ visited₁, base < p.1 → base + dests.length < p.1 := by
            intro p hp hlt
            by_cases hpg : p.1 ≤ guards ∧ p.1 ≠ base + (dests.length + 1)
            · have := hunused p ((hone.mem_iff p.1 hpg p.2).1 hp) hlt
              omega
            · omega
          have hroom' : base + dests.length ≤ between := by omega
          have hmore := hnext.follows below hroom' hone.issued hstill
          exact (hone.follows hmore).mono fun g hg => ⟨⟨by omega, by omega⟩, by omega⟩

theorem ExploresEpsilons.follows {rest : List Char} {dests : List StateId}
    {seen later : StateSet} {ok : Bool} {n : Nat}
    (h : ExploresEpsilons a rest dests seen ok later n) (below : List Frame) :
    ∀ {guards guard : Nat} {visited : Visited}, guard ≤ guards →
      (∀ p ∈ visited, p.1 ≤ guards) → Remembers visited guard seen →
      Follows a ⟨dests.map (⟨·, rest, guard⟩) ++ below, guards, visited⟩ below
        (fun g => g ≤ guards ∧ g ≠ guard) (Remembers · guard later) n ok := by
  match h with
  | .none =>
      intro guards guard visited _ hissued hseen
      exact .cleared (.refl hissued) hseen
  | .found hfirst =>
      intro guards guard visited hguard hissued hseen
      cases hfirst.follows _ hguard hissued hseen with
      | accepted hrun => exact .accepted hrun
  | .next hfirst hnext =>
      intro guards guard visited hguard hissued hseen
      cases hfirst.follows _ hguard hissued hseen with
      | cleared hone hbetween =>
          have hle := hone.guards_le
          have hmore := hnext.follows below (Nat.le_trans hguard hle) hone.issued hbetween
          exact (hone.follows hmore).mono fun g hg => ⟨hg, Nat.le_trans hg.1 hle, hg.2⟩

end

/-! ## The answer -/

namespace DepthFirst

/-- The search answers what the recursion answers, and visits a state for each
state that the recursion puts into a set. -/
theorem search_eq_of_explores {input : String} {later : StateSet} {ok : Bool} {n : Nat}
    (h : Explores a input.toList a.entry ∅ ok later n) : search a input = ⟨ok, n⟩ := by
  have hnone : ∀ p, p ∉ (∅ : Visited) := fun _ => Std.HashSet.not_mem_empty
  have hempty : Remembers ∅ 0 ∅ := fun id => by simp
  have hfollows := h.follows [] (Nat.le_refl 0) (fun p hp => absurd hp (hnone p)) hempty
  have hsize : (∅ : Visited).size = 0 := Std.HashSet.size_empty
  rw [search, Search.start]
  cases hfollows with
  | accepted hrun => rw [hrun, hsize, Nat.zero_add]
  | @cleared guards visited hclear _ =>
      have hdone : run a ⟨[], guards, visited⟩ = ⟨false, visited.size⟩ :=
        run_of_step_eq_finished rfl
      have hcount := hclear.size_eq
      simp only [hsize, Nat.zero_add] at hcount
      rw [hclear.run_eq, hdone, hcount]

/-- On every automaton and every text the recursion has one outcome and no other,
and that is the outcome of the search: the same answer, and as many states
visited as the recursion puts into sets. -/
theorem exists_explores_iff (a : Automaton) (input : String) (ok : Bool) (n : Nat) :
    (∃ later, Explores a input.toList a.entry ∅ ok later n) ↔ search a input = ⟨ok, n⟩ := by
  constructor
  · rintro ⟨later, h⟩
    exact search_eq_of_explores h
  · intro hsearch
    obtain ⟨found, later, m, h⟩ := exists_explores a input.toList a.entry ∅
    obtain ⟨rfl, rfl⟩ := Outcome.mk.inj ((search_eq_of_explores h).symm.trans hsearch)
    exact ⟨later, h⟩

theorem accepts_iff {input : String} :
    accepts a input = true ↔ input.toList ∈ a.language := by
  obtain ⟨ok, later, n, h⟩ := exists_explores a input.toList a.entry ∅
  rw [accepts, search_eq_of_explores h]
  exact h.ok_iff

end DepthFirst

end PatternAutomata
