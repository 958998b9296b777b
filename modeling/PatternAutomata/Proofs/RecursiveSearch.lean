import PatternAutomata.Automaton.Path
import PatternAutomata.Match.Recursion

/-!
# The recursive search decides acceptance

Three facts about the recursion over paths, on any automaton whatever.

* **It ends.** A search goes on only behind a state that its set did not hold
  yet, or behind one character less (`exists_explores`).
* **What it finds is there.** A search that succeeds has walked a path
  (`Explores.mem_wordsFrom`).
* **What is there it finds.** The set is shared by all epsilon edges under one
  prefix of the text, so a state can be refused that a path does go through.
  `Exhausted` is why this loses nothing: when a search fails, every state that
  it put into the set can read nothing further, and no epsilon edge leads from
  there to a state outside the set. With an empty set to begin with, no path
  can get away (`Exhausted.not_mem_wordsFrom`).
-/

namespace PatternAutomata

open Automaton

variable {a : Automaton}

/-! ## A success is a path -/

mutual

theorem Explores.mem_wordsFrom {rest : List Char} {id : StateId} {seen later : StateSet}
    {ok : Bool} {n : Nat} (h : Explores a rest id seen ok later n) :
    ok = true → rest ∈ a.wordsFrom id := by
  match h with
  | .known _ => simp
  | .accepted _ hacc => exact fun _ => ⟨id, .refl id, hacc⟩
  | .exhausted _ _ heps | .goOn _ _ heps =>
      intro hok
      obtain ⟨q, hq, r, hr, hacc⟩ := heps.exists_mem_wordsFrom hok
      exact ⟨r, .epsilon hq hr, hacc⟩
  | .readOn _ hreads =>
      intro _
      obtain ⟨q, hq, r, hr, hacc⟩ := hreads.exists_mem_wordsFrom rfl
      exact ⟨r, .read hq hr, hacc⟩

theorem ExploresReads.exists_mem_wordsFrom {rest : List Char} {dests : List StateId} {ok : Bool}
    {n : Nat} (h : ExploresReads a rest dests ok n) :
    ok = true → ∃ q ∈ dests, rest ∈ a.wordsFrom q := by
  match h with
  | .none => simp
  | .found hfound => exact fun _ => ⟨_, List.mem_cons_self, hfound.mem_wordsFrom rfl⟩
  | .next _ hnext =>
      intro hok
      obtain ⟨q, hq, hw⟩ := hnext.exists_mem_wordsFrom hok
      exact ⟨q, List.mem_cons_of_mem _ hq, hw⟩

theorem ExploresEpsilons.exists_mem_wordsFrom {rest : List Char} {dests : List StateId}
    {seen later : StateSet} {ok : Bool} {n : Nat}
    (h : ExploresEpsilons a rest dests seen ok later n) :
    ok = true → ∃ q ∈ dests, rest ∈ a.wordsFrom q := by
  match h with
  | .none => simp
  | .found hfound => exact fun _ => ⟨_, List.mem_cons_self, hfound.mem_wordsFrom rfl⟩
  | .next _ hnext =>
      intro hok
      obtain ⟨q, hq, hw⟩ := hnext.exists_mem_wordsFrom hok
      exact ⟨q, List.mem_cons_of_mem _ hq, hw⟩

end

/-! ## A failure leaves nothing open -/

variable {rest : List Char} {id : StateId} {dests : List StateId} {seen between later : StateSet}
  {ok : Bool} {n : Nat}

/-- The text is not accepted in a state, and not behind any of its edges on the
next character. -/
def Stuck (a : Automaton) : List Char → StateId → Prop
  | [], p => a.accepts p = false
  | c :: rest, p => ∀ q ∈ a.onChar p c, rest ∉ a.wordsFrom q

/-- What a failed search behind some states has done to its set. -/
structure Exhausted (a : Automaton) (rest : List Char) (dests : List StateId)
    (seen later : StateSet) : Prop where
  mem_of_seen : ∀ p ∈ seen, p ∈ later
  mem_of_dests : ∀ p ∈ dests, p ∈ later
  stuck : ∀ p ∈ later, p ∉ seen → Stuck a rest p
  closed : ∀ p ∈ later, p ∉ seen → ∀ q ∈ a.epsilons p, q ∈ later

namespace Exhausted

theorem nil : Exhausted a rest [] seen seen where
  mem_of_seen _ hp := hp
  mem_of_dests _ hp := absurd hp List.not_mem_nil
  stuck _ hp hnot := absurd hp hnot
  closed _ hp hnot := absurd hp hnot

theorem known (h : id ∈ seen) : Exhausted a rest [id] seen seen where
  mem_of_seen _ hp := hp
  mem_of_dests _ hp := List.mem_singleton.1 hp ▸ h
  stuck _ hp hnot := absurd hp hnot
  closed _ hp hnot := absurd hp hnot

theorem cons (h : Exhausted a rest [id] seen between)
    (k : Exhausted a rest dests between later) : Exhausted a rest (id :: dests) seen later where
  mem_of_seen p hp := k.mem_of_seen p (h.mem_of_seen p hp)
  mem_of_dests p hp := by
    rcases List.mem_cons.1 hp with rfl | hp
    · exact k.mem_of_seen p (h.mem_of_dests p List.mem_cons_self)
    · exact k.mem_of_dests p hp
  stuck p hp hnot := by
    by_cases hb : p ∈ between
    · exact h.stuck p hb hnot
    · exact k.stuck p hp hb
  closed p hp hnot q hq := by
    by_cases hb : p ∈ between
    · exact k.mem_of_seen q (h.closed p hb hnot q hq)
    · exact k.closed p hp hb q hq

theorem visit (hstuck : Stuck a rest id)
    (h : Exhausted a rest (a.epsilons id) (seen.insert id) later) :
    Exhausted a rest [id] seen later where
  mem_of_seen p hp := h.mem_of_seen p (Std.ExtTreeSet.mem_insert.2 (.inr hp))
  mem_of_dests p hp := by
    rw [List.mem_singleton] at hp
    exact h.mem_of_seen p (by simp [hp])
  stuck p hp hnot := by
    by_cases hid : p = id
    · exact hid ▸ hstuck
    · exact h.stuck p hp (by simp [Ne.symm hid, hnot])
  closed p hp hnot q hq := by
    by_cases hid : p = id
    · exact h.mem_of_dests q (hid ▸ hq)
    · exact h.closed p hp (by simp [Ne.symm hid, hnot]) q hq

/-- A search that began with an empty set and failed has missed no path. -/
theorem not_mem_wordsFrom (h : Exhausted a rest dests ∅ later) {p : StateId} (hp : p ∈ later) :
    rest ∉ a.wordsFrom p := by
  rintro ⟨q, hpath, hacc⟩
  have hempty : ∀ r : StateId, r ∉ (∅ : StateSet) := fun _ => Std.ExtTreeSet.not_mem_empty
  induction hpath with
  | refl r =>
      have hstuck := h.stuck r hp (hempty r)
      rw [Stuck] at hstuck
      simp [hstuck] at hacc
  | @epsilon p _ _ _ hq _ ih => exact ih h (h.closed p hp (hempty p) _ hq) hacc
  | @read p _ _ _ _ hq htail =>
      exact h.stuck p hp (hempty p) _ hq ⟨_, htail, hacc⟩

end Exhausted

mutual

theorem Explores.exhausted_of_false {rest : List Char} {id : StateId} {seen later : StateSet}
    {ok : Bool} {n : Nat} (h : Explores a rest id seen ok later n) :
    ok = false → Exhausted a rest [id] seen later := by
  match h with
  | .known hid => exact fun _ => .known hid
  | .accepted _ _ | .readOn _ _ => simp
  | .exhausted _ hacc heps => exact fun hok => .visit hacc (heps.exhausted_of_false hok)
  | .goOn _ hreads heps =>
      exact fun hok => .visit (hreads.not_mem_wordsFrom rfl) (heps.exhausted_of_false hok)

theorem ExploresReads.not_mem_wordsFrom {rest : List Char} {dests : List StateId} {ok : Bool}
    {n : Nat} (h : ExploresReads a rest dests ok n) :
    ok = false → ∀ q ∈ dests, rest ∉ a.wordsFrom q := by
  match h with
  | .none | .found _ => simp
  | .next hfirst hnext =>
      intro hok q hq
      have hdone := hfirst.exhausted_of_false rfl
      rcases List.mem_cons.1 hq with rfl | hq
      · exact hdone.not_mem_wordsFrom (hdone.mem_of_dests q List.mem_cons_self)
      · exact hnext.not_mem_wordsFrom hok q hq

theorem ExploresEpsilons.exhausted_of_false {rest : List Char} {dests : List StateId}
    {seen later : StateSet} {ok : Bool} {n : Nat}
    (h : ExploresEpsilons a rest dests seen ok later n) :
    ok = false → Exhausted a rest dests seen later := by
  match h with
  | .none => exact fun _ => .nil
  | .found _ => simp
  | .next hfirst hnext =>
      exact fun hok => .cons (hfirst.exhausted_of_false rfl) (hnext.exhausted_of_false hok)

end

/-- With an empty set to begin with, the search answers whether the text is
accepted from its state. -/
theorem Explores.ok_iff (h : Explores a rest id ∅ ok later n) :
    ok = true ↔ rest ∈ a.wordsFrom id := by
  refine ⟨h.mem_wordsFrom, fun hw => ?_⟩
  cases ok with
  | true => rfl
  | false =>
      have hdone := h.exhausted_of_false rfl
      exact absurd hw (hdone.not_mem_wordsFrom (hdone.mem_of_dests id List.mem_cons_self))

/-! ## The search ends

What is left to put into a set is measured by the epsilon edges that lead out
of it, since every state but the first is tried because such an edge leads
there. -/

theorem unseenTargets_le (h : ∀ p ∈ seen, p ∈ later) :
    a.unseenTargets later ≤ a.unseenTargets seen :=
  List.countP_mono_left fun p _ hp => by
    simp only [decide_eq_true_eq] at hp ⊢
    exact fun hmem => hp (h p hmem)

theorem exists_exploresReads (h : ∀ id, ∃ ok later n, Explores a rest id ∅ ok later n) :
    ∃ ok n, ExploresReads a rest dests ok n := by
  induction dests with
  | nil => exact ⟨false, 0, .none⟩
  | cons dest dests ih =>
      obtain ⟨ok, later, n, hdest⟩ := h dest
      obtain ⟨last, m, hrest⟩ := ih
      cases ok with
      | true => exact ⟨true, n, .found hdest⟩
      | false => exact ⟨last, n + m, .next hdest hrest⟩

theorem exists_exploresEpsilons
    (h : ∀ later : StateSet, (∀ p ∈ seen, p ∈ later) → ∀ id ∈ dests,
      ∃ ok last n, Explores a rest id later ok last n) :
    ∃ ok later n, ExploresEpsilons a rest dests seen ok later n := by
  induction dests generalizing seen with
  | nil => exact ⟨false, seen, 0, .none⟩
  | cons dest dests ih =>
      obtain ⟨ok, between, n, hdest⟩ := h seen (fun _ hp => hp) dest List.mem_cons_self
      cases ok with
      | true => exact ⟨true, between, n, .found hdest⟩
      | false =>
          have hmono := (hdest.exhausted_of_false rfl).mem_of_seen
          obtain ⟨last, later, m, hrest⟩ := ih fun later hsub id hid =>
            h later (fun p hp => hsub p (hmono p hp)) id (List.mem_cons_of_mem _ hid)
          exact ⟨last, later, n + m, .next hdest hrest⟩

/-- Behind a new state the search ends if it ends behind the edges. -/
theorem exists_explores_of_new (hnew : id ∉ seen)
    (hreads : ∀ c tail, rest = c :: tail → ∃ ok n, ExploresReads a tail (a.onChar id c) ok n)
    (heps : ∃ ok later n, ExploresEpsilons a rest (a.epsilons id) (seen.insert id) ok later n) :
    ∃ ok later n, Explores a rest id seen ok later n := by
  obtain ⟨ok, later, m, heps⟩ := heps
  cases rest with
  | nil =>
      cases hacc : a.accepts id with
      | true => exact ⟨true, _, 1, .accepted hnew hacc⟩
      | false => exact ⟨ok, later, m + 1, .exhausted hnew hacc heps⟩
  | cons c tail =>
      obtain ⟨found, n, hreads⟩ := hreads c tail rfl
      cases found with
      | true => exact ⟨true, _, n + 1, .readOn hnew hreads⟩
      | false => exact ⟨ok, later, n + m + 1, .goOn hnew hreads heps⟩

/-- One text: if the search ends behind the edges on its first character, it
ends behind every epsilon edge. -/
theorem exists_explores_of_mem_epsilonTargets
    (hreads : ∀ id c tail, rest = c :: tail → ∃ ok n, ExploresReads a tail (a.onChar id c) ok n)
    (hid : id ∈ a.epsilonTargets) : ∃ ok later n, Explores a rest id seen ok later n := by
  induction hk : a.unseenTargets seen using Nat.strong_induction_on generalizing id seen with
  | _ k ih =>
      by_cases hseen : id ∈ seen
      · exact ⟨false, seen, 0, .known hseen⟩
      · refine exists_explores_of_new hseen (hreads id) (exists_exploresEpsilons ?_)
        intro later hsub dest hdest
        have hlt := unseenTargets_insert_lt hid hseen
        have hle := unseenTargets_le (a := a) hsub
        exact ih _ (by omega) (mem_epsilonTargets hdest) rfl

theorem exists_explores_of_reads
    (hreads : ∀ id c tail, rest = c :: tail → ∃ ok n, ExploresReads a tail (a.onChar id c) ok n)
    (id : StateId) (seen : StateSet) : ∃ ok later n, Explores a rest id seen ok later n := by
  by_cases hseen : id ∈ seen
  · exact ⟨false, seen, 0, .known hseen⟩
  · exact exists_explores_of_new hseen (hreads id) (exists_exploresEpsilons fun _ _ _ hdest =>
      exists_explores_of_mem_epsilonTargets hreads (mem_epsilonTargets hdest))

theorem exists_explores (a : Automaton) (rest : List Char) (id : StateId) (seen : StateSet) :
    ∃ ok later n, Explores a rest id seen ok later n := by
  induction rest generalizing id seen with
  | nil => exact exists_explores_of_reads (fun _ _ _ h => by simp at h) id seen
  | cons c tail ih =>
      refine exists_explores_of_reads (fun id b rest h => ?_) id seen
      obtain ⟨rfl, rfl⟩ := List.cons.inj h
      exact exists_exploresReads fun dest => ih dest ∅

end PatternAutomata
