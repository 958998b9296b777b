import PatternAutomata.Proofs.Agreement
import PatternAutomata.Proofs.VisitCount

/-!
# Automata that do the same

Two automata over the same state numbers, compared by what they can do in a
state. `b.Simulates a` says that `b` makes every move that `a` makes, where a
chain of epsilon edges may stand in for one. Every path of `a` is a path of `b`
then, and the words of `a` are words of `b`.

When each of two automata simulates the other, neither engine sees a difference.
For the state sets that is literally so, since they are sets. The depth-first
search does take its edges in another order, and its guards block other visits.
But its answer is the language of the automaton, and when it fails, the number
of visits is a sum over closures (`visitBound`), which has no order. What the sum
does see is an edge on a symbol that is there twice, because each of the two gets
a guard of its own.
-/

namespace PatternAutomata

namespace Automaton

variable {a b : Automaton} {p q : StateId} {w : List Char}

theorem onChar_subset (h : ∀ symbol, a.on p symbol ⊆ b.on p symbol) (c : Char) :
    a.onChar p c ⊆ b.onChar p c := by
  rw [onChar, onChar]
  cases Symbol.ofChar? c with
  | none => exact List.Subset.refl _
  | some symbol => exact h symbol

/-- In every state `b` can do what `a` can do there, if need be by several
epsilon edges in the place of one. -/
structure Simulates (b a : Automaton) : Prop where
  entry_eq : b.entry = a.entry
  reach_of_mem : ∀ p, ∀ q ∈ a.epsilons p, b.EpsilonReach p q
  mem_onChar : ∀ p c, ∀ q ∈ a.onChar p c, q ∈ b.onChar p c

namespace Simulates

theorem path (h : b.Simulates a) (hpath : a.Path p w q) : b.Path p w q := by
  induction hpath with
  | refl p => exact .refl p
  | epsilon hq _ ih => exact (Path.nil_iff.2 (h.reach_of_mem _ _ hq)).append ih
  | read hq _ ih => exact .read (h.mem_onChar _ _ _ hq) ih

theorem reach (h : b.Simulates a) (hreach : a.EpsilonReach p q) : b.EpsilonReach p q :=
  Path.nil_iff.1 (h.path (Path.nil_iff.2 hreach))

/-- Accepting states matter only where some word leads to. -/
theorem language_le (h : b.Simulates a)
    (hacc : ∀ w q, a.Path a.entry w q → a.accepts q = true → b.accepts q = true) :
    a.language ≤ b.language := by
  intro w hw
  obtain ⟨q, hpath, hq⟩ := hw
  refine ⟨q, ?_, hacc w q hpath hq⟩
  rw [h.entry_eq]
  exact h.path hpath

theorem accepts_of_accepts (h : b.Simulates a)
    (hacc : ∀ w q, a.Path a.entry w q → a.accepts q = true → b.accepts q = true)
    (before after : Engine) {input : String} (hinput : before.accepts a input = true) :
    after.accepts b input = true := by
  rw [Engine.accepts_iff] at hinput ⊢
  exact h.language_le hacc hinput

end Simulates

/-! ## Both ways -/

/-- Each of the two simulates the other, and they accept in the same states. -/
structure Matches (b a : Automaton) : Prop where
  forth : b.Simulates a
  back : a.Simulates b
  accepts_eq : ∀ p, b.accepts p = a.accepts p

namespace Matches

variable {set : StateSet} {input : String}

theorem reach_iff (h : b.Matches a) : b.EpsilonReach p q ↔ a.EpsilonReach p q :=
  ⟨h.back.reach, h.forth.reach⟩

theorem mem_onChar_iff (h : b.Matches a) {c : Char} : q ∈ b.onChar p c ↔ q ∈ a.onChar p c :=
  ⟨h.back.mem_onChar p c q, h.forth.mem_onChar p c q⟩

theorem language_eq (h : b.Matches a) : b.language = a.language := by
  refine le_antisymm (h.back.language_le ?_) (h.forth.language_le ?_)
  · intro w q _ hq
    rwa [← h.accepts_eq q]
  · intro w q _ hq
    rwa [h.accepts_eq q]

theorem engine_accepts_eq (h : b.Matches a) (engine : Engine) :
    engine.accepts b input = engine.accepts a input := by
  rw [Bool.eq_iff_iff, Engine.accepts_iff, Engine.accepts_iff, h.language_eq]

/-! ### The state sets -/

theorem epsilonClosure_eq (h : b.Matches a) : b.epsilonClosure set = a.epsilonClosure set := by
  ext q
  simp only [mem_epsilonClosure, h.reach_iff]

theorem start_eq (h : b.Matches a) : StateSets.start b = StateSets.start a := by
  rw [StateSets.start, StateSets.start, h.forth.entry_eq, h.epsilonClosure_eq]

theorem step_eq (h : b.Matches a) (c : Char) :
    StateSets.step b set c = StateSets.step a set c := by
  ext q
  simp only [StateSets.mem_step, h.mem_onChar_iff, h.reach_iff]

theorem trail_eq (h : b.Matches a) (text : List Char) :
    StateSets.trail b set text = StateSets.trail a set text := by
  induction text generalizing set with
  | nil => rfl
  | cons c rest ih =>
      rw [StateSets.trail, StateSets.trail, h.step_eq]
      simp only [ih]

/-! ### The count of visits -/

/-- The bound adds up over the members of closures, and within a member over its
edges on a character, so it may be added up in any order. -/
theorem visitBound_eq (h : b.Matches a) (hperm : ∀ p c, (b.onChar p c).Perm (a.onChar p c))
    (text : List Char) (id : StateId) : visitBound b text id = visitBound a text id := by
  induction text generalizing id with
  | nil => rw [visitBound, visitBound, h.epsilonClosure_eq]
  | cons c rest ih =>
      have hedges (q : StateId) : ((b.onChar q c).map (visitBound b rest)).sum =
          ((a.onChar q c).map (visitBound a rest)).sum := by
        rw [funext ih]
        exact ((hperm q c).map _).sum_eq
      rw [visitBound, visitBound, h.epsilonClosure_eq, funext hedges]

theorem visits_eq (h : b.Matches a) (hperm : ∀ p c, (b.onChar p c).Perm (a.onChar p c))
    (hrejected : DepthFirst.accepts a input = false) :
    (DepthFirst.search b input).visits = (DepthFirst.search a input).visits := by
  have hrejected' : DepthFirst.accepts b input = false :=
    (h.engine_accepts_eq .depthFirst).trans hrejected
  have ha := (DepthFirst.meets_visitBound a input).eq_of_false hrejected
  have hb := (DepthFirst.meets_visitBound b input).eq_of_false hrejected'
  rw [hb, ha, h.forth.entry_eq, h.visitBound_eq hperm]

end Matches

/-- Neither engine tells the automata apart by a text: they give the same answers,
and the walk with state sets goes through the same sets on the way. -/
structure LooksAlike (b a : Automaton) (input : String) : Prop where
  accepts_eq : ∀ engine : Engine, engine.accepts b input = engine.accepts a input
  start_eq : StateSets.start b = StateSets.start a
  trail_eq : StateSets.trail b (StateSets.start b) input.toList =
    StateSets.trail a (StateSets.start a) input.toList

theorem Matches.looksAlike (h : b.Matches a) (input : String) : b.LooksAlike a input where
  accepts_eq engine := h.engine_accepts_eq engine
  start_eq := h.start_eq
  trail_eq := by rw [h.start_eq, h.trail_eq]

end Automaton

end PatternAutomata
