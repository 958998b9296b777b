import PatternAutomata.Proofs.ReachableStates

/-!
# What the walk with state sets reports

The walk reports the set behind every character that it reads, and it reads
characters for as long as its set has members. So its report is a view of the
states that paths from the entry lead to, prefix after prefix: there is an
entry for a character exactly if every shorter prefix leads somewhere, and the
set in the entry is where the prefix up to that character leads
(`walk_tracks_reachable`).

The last entry may have the empty set. No later prefix leads anywhere then,
and the walk stops with the answer that it would give in the end. In any case
the set of the last entry is the one that the walk ends with
(`getLastD_trail`).
-/

namespace PatternAutomata

/-- A path reads characters that stand for symbols, and no others. -/
theorem Automaton.Path.toNat_le {a : Automaton} {p q : StateId} {w : List Char}
    (h : a.Path p w q) : ∀ c ∈ w, c.toNat ≤ 255 := by
  induction h with
  | refl p => exact fun c hc => absurd hc List.not_mem_nil
  | epsilon _ _ ih => exact ih
  | @read p q r c w hq _ ih =>
      refine List.forall_mem_cons.2 ⟨?_, ih⟩
      by_contra hlarge
      have hnone := Symbol.ofChar?_eq_none_iff.2 (Nat.lt_of_not_le hlarge)
      simp [onChar, hnone] at hq

namespace StateSets

variable {a : Automaton} {current : StateSet} {text : List Char}

theorem foldl_step_eq_iff {set : StateSet} :
    text.foldl (step a) (start a) = set ↔ ∀ q, q ∈ set ↔ a.Path a.entry text q := by
  constructor
  · rintro rfl q
    exact mem_foldl_step
  · intro h
    ext q
    rw [mem_foldl_step, h]

theorem foldl_step_ne_empty_iff :
    text.foldl (step a) (start a) ≠ ∅ ↔ ∃ q, a.Path a.entry text q := by
  rw [Ne, foldl_step_eq_iff]
  simp

/-- Each element of the trail is the set behind a prefix, and the trail has one
for as long as no shorter prefix has led to the empty set. -/
theorem getElem?_trail {i : Nat} {c : Char} {set : StateSet} :
    (trail a current text)[i]? = some (c, set) ↔
      text[i]? = some c ∧ (text.take (i + 1)).foldl (step a) current = set ∧
        ∀ j ≤ i, (text.take j).foldl (step a) current ≠ ∅ := by
  induction text generalizing current i with
  | nil => simp [trail]
  | cons b rest ih =>
      rw [trail]
      split <;> rename_i h
      · have hcurrent : current = ∅ := Std.ExtTreeSet.isEmpty_iff.1 h
        refine ⟨fun hnone => by simp at hnone, fun ⟨_, _, hne⟩ => ?_⟩
        exact absurd hcurrent (hne 0 (Nat.zero_le i))
      · have hcurrent : current ≠ ∅ := mt Std.ExtTreeSet.isEmpty_iff.2 h
        cases i with
        | zero => simp [hcurrent]
        | succ i =>
            rw [List.getElem?_cons_succ, ih, List.getElem?_cons_succ, List.take_succ_cons,
              List.foldl_cons]
            refine and_congr_right' (and_congr_right' ⟨fun hne j hj => ?_, fun hne j hj => ?_⟩)
            · cases j with
              | zero => exact hcurrent
              | succ j => exact hne j (Nat.le_of_succ_le_succ hj)
            · exact hne (j + 1) (Nat.succ_le_succ hj)

/-- The walk and its trail are the same steps: the walk ends with the last set of
the trail, or where it began if it takes no step. -/
theorem getLastD_trail :
    ((trail a current text).map (·.2)).getLastD current = walk a current text := by
  induction text generalizing current with
  | nil => rfl
  | cons c rest ih =>
      rw [trail, walk]
      split
      · rfl
      · rw [List.map_cons, List.getLastD_cons, ih]

/-- The set of the walk is, behind every prefix of the text, the set of the
states that some path from the entry reads the prefix to. The report has an
entry for each character up to the first that leads nowhere, and no other
entry. The answer is read off the last of these sets. It is whether the whole
text leads to an accepting state, which no text does that has a character
without a symbol. -/
theorem walk_tracks_reachable (a : Automaton) (input : String) :
    (∀ k q, q ∈ walk a (start a) (input.toList.take k) ↔
      a.Path a.entry (input.toList.take k) q) ∧
    (∀ i entry, (report a input)[i]? = some entry ↔
      ∃ c set, input.toList[i]? = some c ∧
        (∀ q, q ∈ set ↔ a.Path a.entry (input.toList.take (i + 1)) q) ∧
        (∀ j ≤ i, ∃ q, a.Path a.entry (input.toList.take j) q) ∧
        entry = .stepped c i set) ∧
    accepts a input =
      a.acceptsAny (((trail a (start a) input.toList).map (·.2)).getLastD (start a)) ∧
    (accepts a input = true ↔ ∃ q, a.Path a.entry input.toList q ∧ a.accepts q = true) ∧
    ((∃ c ∈ input.toList, 255 < c.toNat) → accepts a input = false) := by
  refine ⟨fun k q => ?_, fun i entry => ?_, ?_, accepts_iff, fun ⟨c, hc, hlarge⟩ => ?_⟩
  · rw [walk_eq_foldl, mem_foldl_step]
  · rw [report, List.getElem?_mapIdx, Option.map_eq_some_iff, Prod.exists]
    refine exists_congr fun c => exists_congr fun set => ?_
    simp only [getElem?_trail, foldl_step_eq_iff, foldl_step_ne_empty_iff, and_assoc,
      eq_comm (b := entry)]
  · rw [getLastD_trail, accepts]
  · refine Bool.eq_false_of_not_eq_true fun hacc => ?_
    obtain ⟨q, hpath, -⟩ := accepts_iff.1 hacc
    exact absurd (hpath.toNat_le c hc) (Nat.not_le.2 hlarge)

end StateSets

end PatternAutomata
