import PatternAutomata.Automaton.Construction
import PatternAutomata.Automaton.Path
import PatternAutomata.Automaton.WellFormed

/-!
# Operands are embedded as blocks

Every operator puts the states of its operands, renumbered, into the result
and joins the blocks by epsilon edges out of their exits. `Embeds` says this
of one block, and the rest of the file says what it means for paths.

A path inside the operand is a path inside the block. The other way round, a
path of the result that starts in the block stays there up to the first time
it takes one of the joining edges, and by then it stands at the exit. So its
word is one that the operand reads to a side exit, or one that the operand
reads to its exit followed by whatever the result reads from there.

When a joining edge leads back into the block, as in a repetition, "whatever
the result reads from there" is what is being described. `wordsFrom_le`
therefore takes a bound for it from outside and asks that the bound absorb one
more turn through the block.
-/

namespace PatternAutomata

/-- A state of a block: the exit is continued, if there is anything behind it. -/
def State.onward : Option (List StateId) → State → State
  | none, s => s
  | some next, s => s.continueTo next

@[simp] theorem State.edges_onward (next : Option (List StateId)) (s : State) :
    (s.onward next).edges = s.edges := by
  cases next <;> rfl

@[simp] theorem State.epsilons_onward (next : Option (List StateId)) (s : State) :
    (s.onward next).epsilons = s.epsilons ++ next.getD [] := by
  cases next <;> simp [State.onward]

namespace Automaton

variable {a b c : Automaton} {i j k : Nat} {next : Option (List StateId)} {w : List Char}
  {M : Language Char}

/-! ## Words from one state -/

theorem mem_wordsFrom_of_epsilon (h : j ∈ c.epsilons i) (hw : w ∈ c.wordsFrom j) :
    w ∈ c.wordsFrom i := by
  obtain ⟨q, hpath, hacc⟩ := hw
  exact ⟨q, .epsilon h hpath, hacc⟩

/-- The words that a state reads to a side exit, and those that it reads to the
exit with a word of `M` behind them. -/
def wordsThrough (a : Automaton) (p : StateId) (M : Language Char) : Language Char :=
  a.sideWordsFrom p + a.exitWordsFrom p * M

theorem mem_wordsThrough_exit (hw : w ∈ M) : w ∈ a.wordsThrough a.exit M :=
  .inr (Language.mem_mul.2 ⟨[], .refl a.exit, w, hw, rfl⟩)

theorem nil_mem_wordsThrough (hi : i ≠ a.exit) (hacc : a.accepts i = true) :
    [] ∈ a.wordsThrough i M :=
  .inl ⟨i, hi, .refl i, hacc⟩

theorem mem_wordsThrough_of_epsilon (h : j ∈ a.epsilons i) (hw : w ∈ a.wordsThrough j M) :
    w ∈ a.wordsThrough i M := by
  rcases hw with ⟨q, hq, hpath, hacc⟩ | hw
  · exact .inl ⟨q, hq, .epsilon h hpath, hacc⟩
  · obtain ⟨u, hu, v, hv, rfl⟩ := Language.mem_mul.1 hw
    exact .inr (Language.mem_mul.2 ⟨u, .epsilon h hu, v, hv, rfl⟩)

theorem mem_wordsThrough_of_read {x : Char} (h : j ∈ a.onChar i x)
    (hw : w ∈ a.wordsThrough j M) : x :: w ∈ a.wordsThrough i M := by
  rcases hw with ⟨q, hq, hpath, hacc⟩ | hw
  · exact .inl ⟨q, hq, .read h hpath, hacc⟩
  · obtain ⟨u, hu, v, hv, rfl⟩ := Language.mem_mul.1 hw
    exact .inr (Language.mem_mul.2 ⟨x :: u, .read h hu, v, hv, rfl⟩)

/-! ## Blocks -/

/-- The states of `a` stand in `c` from number `k` on, unchanged but for their
numbers and for the exit, which goes on to `next`. -/
def Embeds (a c : Automaton) (k : Nat) (next : Option (List StateId)) : Prop :=
  ∀ i < a.size, c.state? (i + k) =
    (a.state? i).map fun s => if i = a.exit then (s.shift k).onward next else s.shift k

namespace Embeds

theorem on_eq (h : Embeds a c k next) (hi : i < a.size) (s : Symbol) :
    c.on (i + k) s = (a.on i s).map (· + k) := by
  rw [on, on, h i hi]
  cases a.state? i with
  | none => rfl
  | some st => by_cases he : i = a.exit <;> simp [he]

theorem onChar_eq (h : Embeds a c k next) (hi : i < a.size) (x : Char) :
    c.onChar (i + k) x = (a.onChar i x).map (· + k) := by
  rw [onChar, onChar]
  cases Symbol.ofChar? x with
  | none => rfl
  | some s => exact h.on_eq hi s

theorem epsilons_eq (h : Embeds a c k next) (hi : i < a.size) :
    c.epsilons (i + k) =
      (a.epsilons i).map (· + k) ++ if i = a.exit then next.getD [] else [] := by
  obtain ⟨st, hst⟩ : ∃ st, a.state? i = some st := by
    rw [← Option.ne_none_iff_exists', ne_eq, state?_eq_none_iff]
    omega
  rw [epsilons, epsilons, h i hi, hst]
  by_cases he : i = a.exit <;> simp [he]

theorem accepts_eq (h : Embeds a c k next) (hi : i < a.size) (he : i ≠ a.exit) :
    c.accepts (i + k) = a.accepts i := by
  rw [accepts, accepts, h i hi]
  cases a.state? i with
  | none => rfl
  | some st => simp [he]

/-! ### What the block can do -/

theorem path (h : Embeds a c k next) (hp : a.Path i w j) : c.Path (i + k) w (j + k) := by
  induction hp with
  | refl i => exact .refl _
  | @epsilon i q r w hq _ ih =>
      have hi := lt_size_of_mem_epsilons hq
      refine .epsilon (q := q + k) ?_ ih
      rw [h.epsilons_eq hi]
      exact List.mem_append_left _ (List.mem_map_of_mem hq)
  | @read i q r x w hq _ ih =>
      have hi := lt_size_of_mem_onChar hq
      refine .read (q := q + k) ?_ ih
      rw [h.onChar_eq hi]
      exact List.mem_map_of_mem hq

theorem sideWordsFrom_le (h : Embeds a c k next) :
    a.sideWordsFrom i ≤ c.wordsFrom (i + k) := by
  intro w hw
  obtain ⟨q, hq, hpath, hacc⟩ := hw
  refine ⟨q + k, h.path hpath, ?_⟩
  rw [h.accepts_eq (lt_size_of_accepts hacc) hq]
  exact hacc

theorem exitWordsFrom_mul_le (h : Embeds a c k next) :
    a.exitWordsFrom i * c.wordsFrom (a.exit + k) ≤ c.wordsFrom (i + k) := by
  intro w hw
  obtain ⟨u, hu, v, ⟨q, hpath, hacc⟩, rfl⟩ := Language.mem_mul.1 hw
  exact ⟨q, (h.path hu).append hpath, hacc⟩

/-- What can be read behind the exit can be read through the block. -/
theorem wordsThrough_le (h : Embeds a c k next) (hM : M ≤ c.wordsFrom (a.exit + k)) :
    a.wordsThrough i M ≤ c.wordsFrom (i + k) := by
  intro w hw
  rcases hw with hw | hw
  · exact h.sideWordsFrom_le hw
  · obtain ⟨u, hu, v, hv, rfl⟩ := Language.mem_mul.1 hw
    exact h.exitWordsFrom_mul_le (Language.mem_mul.2 ⟨u, hu, v, hM hv, rfl⟩)

theorem wordsFrom_next_le (h : Embeds a c k next) (hexit : a.exit < a.size)
    (hj : j ∈ next.getD []) : c.wordsFrom j ≤ c.wordsFrom (a.exit + k) := by
  intro w hw
  refine mem_wordsFrom_of_epsilon ?_ hw
  rw [h.epsilons_eq hexit, if_pos rfl]
  exact List.mem_append_right _ hj

/-! ### Nothing else can be done -/

/-- Every word that the result reads from a state of the block goes through the
block, if `M` has room for what is read behind the exit. An edge from the exit
back to the entry counts as one more turn. -/
theorem wordsFrom_le (h : Embeds a c k next) (hc : a.Closed) (hi : i < a.size)
    (hend : c.accepts (a.exit + k) = true → [] ∈ M)
    (hnext : ∀ n ∈ next.getD [], c.wordsFrom n ≤ M ∨
      n = a.entry + k ∧ a.entry < a.size ∧ a.wordsThrough a.entry M ≤ M) :
    c.wordsFrom (i + k) ≤ a.wordsThrough i M := by
  intro w hw
  obtain ⟨q, hpath, hacc⟩ := hw
  generalize hp : i + k = p at hpath
  induction hpath generalizing i with
  | refl p =>
      subst hp
      by_cases he : i = a.exit
      · subst he
        exact mem_wordsThrough_exit (hend hacc)
      · rw [h.accepts_eq hi he] at hacc
        exact nil_mem_wordsThrough he hacc
  | @epsilon p n q w hn htail ih =>
      subst hp
      rw [h.epsilons_eq hi, List.mem_append] at hn
      rcases hn with hn | hn
      · obtain ⟨j, hj, rfl⟩ := List.mem_map.1 hn
        exact mem_wordsThrough_of_epsilon hj (ih (hc.lt_of_mem_epsilons hj) hacc rfl)
      · split at hn
        · rename_i he
          subst he
          refine mem_wordsThrough_exit ?_
          rcases hnext n hn with hM | ⟨rfl, hentry, hM⟩
          · exact hM ⟨q, htail, hacc⟩
          · exact hM (ih hentry hacc rfl)
        · simp at hn
  | @read p n q x w hn _ ih =>
      subst hp
      rw [h.onChar_eq hi] at hn
      obtain ⟨j, hj, rfl⟩ := List.mem_map.1 hn
      exact mem_wordsThrough_of_read hj (ih (hc.lt_of_mem_onChar hj) hacc rfl)

end Embeds

end Automaton

end PatternAutomata
