import PatternAutomata.Match.Search

/-!
# A search comes to an end

Every step of a search makes the effort that is left smaller, on every
automaton and every text (`effort_lt_of_step`). Under one guard each state is
expanded once, and a new guard comes with a shorter rest of the text. So the
exponent in `weight` falls from a frame to the frames it is expanded into, and
the base is larger than their number.
-/

namespace PatternAutomata.DepthFirst

/-- How many states are still new under a guard. -/
def unvisited (a : Automaton) (visited : Visited) (guard : Nat) : Nat :=
  (List.range a.size).countP fun id => (guard, id) ∉ visited

/-- What the elements of a list weigh together. -/
def total {α : Type} (w : α → Nat) : List α → Nat
  | [] => 0
  | x :: rest => w x + total w rest

/-- The number of edges out of all states, epsilon edges included. -/
def fanOut (a : Automaton) : Nat :=
  total (fun s => s.edges.targets.length + s.epsilons.length) a.states.toList

/-- More than the weight of all frames that expanding this one can add. -/
def weight (a : Automaton) (visited : Visited) (f : Frame) : Nat :=
  (fanOut a + 1).pow (f.rest.length * (a.size + 1) + unvisited a visited f.guard)

def effort (a : Automaton) (s : Search) : Nat :=
  total (weight a s.visited) s.stack

section Total

variable {α : Type} {w v : α → Nat} {xs : List α}

@[simp] theorem total_nil : total w [] = 0 := rfl

@[simp] theorem total_cons (x : α) : total w (x :: xs) = w x + total w xs := rfl

@[simp] theorem total_append (ys : List α) : total w (xs ++ ys) = total w xs + total w ys := by
  induction xs with
  | nil => simp
  | cons x rest ih =>
      rw [List.cons_append, total_cons, total_cons, ih]
      omega

theorem le_total_of_mem {x : α} (h : x ∈ xs) : w x ≤ total w xs := by
  induction xs with
  | nil => simp at h
  | cons y rest ih =>
      rw [total_cons]
      rcases List.mem_cons.1 h with rfl | h
      · omega
      · have := ih h
        omega

theorem total_le_length_mul {m : Nat} (h : ∀ x ∈ xs, w x ≤ m) : total w xs ≤ xs.length * m := by
  induction xs with
  | nil => simp
  | cons x rest ih =>
      have hx := h x List.mem_cons_self
      have hrest := ih fun y hy => h y (List.mem_cons_of_mem _ hy)
      rw [total_cons, List.length_cons, Nat.add_one_mul]
      omega

theorem total_le_total (h : ∀ x ∈ xs, w x ≤ v x) : total w xs ≤ total v xs := by
  induction xs with
  | nil => simp
  | cons x rest ih =>
      have hx := h x List.mem_cons_self
      have hrest := ih fun y hy => h y (List.mem_cons_of_mem _ hy)
      rw [total_cons, total_cons]
      omega

end Total

theorem length_on_add_length_epsilons_le (a : Automaton) (id : StateId) (s : Symbol) :
    (a.on id s).length + (a.epsilons id).length ≤ fanOut a := by
  unfold Automaton.on Automaton.epsilons
  cases h : a.state? id with
  | none => simp
  | some st =>
      have hmem : st ∈ a.states.toList := Array.mem_toList_iff.2 (Array.mem_of_getElem? h)
      have hsum : st.edges.targets.length + st.epsilons.length ≤ fanOut a :=
        le_total_of_mem (w := fun s => s.edges.targets.length + s.epsilons.length) hmem
      have := st.edges.length_on_le s
      simp only [Option.elim_some]
      omega

/-- Expanding a frame adds at most one frame for each edge. -/
theorem length_frames_le (a : Automaton) (f : Frame) (guards : Nat) :
    (readFrames a f guards).length + (epsilonFrames a f).length ≤ fanOut a := by
  unfold readFrames epsilonFrames Automaton.onChar
  have heps := length_on_add_length_epsilons_le a f.state 0
  rw [List.length_map]
  split
  · simp only [List.length_nil]
    omega
  · rename_i c rest _
    rw [List.length_mapIdx]
    cases Symbol.ofChar? c with
    | none =>
        simp only [Option.elim_none, List.length_nil]
        omega
    | some s => exact length_on_add_length_epsilons_le a f.state s

theorem unvisited_le_size (a : Automaton) (visited : Visited) (guard : Nat) :
    unvisited a visited guard ≤ a.size := by
  have := List.countP_le_length (l := List.range a.size)
    (p := fun id => decide ((guard, id) ∉ visited))
  rwa [List.length_range] at this

theorem unvisited_insert_le (a : Automaton) (visited : Visited) (p : Nat × StateId)
    (guard : Nat) : unvisited a (visited.insert p) guard ≤ unvisited a visited guard :=
  List.countP_mono_left fun id _ h => by
    simp only [decide_eq_true_eq, Std.HashSet.mem_insert] at h ⊢
    exact fun hmem => h (.inr hmem)

theorem unvisited_insert_lt {a : Automaton} {visited : Visited} {guard : Nat} {id : StateId}
    (hid : id < a.size) (h : (guard, id) ∉ visited) :
    unvisited a (visited.insert (guard, id)) guard < unvisited a visited guard := by
  unfold unvisited
  have hmem := List.mem_range.2 hid
  generalize List.range a.size = ids at hmem
  induction ids with
  | nil => simp at hmem
  | cons x rest ih =>
      have hle : rest.countP (fun y => (guard, y) ∉ visited.insert (guard, id))
          ≤ rest.countP fun y => (guard, y) ∉ visited :=
        List.countP_mono_left fun y _ hy => by
          simp only [decide_eq_true_eq, Std.HashSet.mem_insert] at hy ⊢
          exact fun hin => hy (.inr hin)
      rw [List.countP_cons, List.countP_cons]
      by_cases hx : x = id
      · rw [if_neg (by simp [hx]), if_pos (by simpa [hx] using h)]
        omega
      · have hiff : (guard, x) ∉ visited.insert (guard, id) ↔ (guard, x) ∉ visited := by
          simp [Ne.symm hx]
        have hlt := ih (by simpa [Ne.symm hx] using hmem)
        simp only [hiff]
        omega

theorem weight_pos (a : Automaton) (visited : Visited) (f : Frame) :
    0 < weight a visited f :=
  Nat.pow_pos (Nat.succ_pos _)

theorem weight_insert_le (a : Automaton) (visited : Visited) (p : Nat × StateId) (f : Frame) :
    weight a (visited.insert p) f ≤ weight a visited f :=
  Nat.pow_le_pow_right (Nat.succ_pos _)
    (Nat.add_le_add_left (unvisited_insert_le a visited p f.guard) _)

/-- The frames that a frame is expanded into weigh less than the frame. -/
theorem total_weight_frames_lt {a : Automaton} {visited : Visited} {f : Frame} (guards : Nat)
    (h : (f.guard, f.state) ∉ visited) :
    total (weight a (visited.insert (f.guard, f.state)))
        (readFrames a f guards ++ epsilonFrames a f) < weight a visited f := by
  by_cases hid : f.state < a.size
  · obtain ⟨e, he⟩ : ∃ e, f.rest.length * (a.size + 1) + unvisited a visited f.guard = e + 1 := by
      have := unvisited_insert_lt hid h
      exact ⟨_, (Nat.succ_pred_eq_of_pos (by omega)).symm⟩
    have hbound : ∀ g ∈ readFrames a f guards ++ epsilonFrames a f,
        weight a (visited.insert (f.guard, f.state)) g ≤ (fanOut a + 1).pow e := by
      intro g hg
      refine Nat.pow_le_pow_right (Nat.succ_pos _) ?_
      rcases List.mem_append.1 hg with hg | hg
      · unfold readFrames at hg
        split at hg
        · simp at hg
        · rename_i c rest hrest
          obtain ⟨i, hi, rfl⟩ := List.mem_mapIdx.1 hg
          have := unvisited_le_size a (visited.insert (f.guard, f.state))
            (guards + (a.onChar f.state c).length - i)
          rw [hrest, List.length_cons, Nat.add_one_mul] at he
          simp only
          omega
      · obtain ⟨dest, _, rfl⟩ := List.mem_map.1 hg
        have := unvisited_insert_lt hid h
        simp only
        omega
    have hlen := length_frames_le a f guards
    rw [← List.length_append] at hlen
    calc _ ≤ (readFrames a f guards ++ epsilonFrames a f).length * (fanOut a + 1).pow e :=
          total_le_length_mul hbound
      _ ≤ fanOut a * (fanOut a + 1).pow e := Nat.mul_le_mul_right _ hlen
      _ < (fanOut a + 1) * (fanOut a + 1).pow e :=
          Nat.mul_lt_mul_of_pos_right (Nat.lt_succ_self _) (Nat.pow_pos (Nat.succ_pos _))
      _ = weight a visited f := by
          rw [weight, he, Nat.mul_comm]
          rfl
  · have hsize : a.size ≤ f.state := Nat.le_of_not_lt hid
    have heps : epsilonFrames a f = [] := by
      simp [epsilonFrames, Automaton.epsilons_of_size_le hsize]
    have hread : readFrames a f guards = [] := by
      unfold readFrames Automaton.onChar
      split
      · rfl
      · rename_i c _ _
        cases Symbol.ofChar? c <;> simp [Automaton.on_of_size_le hsize]
    rw [hread, heps]
    exact weight_pos a visited f

theorem effort_lt_of_step {a : Automaton} {s t : Search} (h : step a s = .running t) :
    effort a t < effort a s := by
  obtain ⟨_ | ⟨f, below⟩, guards, visited⟩ := s
  · simp [step] at h
  · have hpos := weight_pos a visited f
    rw [step] at h
    split at h
    · cases h
      simp only [effort, total_cons]
      omega
    · rename_i hnew
      simp only at h
      split at h
      · simp at h
      · cases h
        have hadded := total_weight_frames_lt (a := a) guards hnew
        have hbelow : total _ below ≤ total _ below :=
          total_le_total fun g _ => weight_insert_le a visited (f.guard, f.state) g
        simp only [effort, ← List.append_assoc, total_append, total_cons] at hadded ⊢
        omega

end PatternAutomata.DepthFirst
