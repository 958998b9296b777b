import PatternAutomata.Automaton.Path
import PatternAutomata.Proofs.VisitCount

/-!
# What a guard stands for while a search runs

A guard takes the place of a visited set of its own, and this is safe because
of what every turn of the search keeps: all frames of one guard have the same
part of the text behind them, and the guard of a character move is one that
nothing was remembered under before. So a state that is skipped as visited was
expanded at the same place in the text.

A search forgets the frames that it is done with, so the invariant is about a
search and its `Log`, in which every frame stays that was taken from the stack
and every one that was made for a character move. `Tracks` is what a turn
keeps, said of all these frames alike. What it says of a new frame it says of
the frame that was expanded for it (`Behind`), and the rest is that guards are
issued in ascending order.
-/

namespace PatternAutomata.DepthFirst

/-- What a search has done so far: the frames that it has taken from the stack,
the last one first, and those that it has made for character moves, in the
order of their guards. -/
structure Log where
  taken : List Frame := []
  moved : List Frame := []

/-- The log behind one more turn. -/
def Log.next (a : Automaton) (log : Log) (s : Search) : Log :=
  match s.stack with
  | [] => log
  | f :: _ =>
      if (f.guard, f.state) ∈ s.visited then { log with taken := f :: log.taken }
      else ⟨f :: log.taken, log.moved ++ (readFrames a f s.guards).reverse⟩

/-- The search for a text comes to a turn, and this is its log by then. -/
inductive Comes (a : Automaton) (input : List Char) : Log → Search → Prop
  | start : Comes a input {} (.start a input)
  | turn {log : Log} {s t : Search} :
      Comes a input log s → step a s = .running t → Comes a input (log.next a s) t

/-- The frame is pending, or it was taken from the stack. -/
def Known (log : Log) (s : Search) (f : Frame) : Prop :=
  f ∈ log.taken ∨ f ∈ s.stack

/-- How many characters of the text a frame has behind it. -/
def Frame.place (input : List Char) (f : Frame) : Nat :=
  input.length - f.rest.length

variable {a : Automaton} {input : List Char} {log : Log} {s t : Search} {f x : Frame}
  {below : List Frame} {guards : Nat} {visited : Visited}

/-! ## One turn -/

/-- The frames of the character moves carry the next guards, the last edge the first
of them. -/
theorem map_guard_readFrames (a : Automaton) (f : Frame) (guards : Nat) :
    (readFrames a f guards).reverse.map (·.guard) =
      List.range' (guards + 1) (readFrames a f guards).length := by
  unfold readFrames
  split
  · rfl
  · refine List.ext_getElem (by simp) fun i hi _ => ?_
    simp only [List.length_map, List.length_reverse, List.length_mapIdx] at hi
    simp only [List.getElem_map, List.getElem_reverse, List.getElem_mapIdx, List.length_mapIdx,
      List.getElem_range']
    omega

theorem guard_of_mem_readFrames (h : x ∈ readFrames a f guards) :
    guards < x.guard ∧ x.guard ≤ guards + (readFrames a f guards).length := by
  have hmem : x.guard ∈ (readFrames a f guards).reverse.map (·.guard) :=
    List.mem_map_of_mem (List.mem_reverse.2 h)
  rw [map_guard_readFrames, List.mem_range'_1] at hmem
  omega

/-- The frames that expanding a frame adds to the stack. -/
inductive Behind (a : Automaton) (f : Frame) (guards : Nat) : Frame → Prop
  | epsilon {dest : StateId} : dest ∈ a.epsilons f.state →
      Behind a f guards { f with state := dest }
  | read {c : Char} {rest : List Char} {dest : StateId} {guard : Nat} : f.rest = c :: rest →
      dest ∈ a.onChar f.state c → guards < guard →
      guard ≤ guards + (readFrames a f guards).length → Behind a f guards ⟨dest, rest, guard⟩

theorem behind_of_mem_readFrames (h : x ∈ readFrames a f guards) : Behind a f guards x := by
  obtain ⟨hlt, hle⟩ := guard_of_mem_readFrames h
  cases hrest : f.rest with
  | nil => simp [readFrames, hrest] at h
  | cons c rest =>
      simp only [readFrames, hrest] at h
      obtain ⟨i, hi, rfl⟩ := List.mem_mapIdx.1 h
      exact .read hrest (List.getElem_mem hi) hlt hle

theorem behind_of_mem_epsilonFrames (h : x ∈ epsilonFrames a f) : Behind a f guards x := by
  obtain ⟨dest, hdest, rfl⟩ := List.mem_map.1 h
  exact .epsilon hdest

/-- A turn takes the top frame. It drops the frame if its state was visited under
its guard, and puts the frames behind it on the stack otherwise. -/
inductive Turned (a : Automaton) (log : Log) (s : Search) (f : Frame) (below : List Frame)
    (t : Search) : Prop
  | dropped : (f.guard, f.state) ∈ s.visited → t = ⟨below, s.guards, s.visited⟩ →
      log.next a s = { log with taken := f :: log.taken } → Turned a log s f below t
  | expanded : t = ⟨readFrames a f s.guards ++ (epsilonFrames a f ++ below),
        s.guards + (readFrames a f s.guards).length, s.visited.insert (f.guard, f.state)⟩ →
      log.next a s = ⟨f :: log.taken, log.moved ++ (readFrames a f s.guards).reverse⟩ →
      Turned a log s f below t

theorem exists_turned (log : Log) (h : step a s = .running t) :
    ∃ f below, s.stack = f :: below ∧ Turned a log s f below t := by
  obtain ⟨_ | ⟨f, below⟩, guards, visited⟩ := s
  · simp [step] at h
  · refine ⟨f, below, rfl, ?_⟩
    rw [step] at h
    split at h
    · rename_i hvisited
      exact .dropped hvisited (Progress.running.inj h).symm (if_pos hvisited)
    · rename_i hnew
      dsimp only at h
      split at h
      · simp at h
      · exact .expanded (Progress.running.inj h).symm (if_neg hnew)

theorem known_top (h : s.stack = f :: below) : Known log s f :=
  .inr (h ▸ List.mem_cons_self)

theorem known_of_mem_taken (h : s.stack = f :: below) (hx : x ∈ f :: log.taken) :
    Known log s x := by
  rcases List.mem_cons.1 hx with rfl | hx
  · exact known_top h
  · exact .inl hx

theorem known_of_dropped (h : s.stack = f :: below)
    (hx : Known { log with taken := f :: log.taken } ⟨below, guards, visited⟩ x) :
    Known log s x := by
  rcases hx with hx | hx
  · exact known_of_mem_taken h hx
  · exact .inr (h ▸ List.mem_cons_of_mem _ hx)

/-- Behind an expansion there are the frames that were there before, and those
behind the one that was expanded. -/
theorem known_or_behind {moved : List Frame} (h : s.stack = f :: below)
    (hx : Known ⟨f :: log.taken, moved⟩
      ⟨readFrames a f s.guards ++ (epsilonFrames a f ++ below), guards, visited⟩ x) :
    Known log s x ∨ Behind a f s.guards x := by
  rcases hx with hx | hx
  · exact .inl (known_of_mem_taken h hx)
  · rcases List.mem_append.1 hx with hx | hx
    · exact .inr (behind_of_mem_readFrames hx)
    · rcases List.mem_append.1 hx with hx | hx
      · exact .inr (behind_of_mem_epsilonFrames hx)
      · exact .inl (.inr (h ▸ List.mem_cons_of_mem _ hx))

/-! ## What every turn keeps -/

structure Tracks (a : Automaton) (input : List Char) (log : Log) (s : Search) : Prop where
  guard_le : ∀ f, Known log s f → f.guard ≤ s.guards
  rest_eq : ∀ f g, Known log s f → Known log s g → f.guard = g.guard → f.rest = g.rest
  path : ∀ f, Known log s f → ∃ read, read ++ f.rest = input ∧ a.Path a.entry read f.state
  /-- There is one character move for each guard that was issued. -/
  moved_eq : log.moved.map (·.guard) = List.range' 1 s.guards
  visited : ∀ p ∈ s.visited, ∃ f ∈ log.taken, (f.guard, f.state) = p

namespace Tracks

theorem start (a : Automaton) (input : List Char) : Tracks a input {} (.start a input) := by
  have honly : ∀ f, Known {} (.start a input) f → f = ⟨a.entry, input, 0⟩ := by
    rintro f (hf | hf)
    · exact absurd hf List.not_mem_nil
    · exact List.mem_singleton.1 hf
  refine ⟨fun f hf => ?_, fun f g hf hg _ => ?_, fun f hf => ?_, rfl, fun p hp => ?_⟩
  · rw [honly f hf]
    exact Nat.le_refl 0
  · rw [honly f hf, honly g hg]
  · rw [honly f hf]
    exact ⟨[], rfl, .refl a.entry⟩
  · exact absurd hp Std.HashSet.not_mem_empty

theorem dropped (h : Tracks a input log s) (hstack : s.stack = f :: below) :
    Tracks a input { log with taken := f :: log.taken } ⟨below, s.guards, s.visited⟩ where
  guard_le x hx := h.guard_le x (known_of_dropped hstack hx)
  rest_eq x y hx hy := h.rest_eq x y (known_of_dropped hstack hx) (known_of_dropped hstack hy)
  path x hx := h.path x (known_of_dropped hstack hx)
  moved_eq := h.moved_eq
  visited p hp := by
    obtain ⟨g, hg, heq⟩ := h.visited p hp
    exact ⟨g, List.mem_cons_of_mem _ hg, heq⟩

/-- A frame behind an expansion shares its guard and its rest with a frame that was
there before, or its guard is new and its rest is one character shorter. -/
theorem shared_or_new (h : Tracks a input log s) (hf : Known log s f)
    (hx : Known log s x ∨ Behind a f s.guards x) :
    (x.guard ≤ s.guards ∧ ∃ g, Known log s g ∧ x.guard = g.guard ∧ x.rest = g.rest) ∨
      (s.guards < x.guard ∧ f.rest.tail = x.rest) := by
  rcases hx with hx | hx
  · exact .inl ⟨h.guard_le x hx, x, hx, rfl, rfl⟩
  · cases hx with
    | epsilon _ => exact .inl ⟨h.guard_le f hf, f, hf, rfl, rfl⟩
    | read hrest _ hlt _ => exact .inr ⟨hlt, by rw [hrest, List.tail_cons]⟩

theorem expanded (h : Tracks a input log s) (hstack : s.stack = f :: below) :
    Tracks a input ⟨f :: log.taken, log.moved ++ (readFrames a f s.guards).reverse⟩
      ⟨readFrames a f s.guards ++ (epsilonFrames a f ++ below),
        s.guards + (readFrames a f s.guards).length, s.visited.insert (f.guard, f.state)⟩ where
  guard_le x hx := by
    rcases known_or_behind hstack hx with hx | hx
    · exact Nat.le_trans (h.guard_le x hx) (Nat.le_add_right ..)
    · cases hx with
      | epsilon _ =>
          exact Nat.le_trans (h.guard_le f (known_top hstack)) (Nat.le_add_right ..)
      | read _ _ _ hle => exact hle
  rest_eq x y hx hy hguard := by
    have hf : Known log s f := known_top hstack
    rcases h.shared_or_new hf (known_or_behind hstack hx) with
        ⟨hxle, g, hg, hgx, hrx⟩ | ⟨hxlt, hrx⟩ <;>
      rcases h.shared_or_new hf (known_or_behind hstack hy) with
        ⟨hyle, g', hg', hgy, hry⟩ | ⟨hylt, hry⟩
    · rw [hrx, hry]
      exact h.rest_eq g g' hg hg' (hgx.symm.trans (hguard.trans hgy))
    · omega
    · omega
    · exact hrx.symm.trans hry
  path x hx := by
    rcases known_or_behind hstack hx with hx | hx
    · exact h.path x hx
    · obtain ⟨read, hread, hpath⟩ := h.path f (known_top hstack)
      cases hx with
      | @epsilon dest hdest =>
          refine ⟨read, hread, ?_⟩
          have happend := hpath.append (.epsilon hdest (.refl dest))
          rwa [List.append_nil] at happend
      | @read c rest dest guard hrest hdest _ _ =>
          refine ⟨read ++ [c], ?_, hpath.append (.read hdest (.refl dest))⟩
          rw [← hread, hrest, List.append_assoc]
          rfl
  moved_eq := by
    rw [List.map_append, h.moved_eq, map_guard_readFrames, Nat.add_comm s.guards 1,
      List.range'_append_1]
  visited p hp := by
    rcases Std.HashSet.mem_insert.1 hp with heq | hp
    · exact ⟨f, List.mem_cons_self, eq_of_beq heq⟩
    · obtain ⟨g, hg, heq⟩ := h.visited p hp
      exact ⟨g, List.mem_cons_of_mem _ hg, heq⟩

theorem turn (h : Tracks a input log s) (hstep : step a s = .running t) :
    Tracks a input (log.next a s) t := by
  obtain ⟨f, below, hstack, hturned⟩ := exists_turned log hstep
  cases hturned with
  | dropped _ ht hlog =>
      rw [ht, hlog]
      exact h.dropped hstack
  | expanded ht hlog =>
      rw [ht, hlog]
      exact h.expanded hstack

end Tracks

theorem Comes.tracks (h : Comes a input log s) : Tracks a input log s := by
  induction h with
  | start => exact .start a input
  | turn _ hstep ih => exact ih.turn hstep

/-- Every state that the search passes has a log. -/
theorem exists_comes (h : Relation.ReflTransGen (Steps a) (.start a input) s) :
    ∃ log, Comes a input log s := by
  induction h with
  | refl => exact ⟨_, .start⟩
  | tail _ hstep ih =>
      obtain ⟨log, hlog⟩ := ih
      exact ⟨_, hlog.turn hstep⟩

/-! ## The invariant of the loop -/

/-- What holds whenever the search looks at its stack. -/
structure LoopInvariant (a : Automaton) (input : List Char) (log : Log) (s : Search) : Prop where
  place_le : ∀ f, Known log s f →
    f.place input ≤ input.length ∧ f.rest = input.drop (f.place input)
  guard_le : ∀ f ∈ s.stack, f.guard ≤ s.guards
  place_eq : ∀ f g, Known log s f → Known log s g → f.guard = g.guard →
    f.place input = g.place input
  /-- No two character moves share a guard. -/
  moved_nodup : (log.moved.map (·.guard)).Nodup
  /-- A guard that is issued next occurs in no visited entry and in no other frame. -/
  fresh : ∀ f ∈ s.stack.head?, ∀ m ∈ readFrames a f s.guards,
    (∀ p ∈ s.visited.insert (f.guard, f.state), p.1 ≠ m.guard) ∧
      ∀ g, Known log s g → g.guard ≠ m.guard
  /-- What is remembered is the guard and the state of a frame that was taken. -/
  visited : ∀ p ∈ s.visited, ∃ f ∈ log.taken, (f.guard, f.state) = p
  reachable : ∀ f, Known log s f → a.Path a.entry (input.take (f.place input)) f.state

theorem Frame.place_of_append {read : List Char} (h : read ++ f.rest = input) :
    f.place input = read.length := by
  rw [place, ← h, List.length_append, Nat.add_sub_cancel]

theorem Tracks.loopInvariant (h : Tracks a input log s) : LoopInvariant a input log s where
  place_le f hf := by
    obtain ⟨read, hread, -⟩ := h.path f hf
    rw [f.place_of_append hread, ← hread]
    exact ⟨by simp, List.drop_left.symm⟩
  guard_le f hf := h.guard_le f (.inr hf)
  place_eq f g hf hg hguard := by
    rw [Frame.place, Frame.place, h.rest_eq f g hf hg hguard]
  moved_nodup := by
    rw [h.moved_eq]
    exact List.nodup_range'
  fresh f hf m hm := by
    have hknown : ∀ g, Known log s g → g.guard ≠ m.guard := by
      intro g hg heq
      have hle := h.guard_le g hg
      have hlt := (guard_of_mem_readFrames hm).1
      omega
    refine ⟨fun p hp => ?_, hknown⟩
    rcases Std.HashSet.mem_insert.1 hp with heq | hp
    · exact eq_of_beq heq ▸ hknown f (.inr (List.mem_of_mem_head? hf))
    · obtain ⟨g, hg, rfl⟩ := h.visited p hp
      exact hknown g (.inl hg)
  visited := h.visited
  reachable f hf := by
    obtain ⟨read, hread, hpath⟩ := h.path f hf
    rw [f.place_of_append hread, ← hread, List.take_left]
    exact hpath

/-- Every turn of every search has a log, and with it the invariant holds. -/
theorem loopInvariant_of_comes (a : Automaton) (input : String) :
    (∀ s, Relation.ReflTransGen (Steps a) (.start a input.toList) s →
      ∃ log, Comes a input.toList log s) ∧
    ∀ log s, Comes a input.toList log s → LoopInvariant a input.toList log s :=
  ⟨fun _ h => exists_comes h, fun _ _ h => h.tracks.loopInvariant⟩

/-- Two edges to the same state on the same character, and a loop of one epsilon
edge: the two character moves have guards of their own. -/
theorem loopInvariant_of_comes_parallel :
    ∃ a log s, Comes a "ab".toList log s ∧ log.moved = [⟨1, ['b'], 1⟩, ⟨1, ['b'], 2⟩] ∧
      s.stack = [⟨1, ['b'], 1⟩, ⟨0, ['a', 'b'], 0⟩] ∧ LoopInvariant a "ab".toList log s := by
  let a : Automaton :=
    ⟨.mk [{ edges := (EdgeTable.single 97 1).insert 97 1, epsilons := [0] }, {}], 0, 1⟩
  let second : Search :=
    ⟨[⟨1, ['b'], 2⟩, ⟨1, ['b'], 1⟩, ⟨0, ['a', 'b'], 0⟩], 2, (∅ : Visited).insert (0, 0)⟩
  let third : Search :=
    ⟨[⟨1, ['b'], 1⟩, ⟨0, ['a', 'b'], 0⟩], 2, second.visited.insert (2, 1)⟩
  have hnew : (0, 0) ∉ (∅ : Visited) := Std.HashSet.not_mem_empty
  have hnew' : (2, 1) ∉ second.visited := by simp [second]
  have hfirst : step a (.start a ['a', 'b']) = .running second := by
    rw [Search.start, step, if_neg hnew]
    rfl
  have hsecond : step a second = .running third := by
    rw [step, if_neg hnew']
    rfl
  have hlog : Log.next a {} (.start a ['a', 'b']) =
      ⟨[⟨0, ['a', 'b'], 0⟩], [⟨1, ['b'], 1⟩, ⟨1, ['b'], 2⟩]⟩ := if_neg hnew
  have hlog' (log : Log) : (log.next a second).moved = log.moved := by
    rw [show log.next a second = _ from if_neg hnew']
    exact List.append_nil _
  have hcomes := (Comes.start.turn hfirst).turn hsecond
  refine ⟨a, _, _, hcomes, ?_, rfl, (loopInvariant_of_comes a "ab").2 _ _ hcomes⟩
  rw [hlog', hlog]

end PatternAutomata.DepthFirst
