import PatternAutomata.Proofs.Agreement
import PatternAutomata.Proofs.Denotation
import PatternAutomata.Proofs.OutOfRange
import PatternAutomata.Proofs.SizeLimits

/-!
# Operands in sequence, and alternatives

What becomes of a list of operands, automata and texts mixed in any order. Both
operators on lists go through the list once and put each operand to what was made
of those before it, so one statement about the operands behind is carried along
(`InSequence`, `InAlternative`): which words the automaton accepts, that it
accepts them at its exit only, and how many states it has.

Whether there is an automaton at all depends on the texts alone, and has been
settled before anything is said about languages (`Consumes`).
-/

namespace PatternAutomata

/-- The words that an operand accepts; text accepts itself and nothing else. -/
def Operand.words : Operand → Language Char
  | .automaton a => a.accepted
  | .text s => {s.toList}

theorem Operand.means_words {x : Operand}
    (h : ∀ a, x = .automaton a → a.WellFormed ∧ a.AcceptsAtExit) : x.Means x.words := by
  cases x with
  | text s => rfl
  | automaton a =>
      obtain ⟨hwf, hexit⟩ := h a rfl
      exact ⟨hwf, hexit, (Automaton.accepted_eq_language a).symm⟩

theorem Automaton.Recognizes.accepts_iff {a : Automaton} {M : Language Char}
    (h : a.Recognizes M) {p : StateId} : a.accepts p = true ↔ p = a.exit := by
  refine ⟨h.acceptsAtExit p, ?_⟩
  rintro rfl
  exact h.wellFormed.accepts_exit

/-! ## Words of lists -/

/-- A word of each operand in turn. -/
theorem Operand.mem_prod_words_iff {xs : List Operand} {w : List Char} :
    w ∈ (xs.map words).prod ↔
      ∃ ws, List.Forall₂ (fun u x => u ∈ x.words) ws xs ∧ ws.flatten = w := by
  induction xs generalizing w with
  | nil =>
      rw [List.map_nil, List.prod_nil, Language.mem_one]
      constructor
      · rintro rfl
        exact ⟨[], .nil, rfl⟩
      · rintro ⟨ws, hws, rfl⟩
        cases hws
        rfl
  | cons x xs ih =>
      rw [List.map_cons, List.prod_cons, Language.mem_mul]
      constructor
      · rintro ⟨u, hu, v, hv, rfl⟩
        obtain ⟨ws, hws, rfl⟩ := ih.1 hv
        exact ⟨u :: ws, .cons hu hws, List.flatten_cons⟩
      · rintro ⟨_, hws, rfl⟩
        cases hws with
        | @cons u _ ws _ hu hws =>
            exact ⟨u, hu, ws.flatten, ih.2 ⟨ws, hws, rfl⟩, List.flatten_cons.symm⟩

/-- A word of some operand. -/
theorem Operand.mem_sum_words_iff {xs : List Operand} {w : List Char} :
    w ∈ (xs.map words).sum ↔ ∃ x ∈ xs, w ∈ x.words := by
  induction xs with
  | nil => simp [Language.notMem_zero]
  | cons x xs ih =>
      rw [List.map_cons, List.sum_cons, Language.mem_add, ih, List.exists_mem_cons_iff]

namespace Automaton

variable {xs : List Operand} {x : Operand} {a b c : Automaton}

/-! ## In sequence -/

/-- The automaton is what the operands become in sequence. -/
structure InSequence (xs : List Operand) (a : Automaton) : Prop where
  recognizes : a.Recognizes (xs.map Operand.words).prod
  size_eq : a.size = 2 + (xs.map Operand.size).sum

theorem InSequence.emptyWord : InSequence [] emptyWord :=
  ⟨.emptyWord, rfl⟩

theorem InSequence.concat (h : InSequence xs a) (hx : x.Means x.words) (hb : x.build = .ok b) :
    InSequence (xs ++ [x]) (a.concat b) where
  recognizes := by
    rw [List.map_append, List.prod_append, List.map_singleton, List.prod_singleton]
    exact h.recognizes.concat (hx.build hb)
  size_eq := by
    rw [List.map_append, List.sum_append, List.map_singleton, List.sum_singleton, size_concat,
      h.size_eq, Operand.size_of_build hb, Nat.add_assoc]

theorem inSequence_of_concatAll (hxs : ∀ x ∈ xs, x.Means x.words)
    (hc : concatAll xs = .ok c) : InSequence xs c := by
  refine holds_of_foldlM_append [] (fun us x hx a d ha hd => ?_) .emptyWord hc
  obtain ⟨b, hb, hd⟩ := bind_eq_ok.1 hd
  exact pure_eq_ok.1 hd ▸ ha.concat (hxs x hx) hb

/-! ## Alternatives -/

/-- The automaton is what the operands become as alternatives, each with two
states besides its own. The first one does without them. -/
structure InAlternative (xs : List Operand) (a : Automaton) : Prop where
  recognizes : a.Recognizes (xs.map Operand.words).sum
  size_eq : a.size + 2 = (xs.map Operand.size).sum + 2 * xs.length

theorem InAlternative.single (hx : x.Means x.words) (hb : x.build = .ok b) :
    InAlternative [x] b where
  recognizes := by
    rw [List.map_singleton, List.sum_singleton]
    exact hx.build hb
  size_eq := by
    rw [List.map_singleton, List.sum_singleton, Operand.size_of_build hb, List.length_singleton]

theorem InAlternative.union (h : InAlternative xs a) (hx : x.Means x.words)
    (hb : x.build = .ok b) : InAlternative (xs ++ [x]) (a.union b) where
  recognizes := by
    rw [List.map_append, List.sum_append, List.map_singleton, List.sum_singleton]
    exact h.recognizes.union (hx.build hb)
  size_eq := by
    have hsize := h.size_eq
    rw [List.map_append, List.sum_append, List.map_singleton, List.sum_singleton, size_union,
      Operand.size_of_build hb, List.length_append, List.length_singleton]
    omega

theorem inAlternative_of_unionAll (hxs : ∀ x ∈ xs, x.Means x.words)
    (hc : unionAll xs = .ok c) : InAlternative xs c := by
  match xs, hc with
  | x :: rest, hc =>
      obtain ⟨hx, hrest⟩ := List.forall_mem_cons.1 hxs
      obtain ⟨first, hfirst, hc⟩ := bind_eq_ok.1 hc
      refine holds_of_foldlM_append [x] (fun us y hy a d ha hd => ?_)
        (.single hx hfirst) hc
      obtain ⟨b, hb, hd⟩ := bind_eq_ok.1 hd
      exact pure_eq_ok.1 hd ▸ ha.union (hrest y hy) hb

/-! ## Both operators -/

theorem exists_unionAll_iff : (∃ c, unionAll xs = .ok c) ↔
    xs ≠ [] ∧ ∀ d ∈ xs.flatMap Operand.characters, d.toNat ≤ 255 := by
  cases xs with
  | nil => simp [unionAll]
  | cons x xs =>
      rw [(consumes_unionAll x xs).exists_ok_iff]
      exact (and_iff_right (List.cons_ne_nil x xs)).symm

theorem unionAll_eq_error {d : Char}
    (hd : (xs.flatMap Operand.characters).find? (255 < ·.toNat) = some d) :
    unionAll xs = .error (.invalidArgument (.symbolOutOfRange d.toNat)) := by
  cases xs with
  | nil => cases hd
  | cons x xs => exact (consumes_unionAll x xs).error d hd

/-- Lists of automata and texts in any order, under both operators: when there is
a result, which error there is otherwise, and what the result is. Nothing is asked
of the edges inside the automata, only that they accept at their exit and nowhere
else. -/
theorem concatAll_unionAll_mixed (xs : List Operand)
    (h : ∀ a, .automaton a ∈ xs → Obtainable a ∧ a.AcceptsAtExit) :
    ((∃ c, concatAll xs = .ok c) ↔
      ∀ d ∈ xs.flatMap Operand.characters, d.toNat ≤ 255) ∧
    ((∃ c, unionAll xs = .ok c) ↔
      xs ≠ [] ∧ ∀ d ∈ xs.flatMap Operand.characters, d.toNat ≤ 255) ∧
    (∀ d, (xs.flatMap Operand.characters).find? (255 < ·.toNat) = some d →
      concatAll xs = .error (.invalidArgument (.symbolOutOfRange d.toNat)) ∧
      unionAll xs = .error (.invalidArgument (.symbolOutOfRange d.toNat))) ∧
    (xs = [] → unionAll xs = .error (.invalidArgument .noAlternatives)) ∧
    (∀ c, concatAll xs = .ok c →
      (∀ p, c.accepts p = true ↔ p = c.exit) ∧
      c.size = 2 + (xs.map Operand.size).sum ∧
      ∀ (engine : Engine) (input : String), engine.accepts c input = true ↔
        ∃ ws, List.Forall₂ (fun w x => w ∈ x.words) ws xs ∧ ws.flatten = input.toList) ∧
    (∀ c, unionAll xs = .ok c →
      (∀ p, c.accepts p = true ↔ p = c.exit) ∧
      c.size = (xs.map Operand.size).sum + 2 * (xs.length - 1) ∧
      ∀ (engine : Engine) (input : String), engine.accepts c input = true ↔
        ∃ x ∈ xs, input.toList ∈ x.words) := by
  have hxs : ∀ x ∈ xs, x.Means x.words := by
    intro x hx
    refine Operand.means_words fun a ha => ?_
    obtain ⟨hmade, hexit⟩ := h a (ha ▸ hx)
    exact ⟨hmade.wellFormed, hexit⟩
  refine ⟨(consumes_concatAll xs).exists_ok_iff, exists_unionAll_iff, fun d hd => ?_, ?_,
    fun c hc => ?_, fun c hc => ?_⟩
  · exact ⟨(consumes_concatAll xs).error d hd, unionAll_eq_error hd⟩
  · rintro rfl
    rfl
  · have hseq := inSequence_of_concatAll hxs hc
    refine ⟨fun p => hseq.recognizes.accepts_iff, hseq.size_eq, fun engine input => ?_⟩
    rw [engine.accepts_iff, hseq.recognizes.language_eq, Operand.mem_prod_words_iff]
  · have halt := inAlternative_of_unionAll hxs hc
    refine ⟨fun p => halt.recognizes.accepts_iff, ?_, fun engine input => ?_⟩
    · have hne := (exists_unionAll_iff.1 ⟨c, hc⟩).1
      have hsize := halt.size_eq
      have hpos := List.length_pos_iff.2 hne
      omega
    · rw [engine.accepts_iff, halt.recognizes.language_eq, Operand.mem_sum_words_iff]

/-- An automaton with a loop wired by hand, a text and the empty text. -/
theorem concatAll_unionAll_mixed_looped :
    ∃ a xs, (ofSymbol 97).addEpsilon 1 0 = .ok a ∧
      xs = [.automaton a, .text "bc", .text ""] ∧
      (∀ b, .automaton b ∈ xs → Obtainable b ∧ b.AcceptsAtExit) ∧
      (∃ c, concatAll xs = .ok c ∧ c.size = 10 ∧
        ∀ engine : Engine, engine.accepts c "aabc" = true) ∧
      ∃ c, unionAll xs = .ok c ∧ c.size = 12 ∧
        ∀ engine : Engine, engine.accepts c "" = true := by
  obtain ⟨a, ha⟩ : ∃ a, (ofSymbol 97).addEpsilon 1 0 = .ok a := ⟨_, rfl⟩
  have hexit : a.AcceptsAtExit := by
    cases ha
    intro p hp
    match p, lt_size_of_accepts hp with
    | 0, _ => cases hp
    | 1, _ => rfl
  have hlisted : ∀ b, .automaton b ∈ [Operand.automaton a, .text "bc", .text ""] →
      Obtainable b ∧ b.AcceptsAtExit := by
    intro b hb
    obtain rfl : b = a := by simpa using hb
    exact ⟨.addEpsilon rfl (.ofSymbol 97) ha, hexit⟩
  have hloop : DepthFirst.accepts a "aa" = true := by
    cases ha
    exact DepthFirst.accepts_iff.2 ⟨1, .read (q := 1) (by decide) (.epsilon (q := 0) (by decide)
      (.read (q := 1) (by decide) (.refl 1))), by decide⟩
  have hchars : ∀ d ∈ ['b', 'c'], d.toNat ≤ 255 := by simp
  obtain ⟨hconcat, hunion, -, -, hseq, halt⟩ := concatAll_unionAll_mixed _ hlisted
  obtain ⟨c, hc⟩ := hconcat.2 hchars
  obtain ⟨d, hd⟩ := hunion.2 ⟨nofun, hchars⟩
  refine ⟨a, _, ha, rfl, hlisted, ⟨c, hc, ?_, fun engine => ?_⟩, d, hd, ?_, fun engine => ?_⟩
  · cases ha
    exact (hseq c hc).2.1
  · refine ((hseq c hc).2.2 engine "aabc").2 ⟨[['a', 'a'], ['b', 'c'], []], ?_, by decide⟩
    exact .cons hloop (.cons rfl (.cons rfl .nil))
  · cases ha
    exact (halt d hd).2.1
  · exact ((halt d hd).2.2 engine "").2 ⟨.text "", by simp, rfl⟩

end Automaton

end PatternAutomata
