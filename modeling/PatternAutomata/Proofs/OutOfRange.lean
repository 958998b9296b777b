import PatternAutomata.Automaton.Operand
import PatternAutomata.Proofs.Results

/-!
# Characters out of range

Nothing but a character that stands for no symbol keeps text from becoming an
automaton, alone or as one of several operands. The first such character is the
one in the error, in the order of the operands and of the characters in each of
them (`Consumes`). What the operators make of the automata has no part in that.
-/

namespace PatternAutomata

/-- The computation consumes the characters in their order: it fails at the first
one that stands for no symbol, and succeeds if there is none. -/
structure Consumes {α : Type} (cs : List Char) (r : Except BuildError α) : Prop where
  ok : (∀ c ∈ cs, c.toNat ≤ 255) → ∃ y, r = .ok y
  error : ∀ c, cs.find? (255 < ·.toNat) = some c →
    r = .error (.invalidArgument (.symbolOutOfRange c.toNat))

theorem find?_outOfRange_eq_none {cs : List Char} :
    cs.find? (255 < ·.toNat) = none ↔ ∀ c ∈ cs, c.toNat ≤ 255 := by
  simp

namespace Consumes

variable {α β : Type} {cs ds : List Char} {r : Except BuildError α}

theorem nil (y : α) : Consumes [] (.ok y) :=
  ⟨fun _ => ⟨y, rfl⟩, nofun⟩

theorem bind {f : α → Except BuildError β} (h : Consumes cs r) (hf : ∀ y, Consumes ds (f y)) :
    Consumes (cs ++ ds) (r >>= f) := by
  constructor
  · intro hall
    obtain ⟨hcs, hds⟩ := List.forall_mem_append.1 hall
    obtain ⟨y, rfl⟩ := h.ok hcs
    exact (hf y).ok hds
  · intro c hc
    rw [List.find?_append] at hc
    cases hfirst : cs.find? (255 < ·.toNat) with
    | some d =>
        rw [hfirst, Option.some_or] at hc
        obtain rfl := Option.some.inj hc
        rw [h.error d hfirst]
        rfl
    | none =>
        rw [hfirst, Option.none_or] at hc
        obtain ⟨y, rfl⟩ := h.ok (find?_outOfRange_eq_none.1 hfirst)
        exact (hf y).error c hc

theorem bind_ok {f : α → β} (h : Consumes cs r) : Consumes cs (do return f (← r)) := by
  have hbind := h.bind (f := fun y => .ok (f y)) fun y => nil (f y)
  rwa [List.append_nil] at hbind

theorem foldlM {f : β → α → Except BuildError β} {read : α → List Char} {xs : List α}
    (h : ∀ b, ∀ x ∈ xs, Consumes (read x) (f b x)) (b : β) :
    Consumes (xs.flatMap read) (xs.foldlM f b) := by
  induction xs generalizing b with
  | nil => exact nil b
  | cons x xs ih =>
      rw [List.flatMap_cons, List.foldlM_cons]
      refine (h b x List.mem_cons_self).bind fun c => ?_
      exact ih (fun d y hy => h d y (List.mem_cons_of_mem _ hy)) c

theorem exists_ok_iff (h : Consumes cs r) : (∃ y, r = .ok y) ↔ ∀ c ∈ cs, c.toNat ≤ 255 := by
  refine ⟨fun ⟨y, hy⟩ => ?_, h.ok⟩
  rw [← find?_outOfRange_eq_none]
  cases hfirst : cs.find? (255 < ·.toNat) with
  | none => rfl
  | some c =>
      have herror := h.error c hfirst
      rw [hy] at herror
      cases herror

theorem eq_error (h : Consumes cs r) {e : BuildError} (he : r = .error e) :
    ∃ c, cs.find? (255 < ·.toNat) = some c ∧
      e = .invalidArgument (.symbolOutOfRange c.toNat) := by
  cases hfirst : cs.find? (255 < ·.toNat) with
  | none =>
      obtain ⟨y, hy⟩ := h.ok (find?_outOfRange_eq_none.1 hfirst)
      rw [hy] at he
      cases he
  | some c => exact ⟨c, rfl, Except.error.inj (he.symm.trans (h.error c hfirst))⟩

end Consumes

theorem Automaton.consumes_ofChar (c : Char) : Consumes [c] (ofChar c) := by
  rw [ofChar]
  cases hc : Symbol.ofChar? c with
  | none =>
      have hlarge := Symbol.ofChar?_eq_none_iff.1 hc
      refine ⟨fun hall => ?_, fun d hd => ?_⟩
      · exact absurd (List.forall_mem_singleton.1 hall) (Nat.not_le.2 hlarge)
      · obtain rfl : d = c := by simpa [hlarge] using hd.symm
        rfl
  | some s =>
      have hsmall : c.toNat ≤ 255 := by
        have hlt := s.toNat_lt
        rw [Symbol.ofChar?_eq_some_iff.1 hc] at hlt
        omega
      refine ⟨fun _ => ⟨_, rfl⟩, fun d hd => ?_⟩
      rw [find?_outOfRange_eq_none.2 (List.forall_mem_singleton.2 hsmall)] at hd
      cases hd

theorem Automaton.consumes_ofText (s : String) : Consumes s.toList (ofText s) := by
  rw [ofText]
  cases s.toList with
  | nil => exact .nil _
  | cons c rest =>
      have hrest (a : Automaton) : Consumes (rest.flatMap fun d => [d])
          (rest.foldlM (fun a d => return a.concat (← ofChar d)) a) :=
        .foldlM (fun _ d _ => (consumes_ofChar d).bind_ok) a
      rw [List.flatMap_singleton'] at hrest
      exact (consumes_ofChar c).bind hrest

namespace Operand

/-- The characters that are still to become part of an automaton. -/
def characters : Operand → List Char
  | automaton _ => []
  | text s => s.toList

@[simp] theorem characters_automaton (a : Automaton) : (automaton a).characters = [] := rfl

@[simp] theorem characters_text (s : String) : (text s).characters = s.toList := rfl

theorem consumes_build (x : Operand) : Consumes x.characters x.build := by
  cases x with
  | automaton a => exact .nil a
  | text s => exact Automaton.consumes_ofText s

end Operand

namespace Automaton

theorem consumes_concatAll (xs : List Operand) :
    Consumes (xs.flatMap Operand.characters) (concatAll xs) :=
  .foldlM (fun _ x _ => x.consumes_build.bind_ok) emptyWord

theorem consumes_unionAll (x : Operand) (xs : List Operand) :
    Consumes ((x :: xs).flatMap Operand.characters) (unionAll (x :: xs)) := by
  rw [List.flatMap_cons]
  exact x.consumes_build.bind fun a => .foldlM (fun _ y _ => y.consumes_build.bind_ok) a

end Automaton

end PatternAutomata
