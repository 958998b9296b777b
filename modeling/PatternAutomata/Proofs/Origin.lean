import PatternAutomata.Proofs.Reductions
import PatternAutomata.Provenance

/-!
# Induction over the origin of an automaton

The compiler, the operators on lists and the operators on text make automata
by five basic operations only. So a property that these five keep holds of
everything the library makes (`Made.holds`), and if wiring by hand keeps it
too, of everything a caller can get hold of.
-/

namespace PatternAutomata

open Automaton

/-- The property holds of an operand as far as it is an automaton already. -/
def Operand.Holds (P : Automaton → Prop) : Operand → Prop
  | .automaton a => P a
  | .text _ => True

theorem Operand.holds_of_eq {P : Automaton → Prop} {x : Operand}
    (h : ∀ b, x = .automaton b → P b) : x.Holds P := by
  cases x with
  | automaton b => exact h b rfl
  | text s => trivial

theorem Operand.Holds.mono {P Q : Automaton → Prop} {x : Operand} (hx : x.Holds P)
    (h : ∀ {a}, P a → Q a) : x.Holds Q := by
  cases x with
  | automaton a => exact h hx
  | text s => trivial

/-- The five basic operations make automata with the property from automata
with the property. -/
structure KeptByOperators (P : Automaton → Prop) : Prop where
  emptyWord : P .emptyWord
  ofSymbol : ∀ s, P (.ofSymbol s)
  concat : ∀ {a b}, P a → P b → P (a.concat b)
  union : ∀ {a b}, P a → P b → P (a.union b)
  star : ∀ {a}, P a → P a.star

/-- A state or an edge more does not harm the property. -/
structure KeptByWiring (P : Automaton → Prop) : Prop where
  addState : ∀ {a} accepting, P a → P (a.addState accepting).2
  addSymbol : ∀ {a b src value dest}, P a → a.addSymbol src value dest = .ok b → P b
  addEpsilon : ∀ {a b src dest}, P a → a.addEpsilon src dest = .ok b → P b

namespace KeptByOperators

variable {P : Automaton → Prop} {a b : Automaton}

theorem plus (h : KeptByOperators P) (ha : P a) : P a.plus :=
  h.concat ha (h.star ha)

theorem ofChar (h : KeptByOperators P) {c : Char} (ha : Automaton.ofChar c = .ok a) : P a := by
  rw [Automaton.ofChar] at ha
  split at ha
  · simp at ha
  · exact Except.ok.inj ha ▸ h.ofSymbol _

theorem ofText (h : KeptByOperators P) {s : String} (ha : Automaton.ofText s = .ok a) : P a := by
  rw [Automaton.ofText] at ha
  split at ha
  · exact Except.ok.inj ha ▸ h.emptyWord
  · obtain ⟨first, hfirst, hrest⟩ := bind_eq_ok.1 ha
    refine holds_of_foldlM (fun c _ x y hx hy => ?_) (h.ofChar hfirst) hrest
    obtain ⟨z, hz, hxz⟩ := bind_eq_ok.1 hy
    exact pure_eq_ok.1 hxz ▸ h.concat hx (h.ofChar hz)

theorem build (h : KeptByOperators P) {x : Operand} (hx : x.Holds P) (ha : x.build = .ok a) :
    P a := by
  cases x with
  | automaton b => exact Except.ok.inj ha ▸ hx
  | text s => exact h.ofText ha

theorem concatAll (h : KeptByOperators P) {xs : List Operand} (hxs : ∀ x ∈ xs, x.Holds P)
    (ha : Automaton.concatAll xs = .ok a) : P a := by
  refine holds_of_foldlM (fun x hx b c hb hc => ?_) h.emptyWord ha
  obtain ⟨d, hd, hbd⟩ := bind_eq_ok.1 hc
  exact pure_eq_ok.1 hbd ▸ h.concat hb (h.build (hxs x hx) hd)

theorem unionAll (h : KeptByOperators P) {xs : List Operand} (hxs : ∀ x ∈ xs, x.Holds P)
    (ha : Automaton.unionAll xs = .ok a) : P a := by
  cases xs with
  | nil => simp [Automaton.unionAll] at ha
  | cons x rest =>
      obtain ⟨first, hfirst, hrest⟩ := bind_eq_ok.1 ha
      refine holds_of_foldlM (fun y hy b c hb hc => ?_)
        (h.build (hxs x List.mem_cons_self) hfirst) hrest
      obtain ⟨d, hd, hbd⟩ := bind_eq_ok.1 hc
      exact pure_eq_ok.1 hbd ▸ h.union hb (h.build (hxs y (List.mem_cons_of_mem _ hy)) hd)

end KeptByOperators

/-! ## The compiler -/

namespace KeptByOperators

variable {P : Automaton → Prop} {limit : SizeLimit} {a : Automaton}

theorem reduced (h : KeptByOperators P) {t : Token} {stack later : List Operand}
    (hr : Evaluation.Reduced t stack later) (hstack : ∀ y ∈ stack, y.Holds P) :
    ∀ y ∈ later, y.Holds P := by
  cases hr with
  | symbol c => exact List.forall_mem_cons.2 ⟨trivial, hstack⟩
  | emptyGroup => exact List.forall_mem_cons.2 ⟨h.emptyWord, hstack⟩
  | leftParen => exact hstack
  | rightParen => exact hstack
  | join left right below =>
      simp only [List.forall_mem_cons] at hstack
      exact List.forall_mem_cons.2 ⟨trivial, hstack.2.2⟩
  | concat below ha =>
      simp only [List.forall_mem_cons] at hstack
      have hP := h.concatAll (by simpa using ⟨hstack.2.1, hstack.1⟩) ha
      exact List.forall_mem_cons.2 ⟨hP, hstack.2.2⟩
  | union below ha =>
      simp only [List.forall_mem_cons] at hstack
      have hP := h.unionAll (by simpa using ⟨hstack.2.1, hstack.1⟩) ha
      exact List.forall_mem_cons.2 ⟨hP, hstack.2.2⟩
  | star below ha =>
      rw [List.forall_mem_cons] at hstack
      exact List.forall_mem_cons.2 ⟨h.star (h.build hstack.1 ha), hstack.2⟩
  | plus below ha =>
      rw [List.forall_mem_cons] at hstack
      exact List.forall_mem_cons.2 ⟨h.plus (h.build hstack.1 ha), hstack.2⟩

theorem finish (h : KeptByOperators P) {stack : List Operand}
    (hstack : ∀ y ∈ stack, y.Holds P) (ha : Evaluation.finish limit stack = .ok a) : P a := by
  unfold Evaluation.finish at ha
  split at ha
  · exact Except.ok.inj ha ▸ h.emptyWord
  · obtain ⟨b, hb, henforce⟩ := bind_eq_ok.1 ha
    rw [SizeLimit.eq_of_enforce_eq_ok henforce]
    exact h.build (hstack _ List.mem_cons_self) hb
  · simp at ha

theorem evaluate (h : KeptByOperators P) {xs : List Lexeme}
    (ha : Lexeme.evaluate limit xs = .ok a) : P a := by
  obtain ⟨stack, hstack, hfinish⟩ := bind_eq_ok.1 ha
  refine h.finish ?_ hfinish
  refine holds_of_foldlM (P := fun stack => ∀ y ∈ stack, y.Holds P) ?_ (by simp) hstack
  intro x _ below above hbelow hstep
  exact h.reduced (Evaluation.reduced_of_step hstep) hbelow

theorem compile (h : KeptByOperators P) {pattern : String}
    (ha : Pattern.compile limit pattern = .ok a) : P a := by
  obtain ⟨xs, -, heval⟩ := bind_eq_ok.1 ha
  exact h.evaluate heval

end KeptByOperators

/-- What the basic operations keep holds of everything that was made by them,
and of what was wired by hand if wiring keeps it too. -/
theorem Automaton.Made.holds {P : Automaton → Prop} {wired : Bool} {a : Automaton}
    (h : Made wired a) (hops : KeptByOperators P) (hwiring : wired = true → KeptByWiring P) :
    P a := by
  induction h with
  | emptyWord => exact hops.emptyWord
  | ofSymbol s => exact hops.ofSymbol s
  | ofChar hmade => exact hops.ofChar hmade
  | concat _ _ iha ihb => exact hops.concat iha ihb
  | union _ _ iha ihb => exact hops.union iha ihb
  | star _ ih => exact hops.star ih
  | plus _ ih => exact hops.plus ih
  | build _ hmade ih => exact hops.build (Operand.holds_of_eq ih) hmade
  | concatAll _ hmade ih =>
      exact hops.concatAll (fun x hx => Operand.holds_of_eq fun b hb => ih b (hb ▸ hx)) hmade
  | unionAll _ hmade ih =>
      exact hops.unionAll (fun x hx => Operand.holds_of_eq fun b hb => ih b (hb ▸ hx)) hmade
  | compile hmade => exact hops.compile hmade
  | addState accepting hw _ ih => exact (hwiring hw).addState accepting ih
  | addSymbol hw _ hmade ih => exact (hwiring hw).addSymbol ih hmade
  | addEpsilon hw _ hmade ih => exact (hwiring hw).addEpsilon ih hmade

end PatternAutomata
