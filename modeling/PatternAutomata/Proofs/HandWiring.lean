import PatternAutomata.Automaton.InPlace
import PatternAutomata.Proofs.Simulation
import PatternAutomata.Proofs.WellFormedness

/-!
# Wiring by hand loses no words

What a call by hand does to an automaton, and to what the automaton accepts.

A call that adds an edge looks at its arguments before it changes anything. So it
either refuses and leaves every state as it was, or it changes one state, which
gets one destination more (`Wires`). The automaton behind it can do all that the
one before could do, in every state, and that is all that `Simulates` asks for:
nothing has to be said about the order in which a search meets the new edge, or
about what it remembers under its guards by then.

A new state is another matter. It may accept, but as long as every edge leads to
a state that was there before, no word leads to it.
-/

namespace PatternAutomata

/-! ## One state -/

namespace State

/-- The second state has one epsilon edge more than the first, behind the others. -/
structure GainsEpsilon (dest : StateId) (s t : State) : Prop where
  accepting_eq : t.accepting = s.accepting
  edges_eq : t.edges = s.edges
  epsilons_eq : t.epsilons = s.epsilons ++ [dest]

/-- The second state has one edge more than the first on a symbol, behind the
others of the symbol. What the tables hold on other symbols is the same. -/
structure GainsEdge (symbol : Symbol) (dest : StateId) (s t : State) : Prop where
  accepting_eq : t.accepting = s.accepting
  epsilons_eq : t.epsilons = s.epsilons
  lookup_symbol : t.edges.entries.lookup symbol = some (s.edges.on symbol ++ [dest])
  lookup_of_ne : ∀ u, u ≠ symbol → t.edges.entries.lookup u = s.edges.entries.lookup u

/-- The second state has every edge of the first. -/
structure Grows (s t : State) : Prop where
  accepting_eq : t.accepting = s.accepting
  epsilons_subset : s.epsilons ⊆ t.epsilons
  on_subset : ∀ symbol, s.edges.on symbol ⊆ t.edges.on symbol

variable {s t : State} {symbol : Symbol} {dest : StateId}

theorem gainsEpsilon (s : State) (dest : StateId) : GainsEpsilon dest s (s.addEpsilons [dest]) :=
  ⟨rfl, rfl, rfl⟩

theorem gainsEdge (s : State) (symbol : Symbol) (dest : StateId) :
    GainsEdge symbol dest s (s.addEdge symbol dest) where
  accepting_eq := rfl
  epsilons_eq := rfl
  lookup_symbol := by rw [addEdge, EdgeTable.lookup_insert, if_pos rfl]
  lookup_of_ne u hu := by rw [addEdge, EdgeTable.lookup_insert, if_neg hu]

theorem GainsEpsilon.grows (h : GainsEpsilon dest s t) : s.Grows t where
  accepting_eq := h.accepting_eq
  epsilons_subset := by
    rw [h.epsilons_eq]
    exact List.subset_append_left _ _
  on_subset u := by rw [h.edges_eq]; exact List.Subset.refl _

theorem GainsEdge.grows (h : GainsEdge symbol dest s t) : s.Grows t where
  accepting_eq := h.accepting_eq
  epsilons_subset := by rw [h.epsilons_eq]; exact List.Subset.refl _
  on_subset u := by
    by_cases hu : u = symbol
    · show s.edges.on u ⊆ (t.edges.entries.lookup u).getD []
      rw [hu, h.lookup_symbol]
      exact List.subset_append_left _ _
    · show s.edges.on u ⊆ (t.edges.entries.lookup u).getD []
      rw [h.lookup_of_ne u hu]
      exact List.Subset.refl _

end State

/-! ## One state of an automaton -/

namespace Automaton

variable {a b : Automaton} {p q src dest value : Nat} {w : List Char} {f : State → State}
  {Change : State → State → Prop}

/-- The automata differ in one state at most, and there as told. -/
structure Rewired (a b : Automaton) (src : StateId) (Change : State → State → Prop) : Prop where
  entry_eq : b.entry = a.entry
  exit_eq : b.exit = a.exit
  size_eq : b.size = a.size
  state?_eq : ∀ p, p ≠ src → b.state? p = a.state? p
  changed : ∃ s t, a.state? src = some s ∧ b.state? src = some t ∧ Change s t

theorem rewired_modify (hsrc : src < a.size) (hf : ∀ s, Change s (f s)) :
    a.Rewired { a with states := a.states.modify src f } src Change where
  entry_eq := rfl
  exit_eq := rfl
  size_eq := Array.size_modify
  state?_eq p hp := by
    rw [state?, state?, getElem?_modify_eq_map]
    simp [hp]
  changed := by
    have hs : a.state? src = some a.states[src] := Array.getElem?_eq_getElem hsrc
    refine ⟨a.states[src], f a.states[src], hs, ?_, hf _⟩
    rw [state?] at hs ⊢
    rw [getElem?_modify_eq_map, hs]
    simp

namespace Rewired

theorem mono {Change' : State → State → Prop} (h : a.Rewired b src Change)
    (hsub : ∀ s t, Change s t → Change' s t) : a.Rewired b src Change' := by
  obtain ⟨s, t, hs, ht, hchange⟩ := h.changed
  exact { h with changed := ⟨s, t, hs, ht, hsub s t hchange⟩ }

/-- Every edge is still there. -/
theorem simulates (h : a.Rewired b src State.Grows) : b.Simulates a := by
  obtain ⟨s, t, hs, ht, hgrows⟩ := h.changed
  have hepsilons (p : StateId) : a.epsilons p ⊆ b.epsilons p := by
    by_cases hp : p = src
    · rw [hp, epsilons, epsilons, hs, ht]
      exact hgrows.epsilons_subset
    · rw [epsilons, epsilons, h.state?_eq p hp]
      exact List.Subset.refl _
  have hon (p : StateId) (symbol : Symbol) : a.on p symbol ⊆ b.on p symbol := by
    by_cases hp : p = src
    · rw [hp, on, on, hs, ht]
      exact hgrows.on_subset symbol
    · rw [on, on, h.state?_eq p hp]
      exact List.Subset.refl _
  exact ⟨h.entry_eq, fun p q hq => .single (hepsilons p hq),
    fun p c q hq => onChar_subset (hon p) c hq⟩

theorem accepts_eq (h : a.Rewired b src State.Grows) (p : StateId) :
    b.accepts p = a.accepts p := by
  obtain ⟨s, t, hs, ht, hgrows⟩ := h.changed
  by_cases hp : p = src
  · rw [hp, accepts, accepts, hs, ht]
    exact hgrows.accepting_eq
  · rw [accepts, accepts, h.state?_eq p hp]

theorem accepts_of_accepts (h : a.Rewired b src State.Grows) (before after : Engine)
    {input : String} (hinput : before.accepts a input = true) : after.accepts b input = true := by
  refine h.simulates.accepts_of_accepts (fun w q _ hq => ?_) before after hinput
  rwa [h.accepts_eq q]

end Rewired

/-! ## A state more -/

theorem state?_addState (a : Automaton) (accepting : Bool) (p : StateId) :
    (a.addState accepting).2.state? p =
      if p = a.size then some { accepting } else a.state? p :=
  Array.getElem?_push

theorem epsilons_addState (a : Automaton) (accepting : Bool) (p : StateId) :
    (a.addState accepting).2.epsilons p = a.epsilons p := by
  rw [epsilons, state?_addState]
  split
  · rename_i hp
    rw [epsilons_of_size_le (Nat.le_of_eq hp.symm)]
    rfl
  · rfl

theorem onChar_addState (a : Automaton) (accepting : Bool) (p : StateId) (c : Char) :
    (a.addState accepting).2.onChar p c = a.onChar p c := by
  have hon (symbol : Symbol) : (a.addState accepting).2.on p symbol = a.on p symbol := by
    rw [on, state?_addState]
    split
    · rename_i hp
      rw [on_of_size_le (Nat.le_of_eq hp.symm)]
      rfl
    · rfl
  rw [onChar, onChar, funext hon]

theorem Closed.lt_of_path (h : a.Closed) (hpath : a.Path p w q) (hp : p < a.size) :
    q < a.size := by
  induction hpath with
  | refl p => exact hp
  | epsilon hq _ ih => exact ih (h.lt_of_mem_epsilons hq)
  | read hq _ ih => exact ih (h.lt_of_mem_onChar hq)

/-- No word leads to the new state, so it does not matter whether it accepts. -/
theorem WellFormed.language_addState (h : a.WellFormed) (accepting : Bool) :
    (a.addState accepting).2.language = a.language := by
  have hforth : (a.addState accepting).2.Simulates a :=
    ⟨rfl, fun p q hq => .single (by rwa [epsilons_addState]),
      fun p c q hq => by rwa [onChar_addState]⟩
  have hback : a.Simulates (a.addState accepting).2 :=
    ⟨rfl, fun p q hq => .single (by rwa [epsilons_addState] at hq),
      fun p c q hq => by rwa [onChar_addState] at hq⟩
  have hsame {q : StateId} (hq : q < a.size) :
      (a.addState accepting).2.accepts q = a.accepts q := by
    rw [accepts, state?_addState, if_neg (Nat.ne_of_lt hq)]
    rfl
  refine le_antisymm (hback.language_le ?_) (hforth.language_le ?_)
  · intro w q hpath hacc
    have hq : q < a.size := h.lt_of_path (hback.path hpath) h.entry_lt
    rwa [← hsame hq]
  · intro w q _ hacc
    rwa [hsame (lt_size_of_accepts hacc)]

end Automaton

/-! ## The calls -/

namespace InPlace

open Automaton

variable {a b : Automaton} {call : InPlace Unit} {result : Except BuildError Automaton}
  {src dest value : Nat} {Refused : Prop} {Change : State → State → Prop}

/-- A call is refused under a condition, and the automaton is left as it was.
Otherwise it changes one state, and no text is lost to either engine. The result
says the same without changing anything. -/
structure Wires (a : Automaton) (call : InPlace Unit) (result : Except BuildError Automaton)
    (Refused : Prop) (src : StateId) (Change : State → State → Prop) : Prop where
  of_refused : Refused → ∃ fault, result = .error (.invalidArgument fault) ∧
    call.on a = (.error (.invalidArgument fault), a)
  of_not_refused : ¬ Refused → ∃ b, result = .ok b ∧ call.on a = (.ok (), b) ∧
    a.Rewired b src Change ∧
    ∀ (before after : Engine) (input : String),
      before.accepts a input = true → after.accepts b input = true

theorem Wires.congr {other : InPlace Unit} (hcall : call.on a = other.on a)
    (h : Wires a other result Refused src Change) : Wires a call result Refused src Change := by
  constructor
  · rw [hcall]
    exact h.of_refused
  · rw [hcall]
    exact h.of_not_refused

/-! ### Steps in place -/

section Steps

variable {α β : Type} {x : InPlace α} {g : α → InPlace β} {r : α} {e : BuildError}

theorem on_bind_ok (h : x.on a = (.ok r, b)) : (x >>= g).on a = (g r).on b := by
  simp only [on, ExceptT.run_bind, StateT.run_bind] at h ⊢
  rw [h]
  rfl

theorem on_bind_error (h : x.on a = (.error e, b)) : (x >>= g).on a = (.error e, b) := by
  simp only [on, ExceptT.run_bind, StateT.run_bind] at h ⊢
  rw [h]
  rfl

theorem on_requireState (a : Automaton) (id : StateId) :
    (requireState id).on a = (a.checkState id, a) := by
  rw [requireState, checkState]
  rfl

end Steps

/-! ### What the calls come to -/

theorem on_addState (a : Automaton) (accepting : Bool) :
    (addState accepting).on a = (.ok a.size, (a.addState accepting).2) := rfl

/-- Both calls that add an edge end this way: the destination is looked at, and
then the state that the edge leaves, which is changed. -/
theorem wires_change (a : Automaton) (src dest : StateId) {f : State → State}
    (hf : ∀ s, Change s (f s)) (hgrows : ∀ s t, Change s t → s.Grows t) :
    Wires a (do requireState dest; change src f)
      (do a.checkState dest; a.checkState src; return { a with states := a.states.modify src f })
      (a.size ≤ dest ∨ a.size ≤ src) src Change := by
  have hpass {id : StateId} (hid : id < a.size) : a.checkState id = .ok () := if_pos hid
  have hstop {id : StateId} (hid : a.size ≤ id) :
      a.checkState id = .error (.invalidArgument (.unknownState id a.size)) :=
    if_neg (Nat.not_lt.2 hid)
  have hgo {id : StateId} (hid : id < a.size) : (requireState id).on a = (.ok (), a) := by
    rw [on_requireState, hpass hid]
  have hend {id : StateId} (hid : a.size ≤ id) :
      (requireState id).on a = (.error (.invalidArgument (.unknownState id a.size)), a) := by
    rw [on_requireState, hstop hid]
  constructor
  · intro hrefused
    by_cases hdest : a.size ≤ dest
    · refine ⟨.unknownState dest a.size, ?_, on_bind_error (hend hdest)⟩
      rw [hstop hdest]
      rfl
    · have hsrc : a.size ≤ src := hrefused.resolve_left hdest
      have hdest : dest < a.size := Nat.lt_of_not_le hdest
      refine ⟨.unknownState src a.size, ?_, ?_⟩
      · rw [hpass hdest, hstop hsrc]
        rfl
      · rw [on_bind_ok (hgo hdest)]
        exact on_bind_error (hend hsrc)
  · intro haccepted
    have hdest : dest < a.size := Nat.lt_of_not_le fun h => haccepted (.inl h)
    have hsrc : src < a.size := Nat.lt_of_not_le fun h => haccepted (.inr h)
    have hrewired := a.rewired_modify hsrc hf
    refine ⟨_, ?_, ?_, hrewired, (hrewired.mono hgrows).accepts_of_accepts⟩
    · rw [hpass hdest, hpass hsrc]
      rfl
    · rw [on_bind_ok (hgo hdest)]
      show (requireState src >>= _).on a = _
      rw [on_bind_ok (hgo hsrc)]
      rfl

theorem wires_addSymbol (a : Automaton) (src value dest : Nat) :
    Wires a (addSymbol src value dest) (a.addSymbol src value dest)
      (255 < value ∨ a.size ≤ dest ∨ a.size ≤ src) src
      fun s t => ∃ symbol : Symbol, symbol.toNat = value ∧ State.GainsEdge symbol dest s t := by
  cases hsymbol : Symbol.ofNat? value with
  | none =>
      have hlarge : 255 < value := Symbol.ofNat?_eq_none_iff.1 hsymbol
      refine ⟨fun _ => ⟨.symbolOutOfRange value, ?_, ?_⟩, fun h => absurd (.inl hlarge) h⟩
      · rw [Automaton.addSymbol, hsymbol]
      · refine on_bind_error ?_
        rw [requireSymbol, hsymbol]
        rfl
  | some symbol =>
      have hvalue : symbol.toNat = value := Symbol.ofNat?_eq_some_iff.1 hsymbol
      have hsmall : ¬ 255 < value := by
        have := symbol.toNat_lt
        omega
      have hcall : (addSymbol src value dest).on a =
          (do requireState dest; change src (·.addEdge symbol dest) : InPlace Unit).on a := by
        refine on_bind_ok ?_
        rw [requireSymbol, hsymbol]
        rfl
      rw [or_iff_right hsmall, Automaton.addSymbol, hsymbol]
      refine Wires.congr hcall (wires_change a src dest (fun s => ?_) fun s t hgains => ?_)
      · exact ⟨symbol, hvalue, s.gainsEdge symbol dest⟩
      · obtain ⟨_, -, hgains⟩ := hgains
        exact hgains.grows

theorem wires_addEpsilon (a : Automaton) (src dest : StateId) :
    Wires a (addEpsilon src dest) (a.addEpsilon src dest) (a.size ≤ dest ∨ a.size ≤ src) src
      (State.GainsEpsilon dest) :=
  wires_change a src dest (fun s => s.gainsEpsilon dest) fun _ _ => State.GainsEpsilon.grows

/-! ### Many calls -/

variable {before after : Engine} {input : String}

theorem Wires.left_eq (h : Wires a call result Refused src Change) :
    (call.on a).2 = a ∨ result = .ok (call.on a).2 := by
  by_cases hrefused : Refused
  · obtain ⟨fault, -, hcall⟩ := h.of_refused hrefused
    exact .inl (by rw [hcall])
  · obtain ⟨b, hresult, hcall, -⟩ := h.of_not_refused hrefused
    exact .inr (by rw [hcall, hresult])

theorem Wires.accepts_left (h : Wires a call result Refused src Change)
    (hinput : before.accepts a input = true) : after.accepts (call.on a).2 input = true := by
  by_cases hrefused : Refused
  · obtain ⟨fault, -, hcall⟩ := h.of_refused hrefused
    rw [hcall]
    rwa [Engine.accepts_iff] at hinput ⊢
  · obtain ⟨b, -, hcall, -, hkept⟩ := h.of_not_refused hrefused
    rw [hcall]
    exact hkept before after input hinput

theorem Call.obtainable_leaves (h : a.Obtainable) (call : Call) :
    (Call.leaves a call).Obtainable := by
  cases call with
  | addState accepting => exact .addState accepting rfl h
  | addSymbol src value dest =>
      rcases (wires_addSymbol a src value dest).left_eq with hleft | hresult
      · show ((InPlace.addSymbol src value dest).on a).2.Obtainable
        rwa [hleft]
      · exact .addSymbol rfl h hresult
  | addEpsilon src dest =>
      rcases (wires_addEpsilon a src dest).left_eq with hleft | hresult
      · show ((InPlace.addEpsilon src dest).on a).2.Obtainable
        rwa [hleft]
      · exact .addEpsilon rfl h hresult

theorem Call.accepts_leaves (h : a.Obtainable) (call : Call)
    (hinput : before.accepts a input = true) : after.accepts (Call.leaves a call) input = true := by
  cases call with
  | addState accepting =>
      rw [Engine.accepts_iff] at hinput ⊢
      show input.toList ∈ (a.addState accepting).2.language
      rwa [h.wellFormed.language_addState]
  | addSymbol src value dest => exact (wires_addSymbol a src value dest).accepts_left hinput
  | addEpsilon src dest => exact (wires_addEpsilon a src dest).accepts_left hinput

theorem Call.accepts_foldl_leaves (h : a.Obtainable) (calls : List Call)
    (hinput : before.accepts a input = true) :
    after.accepts (calls.foldl Call.leaves a) input = true := by
  induction calls generalizing a before with
  | nil => rwa [Engine.accepts_iff] at hinput ⊢
  | cons call rest ih =>
      rw [List.foldl_cons]
      have hkept : before.accepts (Call.leaves a call) input = true :=
        Call.accepts_leaves h call hinput
      exact ih (Call.obtainable_leaves h call) hkept

end InPlace

open InPlace

/-- What wiring by hand does to an automaton, however it was obtained. A new state
gets the next number and changes no answer. A call that adds an edge fails exactly
if its value is no symbol or one of its states is not there, and then the automaton
is as it was; otherwise one state has one destination more, all else is the same,
and what one of the engines accepted before, each of them accepts now. The same
goes for any number of calls in a row, failed ones among them. -/
theorem Automaton.Obtainable.wiring_keeps_texts {a : Automaton} (h : a.Obtainable) :
    (∀ accepting : Bool,
      (InPlace.addState accepting).on a = (.ok a.size, (a.addState accepting).2) ∧
      ∀ (engine : Engine) (input : String),
        engine.accepts (a.addState accepting).2 input = engine.accepts a input) ∧
    (∀ src value dest : Nat,
      Wires a (InPlace.addSymbol src value dest) (a.addSymbol src value dest)
        (255 < value ∨ a.size ≤ dest ∨ a.size ≤ src) src
        fun s t => ∃ symbol : Symbol, symbol.toNat = value ∧ State.GainsEdge symbol dest s t) ∧
    (∀ src dest : StateId,
      Wires a (InPlace.addEpsilon src dest) (a.addEpsilon src dest)
        (a.size ≤ dest ∨ a.size ≤ src) src (State.GainsEpsilon dest)) ∧
    ∀ (calls : List Call) (before after : Engine) (input : String),
      before.accepts a input = true → after.accepts (calls.foldl Call.leaves a) input = true := by
  refine ⟨fun accepting => ⟨on_addState a accepting, fun engine input => ?_⟩,
    wires_addSymbol a, wires_addEpsilon a, fun calls _ _ _ => Call.accepts_foldl_leaves h calls⟩
  rw [Bool.eq_iff_iff, Engine.accepts_iff, Engine.accepts_iff,
    h.wellFormed.language_addState accepting]

/-- A loop through the exit, a value above 255, and a row of calls of which one
fails. -/
theorem Automaton.Obtainable.wiring_keeps_texts_looped :
    (ofSymbol 97).Obtainable ∧
    (∃ b, (ofSymbol 97).addEpsilon 1 0 = .ok b ∧ Engine.stateSets.accepts b "a" = true) ∧
    (∃ fault, (InPlace.addSymbol 0 256 1).on (ofSymbol 97) =
      (.error (.invalidArgument fault), ofSymbol 97)) ∧
    Engine.stateSets.accepts
      ([Call.addEpsilon 1 0, .addSymbol 0 97 5, .addState true].foldl Call.leaves
        (ofSymbol 97)) "a" = true := by
  have hmade : (ofSymbol 97).Obtainable := .ofSymbol 97
  have haccepted : Engine.depthFirst.accepts (ofSymbol 97) "a" = true :=
    Engine.depthFirst.accepts_iff.2 ⟨1, .read (q := 1) (by decide) (.refl 1), by decide⟩
  obtain ⟨-, hsymbol, hepsilon, hcalls⟩ := wiring_keeps_texts hmade
  obtain ⟨b, hb, -, -, hkept⟩ := (hepsilon 1 0).of_not_refused (by decide)
  obtain ⟨fault, -, hfault⟩ := (hsymbol 0 256 1).of_refused (by decide)
  exact ⟨hmade, ⟨b, hb, hkept _ _ "a" haccepted⟩, ⟨fault, hfault⟩,
    hcalls _ _ _ "a" haccepted⟩

end PatternAutomata
