import PatternAutomata.Proofs.StepwiseOperators
import PatternAutomata.Proofs.WorkspaceRuns

/-!
# Every run step by step

In a run that starts with no automata, no step of an operator is ever
impossible, whatever the commands are and whichever of them fail. What is
stored is obtainable, so it is well formed, and that is all the operators ask
of their operands.

`Completes` says of a computation that all its steps can be done, and what they
come to. It goes through a computation as the computation goes on, so there is
one lemma for each way of going on, and then one for each definition.
-/

namespace PatternAutomata

namespace Stepwise

/-- All the steps can be done, and this is what they come to. -/
def Completes {ε α : Type} (x : Stepwise ε α) (y : Except ε α) : Prop :=
  ExceptT.run x = some y

namespace Completes

variable {ε δ α β : Type}

theorem ok (r : α) : Completes (pure r : Stepwise ε α) (.ok r) := rfl

theorem error (e : ε) : Completes (throw e : Stepwise ε α) (.error e) := rfl

theorem except (y : Except ε α) : Completes (liftM y : Stepwise ε α) y := rfl

theorem option {o : Option α} {r : α} (h : o = some r) :
    Completes (liftM o : Stepwise ε α) (.ok r) := by
  rw [h]
  rfl

theorem bind {x : Stepwise ε α} {y : Except ε α} {f : α → Stepwise ε β} {g : α → Except ε β}
    (h : Completes x y) (hf : ∀ r, y = .ok r → Completes (f r) (g r)) :
    Completes (x >>= f) (y >>= g) := by
  rw [Completes, ExceptT.run_bind, h]
  cases y with
  | error e => rfl
  | ok r => exact hf r rfl

theorem optionBind {o : Option α} {r : α} {f : α → Stepwise ε β} {y : Except ε β} (h : o = some r)
    (hf : Completes (f r) y) : Completes (liftM o >>= f) y := by
  rw [h]
  exact hf

theorem adapt {x : Stepwise ε α} {y : Except ε α} (h : Completes x y) (f : ε → δ) :
    Completes (ExceptT.adapt f x) (y.mapError f) :=
  congrArg (Option.map (Except.mapError f)) h

/-- A loop completes if each of its turns does where the turns before it can
have led. -/
theorem foldlM {f : β → α → Stepwise ε β} {g : β → α → Except ε β} {P : β → Prop} {xs : List α}
    {b : β} (hb : P b) (hstep : ∀ x ∈ xs, ∀ c, P c → Completes (f c x) (g c x))
    (hkept : ∀ x ∈ xs, ∀ c d, P c → g c x = .ok d → P d) :
    Completes (xs.foldlM f b) (xs.foldlM g b) := by
  induction xs generalizing b with
  | nil => exact ok b
  | cons x xs ih =>
      rw [List.foldlM_cons, List.foldlM_cons]
      rw [List.forall_mem_cons] at hstep hkept
      exact (hstep.1 b hb).bind fun c hc => ih (hkept.1 b c hb hc) hstep.2 hkept.2

end Completes

open Automaton

variable {a : Automaton}

/-! ## Wiring by hand

The numbers are looked at before anything is changed, so a state that is to be
changed is there, on any automaton. -/

theorem completes_addSymbol (a : Automaton) (src value dest : Nat) :
    Completes (addSymbol a src value dest) (a.addSymbol src value dest) := by
  rw [addSymbol, Automaton.addSymbol]
  cases Symbol.ofNat? value with
  | none => exact .error _
  | some symbol =>
      refine Completes.bind (.except _) fun _ _ => Completes.bind (.except _) fun _ hsrc => ?_
      exact .option (if_pos (WellFormed.lt_of_checkState hsrc))

theorem completes_addEpsilon (a : Automaton) (src dest : StateId) :
    Completes (addEpsilon a src dest) (a.addEpsilon src dest) := by
  refine Completes.bind (.except _) fun _ _ => Completes.bind (.except _) fun _ hsrc => ?_
  exact .option (if_pos (WellFormed.lt_of_checkState hsrc))

/-! ## Operands -/

/-- What is built is well formed. -/
def BuildsWellFormed (y : Except BuildError Automaton) : Prop :=
  ∀ a, y = .ok a → a.WellFormed

/-- Operands are built and joined to what there is, one after the other. -/
theorem completes_join {α : Type} {xs : List α} {f : α → Stepwise BuildError Automaton}
    {g : α → Except BuildError Automaton} {op : Automaton → Automaton → Option Automaton}
    {join : Automaton → Automaton → Automaton}
    (hop : ∀ {a b}, a.WellFormed → b.WellFormed → op a b = some (join a b))
    (hjoin : ∀ {a b}, a.WellFormed → b.WellFormed → (join a b).WellFormed)
    (hf : ∀ x ∈ xs, Completes (f x) (g x)) (hg : ∀ x ∈ xs, BuildsWellFormed (g x))
    (ha : a.WellFormed) :
    Completes (xs.foldlM (fun a x => do op a (← f x)) a)
      (xs.foldlM (fun a x => return join a (← g x)) a) := by
  refine .foldlM (P := WellFormed) ha (fun x hx c hc => ?_) fun x hx c d hc hd => ?_
  · exact (hf x hx).bind fun b hb => .option (hop hc (hg x hx b hb))
  · obtain ⟨b, hb, heq⟩ := bind_eq_ok.1 hd
    exact pure_eq_ok.1 heq ▸ hjoin hc (hg x hx b hb)

theorem addSymbol_blank (c : Char) :
    blank.addSymbol blank.entry c.toNat blank.exit = Automaton.ofChar c := by
  rw [Automaton.ofChar, Automaton.addSymbol, Symbol.ofChar?]
  cases Symbol.ofNat? c.toNat <;> rfl

theorem completes_ofChar (c : Char) : Completes (ofChar c) (Automaton.ofChar c) := by
  rw [← addSymbol_blank]
  exact completes_addSymbol ..

theorem completes_ofText (s : String) : Completes (ofText s) (Automaton.ofText s) := by
  have hchar (c : Char) : BuildsWellFormed (Automaton.ofChar c) :=
    fun _ => WellFormed.keptByOperators.ofChar
  rw [ofText, Automaton.ofText]
  cases s.toList with
  | nil => exact .option rfl
  | cons c rest =>
      refine (completes_ofChar c).bind fun first hfirst => ?_
      exact completes_join concat_eq .concat (fun c _ => completes_ofChar c) (fun c _ => hchar c)
        (hchar c first hfirst)

theorem completes_build (x : Operand) : Completes (build x) x.build := by
  cases x with
  | automaton a => exact .ok a
  | text s => exact completes_ofText s

theorem completes_concatAll {xs : List Operand} (hxs : ∀ x ∈ xs, x.Holds WellFormed) :
    Completes (concatAll xs) (Automaton.concatAll xs) := by
  refine .optionBind rfl ?_
  exact completes_join concat_eq .concat (fun x _ => completes_build x)
    (fun x hx _ => WellFormed.keptByOperators.build (hxs x hx)) .emptyWord

theorem completes_unionAll {xs : List Operand} (hxs : ∀ x ∈ xs, x.Holds WellFormed) :
    Completes (unionAll xs) (Automaton.unionAll xs) := by
  cases xs with
  | nil => exact .error _
  | cons x rest =>
      rw [List.forall_mem_cons] at hxs
      refine (completes_build x).bind fun first hfirst => ?_
      exact completes_join union_eq .union (fun x _ => completes_build x)
        (fun x hx _ => WellFormed.keptByOperators.build (hxs.2 x hx))
        (WellFormed.keptByOperators.build hxs.1 hfirst)

/-! ## Patterns -/

theorem completes_reduce (x : Lexeme) {stack : List Operand}
    (hstack : ∀ y ∈ stack, y.Holds WellFormed) :
    Completes (reduce x stack) (Evaluation.reduce x stack) := by
  obtain ⟨pos, token⟩ := x
  cases token with
  | symbol c => exact .ok _
  | emptyGroup => exact .optionBind rfl (.ok _)
  | leftParen => exact .ok _
  | rightParen => exact .ok _
  | concat =>
      match stack, hstack with
      | [], _ | [.text _], _ | [.automaton _], _ => exact .error _
      | .text right :: .text left :: below, _ => exact .ok _
      | .automaton right :: left :: below, hstack
      | .text right :: .automaton left :: below, hstack =>
          simp only [List.forall_mem_cons] at hstack
          exact (completes_concatAll (by simpa using ⟨hstack.2.1, hstack.1⟩)).bind fun a _ => .ok _
  | union =>
      match stack, hstack with
      | [], _ | [_], _ => exact .error _
      | right :: left :: below, hstack =>
          simp only [List.forall_mem_cons] at hstack
          exact (completes_unionAll (by simpa using ⟨hstack.2.1, hstack.1⟩)).bind fun a _ => .ok _
  | star =>
      match stack, hstack with
      | [], _ => exact .error _
      | operand :: below, hstack =>
          rw [List.forall_mem_cons] at hstack
          refine (completes_build operand).bind fun a ha => ?_
          exact .optionBind (star_eq (WellFormed.keptByOperators.build hstack.1 ha)) (.ok _)
  | plus =>
      match stack, hstack with
      | [], _ => exact .error _
      | operand :: below, hstack =>
          rw [List.forall_mem_cons] at hstack
          refine (completes_build operand).bind fun a ha => ?_
          exact .optionBind (plus_eq (WellFormed.keptByOperators.build hstack.1 ha)) (.ok _)

variable {limit : SizeLimit}

theorem completes_evaluationStep (x : Lexeme) {stack : List Operand}
    (hstack : ∀ y ∈ stack, y.Holds WellFormed) :
    Completes (evaluationStep limit stack x) (Evaluation.step limit stack x) := by
  refine (completes_reduce x hstack).bind fun r _ => ?_
  cases r with
  | settled later => exact .ok later
  | built a below => exact (Completes.except (limit.enforce a)).bind fun b _ => .ok _

theorem completes_finish (stack : List Operand) :
    Completes (finish limit stack) (Evaluation.finish limit stack) := by
  match stack with
  | [] => exact .option rfl
  | [operand] => exact (completes_build operand).bind fun a _ => .except (limit.enforce a)
  | _ :: _ :: _ => exact .error _

theorem completes_evaluate (xs : List Lexeme) :
    Completes (evaluate limit xs) (Lexeme.evaluate limit xs) := by
  refine Completes.bind ?_ fun stack _ => completes_finish stack
  refine .foldlM (P := fun stack => ∀ y ∈ stack, y.Holds WellFormed) (by simp)
    (fun x _ stack hstack => completes_evaluationStep x hstack) ?_
  intro x _ stack later hstack hstep
  exact WellFormed.keptByOperators.reduced (Evaluation.reduced_of_step hstep) hstack

theorem completes_compile (pattern : String) :
    Completes (compile limit pattern) (Pattern.compile limit pattern) :=
  (Completes.except (Pattern.inReversePolish pattern)).bind fun xs _ => completes_evaluate xs

/-! ## Commands and runs -/

open Workspace

variable {w : Workspace}

theorem completes_make (h : w.Obtainable) (recipe : Recipe) :
    Completes (make w recipe) (w.make recipe) := by
  cases recipe with
  | emptyWord => exact .option rfl
  | symbol s => exact .option rfl
  | char c => exact (completes_ofChar c).adapt _
  | text s => exact (completes_ofText s).adapt _
  | concat first second =>
      refine (Completes.except _).bind fun a ha => (Completes.except _).bind fun b hb => ?_
      exact .option (concat_eq (h.get ha).wellFormed (h.get hb).wellFormed)
  | union first second =>
      refine (Completes.except _).bind fun a ha => (Completes.except _).bind fun b hb => ?_
      exact .option (union_eq (h.get ha).wellFormed (h.get hb).wellFormed)
  | star name =>
      exact (Completes.except _).bind fun a ha => .option (star_eq (h.get ha).wellFormed)
  | plus name =>
      exact (Completes.except _).bind fun a ha => .option (plus_eq (h.get ha).wellFormed)
  | concatAll xs =>
      refine (Completes.except _).bind fun operands hoperands => ?_
      have hmade := h.operands hoperands
      exact (completes_concatAll fun x hx => (hmade x hx).mono Made.wellFormed).adapt _
  | unionAll xs =>
      refine (Completes.except _).bind fun operands hoperands => ?_
      have hmade := h.operands hoperands
      exact (completes_unionAll fun x hx => (hmade x hx).mono Made.wellFormed).adapt _
  | ingredient x => exact (Completes.except _).bind fun y _ => (completes_build y).adapt _
  | copy name => exact .except _
  | pattern p => exact (completes_compile p).adapt _

theorem completes_perform (h : w.Obtainable) (command : Command) :
    Completes (perform w command) (w.perform command) := by
  cases command with
  | make name recipe => exact (completes_make h recipe).bind fun a _ => .ok _
  | setLimit limit => exact .ok _
  | addState name accepting => exact (Completes.except _).bind fun a _ => .ok _
  | addSymbol name src value dest =>
      refine (Completes.except _).bind fun a _ => ?_
      exact ((completes_addSymbol a src value dest).adapt _).bind fun b _ => .ok _
  | addEpsilon name src dest =>
      refine (Completes.except _).bind fun a _ => ?_
      exact ((completes_addEpsilon a src dest).adapt _).bind fun b _ => .ok _

theorem after_eq (h : w.Obtainable) (command : Command) :
    after w command = some (w.after command) := by
  rw [after, completes_perform h command, Workspace.after]
  cases w.perform command <;> rfl

theorem run_eq (h : w.Obtainable) (commands : List Command) :
    run w commands = some (w.run commands) := by
  induction commands generalizing w with
  | nil => rfl
  | cons command rest ih =>
      rw [run, List.foldlM_cons, after_eq h]
      exact ih (h.after command)

end Stepwise

namespace Workspace

/-- Every automaton of every run is well formed, and no step on the way to it
is impossible. -/
theorem wellFormed_of_run (commands : List Command) :
    Stepwise.run {} commands = some (run {} commands) ∧
      (∀ (name : String) (a : Automaton),
        (run {} commands).automata[name]? = some a → a.WellFormed) ∧
      ∀ command answer next, (run {} commands).perform command = .ok (answer, next) →
        ∀ a, answer.automaton? = some a → a.WellFormed := by
  have hempty := Obtainable.empty .standard
  have hrun := hempty.run commands
  refine ⟨Stepwise.run_eq hempty commands, fun name a ha => (hrun name a ha).wellFormed, ?_⟩
  exact fun command answer next hp a ha => ((hrun.perform hp).1 a ha).wellFormed

/-- An edge wired by hand, another one that is refused, and a repetition of
what is there. -/
theorem wellFormed_of_run_wired :
    let commands : List Command :=
      [.make "x" .emptyWord, .addEpsilon "x" 1 0, .addEpsilon "x" 1 2]
    let looped : Automaton := ⟨#[{ epsilons := [1] }, { accepting := true, epsilons := [0] }], 0, 1⟩
    Stepwise.run {} commands = some (run {} commands) ∧
      (∃ next, (run {} commands).perform (.make "y" (.plus "x")) =
        .ok (.made looped.plus, next)) ∧
      looped.plus.WellFormed := by
  intro commands looped
  have h := wellFormed_of_run commands
  have hmade : after {} (.make "x" .emptyWord) = put {} "x" .emptyWord := rfl
  have hwired (w : Workspace) : after (w.put "x" .emptyWord) (.addEpsilon "x" 1 0) =
      (w.put "x" .emptyWord).put "x" looped := by
    rw [after, perform, get_put]
    rfl
  have hrefused (w : Workspace) :
      after (w.put "x" looped) (.addEpsilon "x" 1 2) = w.put "x" looped := by
    rw [after, perform, get_put]
    rfl
  have hrun : run {} commands = (put {} "x" .emptyWord).put "x" looped := by
    rw [run, List.foldl_cons, hmade, List.foldl_cons, hwired, List.foldl_cons, hrefused,
      List.foldl_nil]
  have hp : (run {} commands).perform (.make "y" (.plus "x")) =
      .ok (.made looped.plus, (run {} commands).put "y" looped.plus) := by
    rw [perform, make, hrun, get_put]
    rfl
  exact ⟨h.1, ⟨_, hp⟩, h.2.2 _ _ _ hp _ rfl⟩

end Workspace

end PatternAutomata
