import PatternAutomata.Proofs.Origin
import PatternAutomata.Workspace

/-!
# Where the automata of a workspace come from

A command makes an automaton by the operations that `Made` lists, from
automata that are stored. So if only obtainable automata are stored before it,
it shows and stores obtainable automata only, and what is proved of all
obtainable automata holds in every run that starts without any.
-/

namespace PatternAutomata.Workspace

/-- Every automaton that is stored is obtainable. -/
def Obtainable (w : Workspace) : Prop :=
  ∀ (name : String) (a : Automaton), w.automata[name]? = some a → a.Obtainable

/-- The automaton that an answer shows. -/
def Answer.automaton? : Answer → Option Automaton
  | .made a | .stateAdded _ a | .edgeAdded _ a => some a
  | .limitSet => none

namespace Obtainable

variable {w next : Workspace} {name : String} {a : Automaton}

theorem empty (limit : SizeLimit) : Obtainable { limit } := by
  intro name a h
  simp at h

theorem get (h : w.Obtainable) (ha : w.get name = .ok a) : a.Obtainable := by
  rw [Workspace.get] at ha
  split at ha
  · rename_i b hb
    exact Except.ok.inj ha ▸ h name b hb
  · simp at ha

theorem put (h : w.Obtainable) (ha : a.Obtainable) : (w.put name a).Obtainable := by
  intro other b hb
  rw [Workspace.put, Std.HashMap.getElem?_insert] at hb
  split at hb
  · exact Option.some.inj hb ▸ ha
  · exact h other b hb

theorem operand (h : w.Obtainable) {x : Ingredient} {y : Operand} (hy : w.operand x = .ok y) :
    y.Holds Automaton.Obtainable := by
  cases x with
  | text s => exact Except.ok.inj hy ▸ trivial
  | named name =>
      obtain ⟨a, ha, heq⟩ := bind_eq_ok.1 hy
      exact pure_eq_ok.1 heq ▸ h.get ha

theorem operands (h : w.Obtainable) {xs : List Ingredient} {ys : List Operand}
    (hys : xs.mapM w.operand = .ok ys) : ∀ y ∈ ys, y.Holds Automaton.Obtainable :=
  holds_of_mapM (fun _ _ => h.operand) hys

theorem make (h : w.Obtainable) {recipe : Recipe} (ha : w.make recipe = .ok a) :
    a.Obtainable := by
  cases recipe with
  | emptyWord => exact Except.ok.inj ha ▸ .emptyWord
  | symbol s => exact Except.ok.inj ha ▸ .ofSymbol s
  | char c => exact .ofChar (mapError_eq_ok.1 ha)
  | text s => exact .build (x := .text s) nofun (mapError_eq_ok.1 ha)
  | concat first second =>
      obtain ⟨b, hb, ha⟩ := bind_eq_ok.1 ha
      obtain ⟨c, hc, ha⟩ := bind_eq_ok.1 ha
      exact pure_eq_ok.1 ha ▸ .concat (h.get hb) (h.get hc)
  | union first second =>
      obtain ⟨b, hb, ha⟩ := bind_eq_ok.1 ha
      obtain ⟨c, hc, ha⟩ := bind_eq_ok.1 ha
      exact pure_eq_ok.1 ha ▸ .union (h.get hb) (h.get hc)
  | star name =>
      obtain ⟨b, hb, ha⟩ := bind_eq_ok.1 ha
      exact pure_eq_ok.1 ha ▸ .star (h.get hb)
  | plus name =>
      obtain ⟨b, hb, ha⟩ := bind_eq_ok.1 ha
      exact pure_eq_ok.1 ha ▸ .plus (h.get hb)
  | concatAll xs =>
      obtain ⟨operands, hoperands, ha⟩ := bind_eq_ok.1 ha
      exact .concatAll (fun b hb => h.operands hoperands _ hb) (mapError_eq_ok.1 ha)
  | unionAll xs =>
      obtain ⟨operands, hoperands, ha⟩ := bind_eq_ok.1 ha
      exact .unionAll (fun b hb => h.operands hoperands _ hb) (mapError_eq_ok.1 ha)
  | ingredient x =>
      obtain ⟨y, hy, ha⟩ := bind_eq_ok.1 ha
      have hmade := h.operand hy
      exact .build (fun b hb => by rwa [hb] at hmade) (mapError_eq_ok.1 ha)
  | copy name => exact h.get ha
  | pattern p => exact .compile (mapError_eq_ok.1 ha)

variable {command : Command} {answer : Answer}

theorem perform (h : w.Obtainable) (hp : w.perform command = .ok (answer, next)) :
    (∀ a, answer.automaton? = some a → a.Obtainable) ∧ next.Obtainable := by
  have shown {name : String} {a : Automaton} (ha : a.Obtainable) :
      (∀ b, some a = some b → b.Obtainable) ∧ (w.put name a).Obtainable :=
    ⟨fun b hb => Option.some.inj hb ▸ ha, h.put ha⟩
  cases command with
  | make name recipe =>
      obtain ⟨a, ha, hp⟩ := bind_eq_ok.1 hp
      obtain ⟨rfl, rfl⟩ := Prod.mk.inj (pure_eq_ok.1 hp)
      exact shown (h.make ha)
  | setLimit limit =>
      obtain ⟨rfl, rfl⟩ := Prod.mk.inj (Except.ok.inj hp)
      exact ⟨nofun, h⟩
  | addState name accepting =>
      obtain ⟨a, ha, hp⟩ := bind_eq_ok.1 hp
      obtain ⟨rfl, rfl⟩ := Prod.mk.inj (pure_eq_ok.1 hp)
      exact shown (.addState accepting rfl (h.get ha))
  | addSymbol name src value dest =>
      obtain ⟨a, ha, hp⟩ := bind_eq_ok.1 hp
      obtain ⟨b, hb, hp⟩ := bind_eq_ok.1 hp
      obtain ⟨rfl, rfl⟩ := Prod.mk.inj (pure_eq_ok.1 hp)
      exact shown (.addSymbol rfl (h.get ha) (mapError_eq_ok.1 hb))
  | addEpsilon name src dest =>
      obtain ⟨a, ha, hp⟩ := bind_eq_ok.1 hp
      obtain ⟨b, hb, hp⟩ := bind_eq_ok.1 hp
      obtain ⟨rfl, rfl⟩ := Prod.mk.inj (pure_eq_ok.1 hp)
      exact shown (.addEpsilon rfl (h.get ha) (mapError_eq_ok.1 hb))

theorem after (h : w.Obtainable) (command : Command) : (w.after command).Obtainable := by
  rw [Workspace.after]
  split
  · rename_i hp
    exact (h.perform hp).2
  · exact h

theorem run (h : w.Obtainable) (commands : List Command) : (w.run commands).Obtainable := by
  induction commands generalizing w with
  | nil => exact h
  | cons command rest ih => exact ih (h.after command)

end Obtainable

end PatternAutomata.Workspace
