import PatternAutomata.Automaton.Dump
import PatternAutomata.Proofs.Legibility

/-!
# A dump tells everything

Automata with the same dump are the same automaton, however many states they have
and whatever their edges read (`dump_eq_iff`).

The text is taken apart seam by seam, from the parts of a line up to the states.
What a line is about is told by the first character of it that is not a blank
(`lead`): a mark for the edges on a symbol, `ε` for the epsilon edges, and a digit
for the next state. That is why it does no harm when a number outgrows its column,
and why a symbol that is itself a blank, a mark or a line end can be shown.
-/

namespace PatternAutomata

open Text

namespace Dump

variable {α : Type}

/-! ## The beginning of a line -/

/-- What there is from the first character on that is not a blank. -/
def unindented (cs : List Char) : List Char :=
  cs.dropWhile (· = ' ')

def lead (cs : List Char) : Option Char :=
  (unindented cs).head?

theorem unindented_blanks (k : Nat) (cs : List Char) :
    unindented (List.replicate k ' ' ++ cs) = unindented cs := by
  refine List.dropWhile_append_of_pos fun c hc => ?_
  simpa using (List.mem_replicate.1 hc).2

theorem unindented_cons {c : Char} (h : c ≠ ' ') (cs : List Char) :
    unindented (c :: cs) = c :: cs := by
  simp [unindented, h]

/-! ## Destinations -/

theorem toList_toString (n : Nat) : (toString n).toList = Nat.toDigits 10 n := by
  rw [Nat.toString_eq_repr, Nat.toList_repr]

theorem exists_digit (n : Nat) : ∃ c cs, Nat.toDigits 10 n = c :: cs ∧ c.isDigit = true := by
  obtain ⟨c, cs, hcs⟩ := List.exists_cons_of_ne_nil (Nat.toDigits_ne_nil (n := n) (b := 10))
  have hc : c ∈ Nat.toDigits 10 n := hcs ▸ List.mem_cons_self
  exact ⟨c, cs, hcs, Nat.isDigit_of_mem_toDigits (by omega) (by omega) hc⟩

/-- A destination behind another one. -/
def further (dest : StateId) : List Char :=
  [',', ' '] ++ Nat.toDigits 10 dest

theorem intercalate_cons_eq_flatMap (separator x : List Char) (xs : List (List Char)) :
    separator.intercalate (x :: xs) = x ++ xs.flatMap (separator ++ ·) := by
  induction xs generalizing x with
  | nil => simp
  | cons y ys ih =>
      rw [List.intercalate_cons_cons, ih y, List.flatMap_cons, List.append_assoc, List.append_assoc]

theorem toList_ids_cons (dest : StateId) (dests : List StateId) :
    (ids (dest :: dests)).toList =
      ['['] ++ (Nat.toDigits 10 dest ++ (dests.flatMap further ++ [']'])) := by
  have hdigits : String.toList ∘ toString = Nat.toDigits 10 := funext toList_toString
  rw [ids, String.toList_append, String.toList_append, String.toList_intercalate, List.map_map,
    hdigits, List.map_cons, intercalate_cons_eq_flatMap, List.flatMap_map, List.append_assoc,
    List.append_assoc]
  rfl

theorem legible_further :
    Legible (fun dests : List StateId => dests.flatMap further ++ [']']) Anything := by
  have hmany : Legible (fun dests : List StateId => dests.flatMap further) _ :=
    (legible_decimal.append_left [',', ' ']).flatMap (fun r => r.head? = some ',')
      (fun _ _ => by simp) (fun _ _ => rfl)
  exact hmany.append_right _ fun r _ => by simp

theorem toList_ids_nil_ne (dest : StateId) (dests : List StateId) (r s : List Char) :
    (ids []).toList ++ r ≠ (ids (dest :: dests)).toList ++ s := by
  obtain ⟨c, cs, hcs, hc⟩ := exists_digit dest
  rw [toList_ids_cons, hcs]
  intro heq
  have hbracket : ']' = c := (List.cons.inj (List.cons.inj heq).2).1
  exact absurd (hbracket ▸ hc) (by decide)

theorem legible_ids : Legible (fun dests => (ids dests).toList) Anything := by
  have hcons := (legible_decimal.append legible_further fun dests r _ => by
    cases dests <;> simp [further]).append_left ['[']
  intro dests dests' r s hr hs heq
  cases dests with
  | nil =>
      cases dests' with
      | nil => exact ⟨rfl, List.append_cancel_left heq⟩
      | cons dest dests' => exact absurd heq (toList_ids_nil_ne dest dests' r s)
  | cons dest dests =>
      cases dests' with
      | nil => exact absurd heq.symm (toList_ids_nil_ne dest dests s r)
      | cons dest' dests' =>
          dsimp only at heq
          rw [toList_ids_cons, toList_ids_cons] at heq
          obtain ⟨hdests, hrs⟩ := hcons (x := (dest, dests)) (y := (dest', dests')) hr hs heq
          exact ⟨congrArg (fun x => x.1 :: x.2) hdests, hrs⟩

/-! ## Edges -/

theorem toList_edgeLine (label : String) (dests : List StateId) :
    (edgeLine label dests).toList =
      List.replicate 7 ' ' ++ (label.toList ++ ([' ', '-', '>', ' '] ++
        ((ids dests).toList ++ ['\n']))) := by
  simp [edgeLine]

theorem lead_edgeLine {label : String} {c : Char} {cs : List Char} (hlabel : label.toList = c :: cs)
    (hc : c ≠ ' ') (dests : List StateId) (r : List Char) :
    lead ((edgeLine label dests).toList ++ r) = some c := by
  rw [lead, toList_edgeLine, List.append_assoc, unindented_blanks, hlabel]
  exact congrArg List.head? (unindented_cons hc _)

theorem legible_edgeLine {label : α → String} (h : Legible (fun x => (label x).toList) Anything) :
    Legible (fun e : α × List StateId => (edgeLine (label e.1) e.2).toList) Anything := by
  simp only [toList_edgeLine]
  have hdests : Legible (fun dests => [' ', '-', '>', ' '] ++ ((ids dests).toList ++ ['\n']))
      Anything := (legible_ids.append_right _ fun _ _ => trivial).append_left _
  exact (h.append hdests fun _ _ _ => trivial).append_left _

/-- The lines of the edges on symbols. -/
def symbolLines (edges : EdgeTable) : List Char :=
  edges.entries.flatMap fun e => (edgeLine (Quoted.char (Symbol.toChar e.1)) e.2).toList

/-- The line of the epsilon edges, which is left out where there are none. -/
def epsilonLine (dests : List StateId) : List Char :=
  (if dests.isEmpty then [] else [dests]).flatMap fun dests => (edgeLine "ε" dests).toList

theorem legible_symbolLines : Legible symbolLines fun r => lead r ≠ some '\x27' := by
  have hsymbol : Legible (fun symbol => (Quoted.char (Symbol.toChar symbol)).toList) Anything :=
    Quoted.legible_char.comp fun _ _ => Symbol.toChar_inj
  have hlines := (legible_edgeLine hsymbol).flatMap (lead · = some '\x27') (fun _ _ => trivial)
    fun e r => lead_edgeLine (Quoted.toList_char _) (by decide) e.2 r
  have hedges : Legible symbolLines _ :=
    hlines.comp (p := EdgeTable.entries) fun _ _ => EdgeTable.ext
  exact hedges.mono fun _ hr => ⟨trivial, hr⟩

theorem toList_epsilon : "ε".toList = ['ε'] := rfl

theorem lead_epsilonLine (dest : StateId) (dests : List StateId) (r : List Char) :
    lead (epsilonLine (dest :: dests) ++ r) = some 'ε' := by
  have hline : epsilonLine (dest :: dests) = (edgeLine "ε" (dest :: dests)).toList := by
    simp [epsilonLine]
  rw [hline]
  exact lead_edgeLine toList_epsilon (by decide) _ _

theorem legible_epsilonLine : Legible epsilonLine fun r => lead r ≠ some 'ε' := by
  have hlabel : Legible (fun _ : Unit => "ε".toList) Anything := .fixed _
  have hline : Legible (fun dests => (edgeLine "ε" dests).toList) Anything :=
    (legible_edgeLine hlabel).comp (p := fun dests => ((), dests)) fun _ _ h => (Prod.mk.inj h).2
  have hlines := hline.flatMap (lead · = some 'ε') (fun _ _ => trivial)
    (lead_edgeLine toList_epsilon (by decide))
  have hnone : (fun dests : List StateId => if dests.isEmpty then [] else [dests]).Injective := by
    intro dests dests' h
    cases dests <;> cases dests' <;> simp_all
  have hepsilons : Legible epsilonLine _ := hlines.comp hnone
  exact hepsilons.mono fun _ hr => ⟨trivial, hr⟩

/-! ## States -/

/-- The blanks of the column are the only thing before the number, however long
it is. -/
theorem unindented_column (id : StateId) (r : List Char) :
    unindented ((column id).toList ++ r) = Nat.toDigits 10 id ++ r := by
  obtain ⟨c, cs, hcs, hc⟩ := exists_digit id
  have hblank : c ≠ ' ' := by
    rintro rfl
    exact absurd hc (by decide)
  rw [column, String.toList_append, String.toList_ofList, toList_toString, List.append_assoc,
    unindented_blanks, hcs]
  exact unindented_cons hblank _

theorem legible_column :
    Legible (fun id => (column id).toList) fun r => ∀ c ∈ r.head?, c.isDigit = false := by
  intro id id' r s hr hs heq
  have hdigits : Nat.toDigits 10 id ++ r = Nat.toDigits 10 id' ++ s := by
    rw [← unindented_column, ← unindented_column, heq]
  exact legible_decimal hr hs hdigits

/-- What stands behind the number of a state. -/
def mark (accepting : Bool) : List Char :=
  (if accepting then [' ', 'F', 'I', 'N', 'A', 'L'] else []) ++ ['\n']

theorem legible_mark : Legible mark Anything := by
  intro x y r s _ _ heq
  cases x <;> cases y <;> simp_all [mark]

theorem toList_stateLines (id : StateId) (s : State) :
    (stateLines id s).toList =
      [' ', ' '] ++ ((column id).toList ++ (mark s.accepting ++
        (symbolLines s.edges ++ epsilonLine s.epsilons))) := by
  obtain ⟨accepting, edges, epsilons⟩ := s
  cases accepting <;> cases epsilons <;>
    simp [stateLines, mark, symbolLines, epsilonLine, List.flatMap_map]

theorem lead_stateLines (id : StateId) (s : State) (r : List Char) :
    ∃ c, lead ((stateLines id s).toList ++ r) = some c ∧ c.isDigit = true := by
  obtain ⟨c, cs, hcs, hc⟩ := exists_digit id
  refine ⟨c, ?_, hc⟩
  rw [lead, toList_stateLines, List.append_assoc]
  show (unindented (List.replicate 2 ' ' ++ _)).head? = some c
  rw [unindented_blanks, List.append_assoc, unindented_column, hcs]
  rfl

/-- A state ends where the next line is about none of its edges. -/
theorem legible_stateLines :
    Legible (fun x : State × StateId => (stateLines x.2 x.1).toList)
      fun r => lead r ≠ some '\x27' ∧ lead r ≠ some 'ε' := by
  have hedges : Legible (fun x : EdgeTable × List StateId => symbolLines x.1 ++ epsilonLine x.2)
      fun r => lead r ≠ some '\x27' ∧ lead r ≠ some 'ε' := by
    refine legible_symbolLines.append (legible_epsilonLine.mono fun _ hr => hr.2)
      fun dests r hr => ?_
    cases dests with
    | nil => exact hr.1
    | cons dest dests =>
        rw [lead_epsilonLine]
        decide
  have hstate := (legible_column.append (legible_mark.append hedges fun _ _ _ => trivial)
    fun x r _ => by cases x.1 <;> simp [mark]).append_left [' ', ' ']
  simp only [toList_stateLines]
  refine hstate.comp
    (p := fun x : State × StateId => (x.2, x.1.accepting, x.1.edges, x.1.epsilons)) ?_
  rintro ⟨⟨accepting, edges, epsilons⟩, id⟩ ⟨⟨accepting', edges', epsilons'⟩, id'⟩ h
  simp_all

/-! ## The whole text -/

/-- The lines of all states. -/
def allLines (states : Array State) : List Char :=
  states.toList.zipIdx.flatMap fun x => (stateLines x.2 x.1).toList

theorem legible_allLines : Legible allLines (· = []) := by
  have hnext (x : State × StateId) (r : List Char) :
      lead ((stateLines x.2 x.1).toList ++ r) ≠ some '\x27' ∧
        lead ((stateLines x.2 x.1).toList ++ r) ≠ some 'ε' := by
    obtain ⟨c, hlead, hc⟩ := lead_stateLines x.2 x.1 r
    rw [hlead]
    constructor <;> (rintro ⟨rfl⟩; exact absurd hc (by decide))
  have hlines := legible_stateLines.flatMap (fun r => ∃ c, lead r = some c ∧ c.isDigit = true)
    hnext fun x r => lead_stateLines x.2 x.1 r
  have hnumbered : (fun states : Array State => states.toList.zipIdx).Injective := by
    intro states states' h
    have hlist := congrArg (List.map Prod.fst) h
    rw [List.zipIdx_map_fst, List.zipIdx_map_fst] at hlist
    exact Array.toList_inj.1 hlist
  have hall : Legible allLines _ := hlines.comp hnumbered
  refine hall.mono ?_
  rintro r rfl
  simp [lead, unindented]

theorem toList_dump (a : Automaton) :
    a.dump.toList =
      "start: ".toList ++ (Nat.toDigits 10 a.entry ++ ("\nend: ".toList ++
        (Nat.toDigits 10 a.exit ++ ("\nstates:\n".toList ++ allLines a.states)))) := by
  have hparts : a.dump = "start: " ++ toString a.entry ++ "\nend: " ++ toString a.exit ++
      "\nstates:\n" ++ String.join (a.states.toList.mapIdx stateLines) := rfl
  simp only [hparts, allLines, String.toList_append, toList_toString, String.toList_join,
    List.mapIdx_eq_zipIdx_map, List.flatMap_map, List.append_assoc]

theorem legible_dump : Legible (fun a : Automaton => a.dump.toList) (· = []) := by
  have hline {r : List Char} : ∀ c ∈ ('\n' :: r).head?, c.isDigit = false := by simp
  have hexit := legible_decimal.append (legible_allLines.append_left "\nstates:\n".toList)
    fun _ _ _ => hline
  have hentry := legible_decimal.append (hexit.append_left "\nend: ".toList) fun _ _ _ => hline
  simp only [toList_dump]
  refine (hentry.append_left _).comp (p := fun a : Automaton => (a.entry, a.exit, a.states)) ?_
  rintro ⟨states, entry, exit⟩ ⟨states', entry', exit'⟩ h
  simp_all

end Dump

/-- Two automata have the same text only if they have the same entry and exit and
as many states, which accept alike and have the same edges in the same order. -/
theorem Automaton.dump_eq_iff (a b : Automaton) : a.dump = b.dump ↔ a = b := by
  constructor
  · intro h
    exact Dump.legible_dump.injective rfl (congrArg String.toList h)
  · rintro rfl
    rfl

end PatternAutomata
