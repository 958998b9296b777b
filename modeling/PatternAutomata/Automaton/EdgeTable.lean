import PatternAutomata.Symbol

/-!
# Edge tables

The edges that leave one state, grouped by the symbol they read. A table is a
list with ascending symbols, and the destinations of a symbol stand in the
order in which they were added, with repetitions. So two tables are equal
exactly when they were filled alike, and `on_insert` says what filling does.
-/

namespace PatternAutomata

/-- The number of a state within its automaton. -/
abbrev StateId := Nat

/-- The destinations of the edges out of one state, by symbol. -/
structure EdgeTable where
  entries : List (Symbol × List StateId)
  ascending : entries.Pairwise fun a b => a.1 < b.1
deriving DecidableEq

namespace EdgeTable

@[ext] theorem ext {t u : EdgeTable} (h : t.entries = u.entries) : t = u := by
  cases t
  cases u
  cases h
  rfl

def empty : EdgeTable := ⟨[], .nil⟩

/-- The destinations on a symbol, in the order in which they were added. -/
def on (t : EdgeTable) (s : Symbol) : List StateId :=
  (t.entries.lookup s).getD []

/-- Adds a destination behind the others of its symbol, in a list of entries
with ascending symbols. -/
def insertEntry (s : Symbol) (dest : StateId) :
    List (Symbol × List StateId) → List (Symbol × List StateId)
  | [] => [(s, [dest])]
  | e :: rest =>
      if s < e.1 then (s, [dest]) :: e :: rest
      else if s = e.1 then (s, e.2 ++ [dest]) :: rest
      else e :: insertEntry s dest rest

theorem symbol_of_mem_insertEntry {s : Symbol} {dest : StateId}
    {es : List (Symbol × List StateId)} {x : Symbol × List StateId}
    (h : x ∈ insertEntry s dest es) : x.1 = s ∨ ∃ e ∈ es, e.1 = x.1 := by
  induction es with
  | nil => simp_all [insertEntry]
  | cons e rest ih =>
      rw [insertEntry] at h
      split at h
      · grind
      · split at h
        · grind
        · grind

theorem insertEntry_ascending {s : Symbol} {dest : StateId}
    {es : List (Symbol × List StateId)} (h : es.Pairwise fun a b => a.1 < b.1) :
    (insertEntry s dest es).Pairwise fun a b => a.1 < b.1 := by
  induction es with
  | nil => simp [insertEntry]
  | cons e rest ih =>
      rw [List.pairwise_cons] at h
      rw [insertEntry]
      split
      · rename_i hlt
        refine .cons (fun x hx => ?_) (.cons h.1 h.2)
        rcases List.mem_cons.1 hx with rfl | hx
        · exact hlt
        · exact UInt8.lt_trans hlt (h.1 x hx)
      · split
        · rename_i heq
          exact .cons (fun x hx => heq ▸ h.1 x hx) h.2
        · rename_i hge hne
          refine .cons (fun x hx => ?_) (ih h.2)
          rcases symbol_of_mem_insertEntry hx with hs | ⟨y, hy, hxy⟩
          · rw [hs]
            exact UInt8.lt_of_le_of_ne (UInt8.not_lt.1 hge) (Ne.symm hne)
          · exact hxy ▸ h.1 y hy

/-- Adds an edge: the destination goes behind those its symbol already has. -/
def insert (t : EdgeTable) (s : Symbol) (dest : StateId) : EdgeTable :=
  ⟨insertEntry s dest t.entries, insertEntry_ascending t.ascending⟩

def single (s : Symbol) (dest : StateId) : EdgeTable :=
  empty.insert s dest

def map (f : StateId → StateId) (t : EdgeTable) : EdgeTable where
  entries := t.entries.map fun e => (e.1, e.2.map f)
  ascending := List.pairwise_map.2 t.ascending

@[simp] theorem on_empty (s : Symbol) : empty.on s = [] := rfl

theorem lookup_cons_eq_ite (s u : Symbol) (dests : List StateId)
    (rest : List (Symbol × List StateId)) :
    ((s, dests) :: rest).lookup u = if u = s then some dests else rest.lookup u := by
  by_cases h : u = s
  · simp [h]
  · rw [List.lookup_cons, beq_false_of_ne h, if_neg h]

theorem lookup_eq_none_of_lt {s : Symbol} {es : List (Symbol × List StateId)}
    (h : ∀ e ∈ es, s < e.1) : es.lookup s = none := by
  induction es with
  | nil => rfl
  | cons e rest ih =>
      rw [lookup_cons_eq_ite, if_neg (UInt8.ne_of_lt (h e List.mem_cons_self))]
      exact ih fun x hx => h x (List.mem_cons_of_mem _ hx)

theorem lookup_insertEntry {s u : Symbol} {dest : StateId}
    {es : List (Symbol × List StateId)} (h : es.Pairwise fun a b => a.1 < b.1) :
    (insertEntry s dest es).lookup u =
      if u = s then some ((es.lookup u).getD [] ++ [dest]) else es.lookup u := by
  induction es with
  | nil => by_cases hu : u = s <;> simp [insertEntry, lookup_cons_eq_ite, hu]
  | cons e rest ih =>
      obtain ⟨v, dests⟩ := e
      rw [List.pairwise_cons] at h
      rw [insertEntry]
      split
      · rename_i hlt
        have hnone : ((v, dests) :: rest).lookup s = none := by
          refine lookup_eq_none_of_lt fun x hx => ?_
          rcases List.mem_cons.1 hx with rfl | hx
          · exact hlt
          · exact UInt8.lt_trans hlt (h.1 x hx)
        rw [lookup_cons_eq_ite]
        by_cases hu : u = s
        · subst hu
          simp [hnone]
        · simp [hu]
      · split
        · rename_i heq
          subst heq
          by_cases hu : u = s <;> simp [lookup_cons_eq_ite, hu]
        · rename_i hne
          by_cases hu : u = v
          · subst hu
            simp [Ne.symm hne]
          · simp [lookup_cons_eq_ite, hu, ih h.2]

theorem lookup_insert (t : EdgeTable) (s u : Symbol) (dest : StateId) :
    (t.insert s dest).entries.lookup u =
      if u = s then some (t.on u ++ [dest]) else t.entries.lookup u :=
  lookup_insertEntry t.ascending

@[simp] theorem on_insert (t : EdgeTable) (s u : Symbol) (dest : StateId) :
    (t.insert s dest).on u = if u = s then t.on u ++ [dest] else t.on u := by
  rw [on, lookup_insert]
  split <;> rfl

@[simp] theorem on_single (s u : Symbol) (dest : StateId) :
    (single s dest).on u = if u = s then [dest] else [] := by
  simp [single]

@[simp] theorem on_map (f : StateId → StateId) (t : EdgeTable) (s : Symbol) :
    (t.map f).on s = (t.on s).map f := by
  obtain ⟨es, h⟩ := t
  simp only [on, map]
  clear h
  induction es with
  | nil => rfl
  | cons e rest ih =>
      obtain ⟨v, dests⟩ := e
      by_cases hs : s = v <;> simp [lookup_cons_eq_ite, hs, ih]

/-- The destinations of all edges, once for each edge. -/
def targets (t : EdgeTable) : List StateId :=
  t.entries.flatMap (·.2)

theorem length_on_le (t : EdgeTable) (s : Symbol) : (t.on s).length ≤ t.targets.length := by
  obtain ⟨es, h⟩ := t
  simp only [on, targets]
  clear h
  induction es with
  | nil => simp
  | cons e rest ih =>
      obtain ⟨v, dests⟩ := e
      rw [lookup_cons_eq_ite, List.flatMap_cons, List.length_append]
      split
      · simp
      · omega

theorem exists_mem_entries_of_mem_on {t : EdgeTable} {s : Symbol} {dest : StateId}
    (h : dest ∈ t.on s) : ∃ e ∈ t.entries, dest ∈ e.2 := by
  rw [on] at h
  cases hl : t.entries.lookup s with
  | none => simp [hl] at h
  | some dests =>
      obtain ⟨es, fs, heq, -⟩ := List.lookup_eq_some_iff.1 hl
      refine ⟨(s, dests), ?_, by simpa [hl] using h⟩
      rw [heq]
      exact List.mem_append_right _ List.mem_cons_self

theorem map_map (f g : StateId → StateId) (t : EdgeTable) :
    (t.map f).map g = t.map (g ∘ f) := by
  ext1
  simp [map]

end EdgeTable

end PatternAutomata
