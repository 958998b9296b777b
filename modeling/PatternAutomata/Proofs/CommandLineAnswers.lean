import PatternAutomata.CommandLine
import PatternAutomata.Proofs.Acceptance
import PatternAutomata.Proofs.SizeLimits

/-!
# The command line answers all or nothing

A run of the program either does what it was asked for, with status 0 and
nothing on the standard error, or it refuses, with status 1, a message there,
and not a byte on the standard output. Which of the two it is depends on the
pattern alone: on its grammar, its characters and the size of its automaton
(`Pattern.Admitted`). The inputs have no part in it, so no answer can be cut
off by a later input.

The first half of the file says which patterns compile under a limit in these
words. The rest carries this, and what the automaton accepts, to the text that
the program writes.
-/

namespace PatternAutomata

/-! ## Which patterns compile under a limit -/

/-- Operators and brackets are all within the range of symbols, so it makes no
difference whether the symbols are looked at or the whole text. -/
theorem Derives.inRange_iff {level : Level} {pos : Nat} {cs : List Char} {t : Tree}
    (h : Derives level pos cs t) : t.InRange ↔ ∀ c ∈ cs, c.toNat ≤ 255 := by
  induction h with
  | symbol _ => simp [Tree.InRange]
  | emptyGroup => simp [Tree.InRange]
  | group _ ih => simp [ih, or_imp, forall_and]
  | atom _ ih => exact ih
  | star _ ih => simp [Tree.InRange, ih, or_imp, forall_and]
  | plus _ ih => simp [Tree.InRange, ih, or_imp, forall_and]
  | repetition _ ih => exact ih
  | concat _ _ ihl ihr => simp [Tree.InRange, ihl, ihr, or_imp, forall_and]
  | sequence _ ih => exact ih
  | union _ _ ihl ihr => simp [Tree.InRange, ihl, ihr, or_imp, forall_and]

namespace Pattern

variable {n : Nat} {pattern : String} {a : Automaton}

/-- The text is a pattern, each of its characters stands for a symbol, and its
automaton has at most `n` states. -/
structure Admitted (n : Nat) (pattern : String) : Prop where
  denotes : ∃ L, Denotes pattern L
  inRange : ∀ c ∈ pattern.toList, c.toNat ≤ 255
  size_le : ∀ a, compile none pattern = .ok a → a.size ≤ n

theorem exists_compile_none_iff :
    (∃ a, compile none pattern = .ok a) ↔
      (∃ L, Denotes pattern L) ∧ ∀ c ∈ pattern.toList, c.toNat ≤ 255 := by
  constructor
  · rintro ⟨a, ha⟩
    rcases exists_derives_of_compile ha with rfl | ⟨t, ht⟩
    · exact ⟨⟨1, .empty⟩, by simp⟩
    · rw [ht.compile_eq] at ha
      exact ⟨⟨_, .tree ht⟩, ht.inRange_iff.1 (t.exists_build_iff.1 ⟨a, ha⟩)⟩
  · rintro ⟨⟨L, hdenotes⟩, hrange⟩
    cases hdenotes with
    | empty => exact ⟨.emptyWord, rfl⟩
    | @tree _ t ht =>
        rw [ht.compile_eq]
        exact t.exists_build_iff.2 (ht.inRange_iff.2 hrange)

/-- What compiles under a limit compiles without one, and to the same automaton. -/
theorem compile_none_of_compile (h : compile (some n) pattern = .ok a) :
    compile none pattern = .ok a := by
  rcases limited_compile n pattern with heq | hrefused
  · exact heq ▸ h
  · simp [hrefused] at h

/-- The empty pattern has two states, which is why the limit has to allow two. -/
theorem exists_compile_iff (hn : 2 ≤ n) :
    (∃ a, compile (some n) pattern = .ok a) ↔ Admitted n pattern := by
  constructor
  · rintro ⟨a, ha⟩
    have hnone := compile_none_of_compile ha
    obtain ⟨hdenotes, hrange⟩ := exists_compile_none_iff.1 ⟨a, hnone⟩
    refine ⟨hdenotes, hrange, fun b hb => ?_⟩
    obtain rfl := Except.ok.inj (hnone.symm.trans hb)
    by_cases hne : pattern = ""
    · subst hne
      obtain rfl := Except.ok.inj ha
      exact hn
    · exact size_le_of_compile ha hne
  · rintro ⟨hdenotes, hrange, hsize⟩
    obtain ⟨a, ha⟩ := exists_compile_none_iff.2 ⟨hdenotes, hrange⟩
    exact ⟨a, compile_of_le ha (hsize a ha)⟩

end Pattern

namespace CommandLine

variable {layout : Layout} {pattern : String} {write : Automaton → String} {L : Language Char}

/-! ## How a run can end -/

def Exit.Succeeds (e : Exit) : Prop :=
  e.code = 0 ∧ e.stderr = ""

def Exit.Refuses (e : Exit) : Prop :=
  e.code = 1 ∧ e.stdout = "" ∧ e.stderr ≠ ""

theorem ne_empty_append {s t : String} (h : s ≠ "") : s ++ t ≠ "" := by
  rw [ne_eq, String.append_eq_empty_iff]
  exact fun hboth => h hboth.1

/-- Whatever the layout, the report begins with a word of its own. -/
theorem refuses_failure (layout : Layout) (messages : List String) :
    (failure layout "" messages).Refuses := by
  refine ⟨rfl, rfl, ne_empty_append (ne_empty_append ?_)⟩
  decide

theorem refuses_usage : Exit.Refuses ⟨1, "", usage⟩ := by
  refine ⟨rfl, rfl, ?_⟩
  exact ne_empty_append (by decide)

theorem compile_eq_ok {a : Automaton} :
    compile pattern = .ok a ↔ Pattern.compile .standard pattern = .ok a := by
  rw [compile]
  cases Pattern.compile .standard pattern <;> simp [Except.mapError]

theorem exists_compile_standard_iff :
    (∃ a, Pattern.compile .standard pattern = .ok a) ↔ Pattern.Admitted (2 ^ 20) pattern :=
  Pattern.exists_compile_iff (by decide)

theorem refuses_withPattern (h : ∀ a, Pattern.compile .standard pattern ≠ .ok a) :
    (withPattern layout pattern write).Refuses := by
  rw [withPattern]
  split
  · exact refuses_failure ..
  · rename_i a ha
    exact absurd (compile_eq_ok.1 ha) (h a)

theorem succeeds_withPattern_iff :
    (withPattern layout pattern write).Succeeds ↔ Pattern.Admitted (2 ^ 20) pattern := by
  rw [← exists_compile_standard_iff]
  constructor
  · intro hsucceeds
    by_contra hnone
    have hrefuses : (withPattern layout pattern write).Refuses :=
      refuses_withPattern fun a ha => hnone ⟨a, ha⟩
    exact hrefuses.2.2 hsucceeds.2
  · rintro ⟨a, ha⟩
    rw [withPattern, compile_eq_ok.2 ha]
    exact ⟨rfl, rfl⟩

/-! ## What is written -/

/-- The text has one line for each input, in their order: the input and whether
it is a word of the language. -/
inductive Answers (L : Language Char) : List String → String → Prop
  | none : Answers L [] ""
  | accepted {input text : String} {inputs : List String} : input.toList ∈ L →
      Answers L inputs text → Answers L (input :: inputs) (input ++ " true\n" ++ text)
  | rejected {input text : String} {inputs : List String} : input.toList ∉ L →
      Answers L inputs text → Answers L (input :: inputs) (input ++ " false\n" ++ text)

theorem verdicts_cons (a : Automaton) (input : String) (inputs : List String) :
    verdicts a (input :: inputs) =
      input ++ (" " ++ toString (DepthFirst.accepts a input) ++ "\n") ++ verdicts a inputs := by
  rw [← String.append_assoc, ← String.append_assoc]
  exact String.join_cons

theorem answers_verdicts {a : Automaton} (ha : a.language = L) (inputs : List String) :
    Answers L inputs (verdicts a inputs) := by
  induction inputs with
  | nil => exact .none
  | cons input inputs ih =>
      have haccepts : DepthFirst.accepts a input = true ↔ input.toList ∈ L :=
        ha ▸ DepthFirst.accepts_iff
      rw [verdicts_cons]
      cases hverdict : DepthFirst.accepts a input with
      | true => exact .accepted (haccepts.1 hverdict) ih
      | false =>
          have hnot : input.toList ∉ L := by
            rw [← haccepts, hverdict]
            exact Bool.false_ne_true
          exact .rejected hnot ih

theorem answers_withPattern (h : Pattern.Admitted (2 ^ 20) pattern) (hL : Denotes pattern L)
    (inputs : List String) :
    Answers L inputs (withPattern layout pattern (verdicts · inputs)).stdout := by
  obtain ⟨a, ha⟩ := exists_compile_standard_iff.2 h
  rw [withPattern, compile_eq_ok.2 ha]
  exact answers_verdicts (hL.recognizes_of_compile ha).language_eq inputs

/-! ## Which arguments are understood -/

/-- The arguments ask for something that is done with the pattern. -/
inductive Asks (pattern : String) : List String → Prop
  | dump : Asks pattern ["dump", pattern]
  | matchAll (input : String) (inputs : List String) :
      Asks pattern ("match" :: pattern :: input :: inputs)

theorem Asks.exists_respond_eq {args : List String} (h : Asks pattern args) (layout : Layout) :
    ∃ write, respond layout args = withPattern layout pattern write := by
  cases h with
  | dump => exact ⟨_, rfl⟩
  | matchAll input inputs => exact ⟨_, rfl⟩

theorem ofArgs_eq_unknown {args : List String} (hpattern : ∀ pattern, ¬ Asks pattern args)
    (hdemo : args ≠ ["demo"]) (hhelp : ∀ flag ∈ ["-h", "--help"], args.head? ≠ some flag) :
    Request.ofArgs args = .unknown := by
  unfold Request.ofArgs
  split
  · exact absurd rfl (hhelp "-h" (by simp))
  · exact absurd rfl (hhelp "--help" (by simp))
  · exact absurd .dump (hpattern _)
  · exact absurd (.matchAll ..) (hpattern _)
  · exact absurd rfl hdemo
  · rfl

/-- Dumping and matching succeed exactly when the pattern is admitted, and
matching then writes one answer for each input, and nothing else. A pattern that
does not compile is refused, and so are arguments that ask for nothing the
program knows. All this holds however reports on failures are laid out. -/
theorem run_all_or_nothing (layout : Layout) (pattern : String) :
    (∀ args, Asks pattern args →
      ((respond layout args).Succeeds ↔ Pattern.Admitted (2 ^ 20) pattern) ∧
      ((∀ a, Pattern.compile .standard pattern ≠ .ok a) → (respond layout args).Refuses)) ∧
    (Pattern.Admitted (2 ^ 20) pattern → ∀ L, Denotes pattern L → ∀ input inputs,
      Answers L (input :: inputs)
        (respond layout ("match" :: pattern :: input :: inputs)).stdout) ∧
    ∀ args, (∀ p, ¬ Asks p args) → args ≠ ["demo"] →
      (∀ flag ∈ ["-h", "--help"], args.head? ≠ some flag) → (respond layout args).Refuses := by
  refine ⟨fun args hasks => ?_, fun hadmitted L hL input inputs => ?_,
    fun args hpattern hdemo hhelp => ?_⟩
  · obtain ⟨write, hrespond⟩ := hasks.exists_respond_eq layout
    rw [hrespond]
    exact ⟨succeeds_withPattern_iff, refuses_withPattern⟩
  · exact answers_withPattern hadmitted hL (input :: inputs)
  · rw [respond, ofArgs_eq_unknown hpattern hdemo hhelp]
    exact refuses_usage

/-- With the program's own layout: inputs on either side of the language, a pattern
that is never closed, and a pattern without inputs. -/
theorem run_all_or_nothing_mixed :
    Denotes "(a|b)" ({['a']} + {['b']}) ∧ Pattern.Admitted (2 ^ 20) "(a|b)" ∧
      (run ["match", "(a|b)", "b", "a b"]).Succeeds ∧
      Answers ({['a']} + {['b']}) ["b", "a b"] (run ["match", "(a|b)", "b", "a b"]).stdout ∧
      (∀ a, Pattern.compile .standard "(a" ≠ .ok a) ∧ (run ["dump", "(a"]).Refuses ∧
      (run ["match", "(a|b)"]).Refuses := by
  have hunion : Derives .alternatives 1 (['a'] ++ '|' :: ['b'])
      (.union 2 (.symbol 1 'a') (.symbol 3 'b')) :=
    .union (.sequence (.repetition (.atom (.symbol (by decide))))) (.repetition (.atom (.symbol (by decide))))
  have hwhole : Derives.Whole "(a|b)" _ := .sequence (.repetition (.atom (.group hunion)))
  have hdenotes : Denotes "(a|b)" ({['a']} + {['b']}) := .tree hwhole
  have hadmitted : Pattern.Admitted (2 ^ 20) "(a|b)" :=
    exists_compile_standard_iff.1 (exists_eq_ok_of_isOk (by decide +kernel))
  have hopen : ∀ a, Pattern.compile .standard "(a" ≠ .ok a := nofun
  obtain ⟨hpattern, hanswers, hunknown⟩ := run_all_or_nothing numbered "(a|b)"
  refine ⟨hdenotes, hadmitted, (hpattern _ (.matchAll "b" ["a b"])).1.2 hadmitted,
    hanswers hadmitted _ hdenotes "b" ["a b"], hopen,
    ((run_all_or_nothing numbered "(a").1 _ .dump).2 hopen, hunknown _ ?_ ?_ ?_⟩
  · intro p hasks
    generalize hargs : ["match", "(a|b)"] = args at hasks
    cases hasks <;> simp at hargs
  · decide
  · decide

end CommandLine

end PatternAutomata
