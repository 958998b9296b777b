import PatternAutomata.Proofs.Brackets
import PatternAutomata.Proofs.Offsets
import PatternAutomata.Proofs.StackBounds
import PatternAutomata.Proofs.TreeOperands

/-!
# How large the automaton of a pattern gets

The measure in between is the `room` of a tree, which is what its operators take
if every symbol is built on its own. What a tree makes is never larger than its
room, whatever was kept as text, and room is easy to bound along a derivation:
there each symbol has its character, each operator but the concatenations has
one as well, and between two texts in a row there is at most one concatenation.
So a text of `n` characters has room for `4 * n - 2` states, and each copying
repetition doubles the room of what it repeats (`room_le`).

The same measure shows that a limit has no part in the evaluation if it leaves
that much room. A bound on the result alone would not do for that, since a tree
with characters that no automaton can read has no result. A text without a tree
has no room either, but if it copies nothing, the bound still holds for it: then
each lexeme adds two states at most (`totalSize_of_foldlM`).
-/

namespace PatternAutomata

/-! ## Room for a tree -/

namespace Tree

/-- Enough states for the operand of a tree, whether or not it is kept as text. -/
def room : Tree → Nat
  | symbol _ _ | emptyGroup _ => 2
  | concat _ l r | union _ l r => l.room + r.room + 2
  | star _ t => t.room + 2
  | plus _ t => t.room + t.room + 2

variable {t : Tree} {x : Operand}

theorem Makes.size_le_room (h : t.Makes x) : x.size ≤ t.room := by
  induction h with
  | symbol pos c => simp [room]
  | emptyGroup pos => exact Nat.le_refl 2
  | @join pos l r s s' _ _ ihl ihr =>
      have hlength : (s ++ s').length = s.length + s'.length := String.length_append ..
      rw [Operand.size_text] at ihl ihr
      rw [Operand.size_text, room, hlength]
      omega
  | concat pos _ _ _ ha hb ihl ihr =>
      have hleft := Operand.size_of_build ha
      have hright := Operand.size_of_build hb
      rw [Operand.size_automaton, Automaton.size_concat, Automaton.size_concat,
        Automaton.size_emptyWord, room]
      omega
  | union pos _ _ ha hb ihl ihr =>
      have hleft := Operand.size_of_build ha
      have hright := Operand.size_of_build hb
      rw [Operand.size_automaton, Automaton.size_union, room]
      omega
  | star pos _ ha ih =>
      have hsize := Operand.size_of_build ha
      rw [Operand.size_automaton, Automaton.size_star, room]
      omega
  | plus pos _ ha ih =>
      have hsize := Operand.size_of_build ha
      rw [Operand.size_automaton, Automaton.size_plus, room]
      omega

end Tree

/-! ## Room by the length of the text -/

/-- Room for so many characters with copying repetitions that stand so deep
within one another. -/
def roomFor (depth length : Nat) : Nat :=
  2 ^ depth * (4 * length - 2)

variable {d e m n : Nat}

theorem roomFor_mono (hd : d ≤ e) (hn : m ≤ n) : roomFor d m ≤ roomFor e n :=
  Nat.mul_le_mul (Nat.pow_le_pow_right Nat.two_pos hd) (by omega)

theorem two_le_roomFor (d : Nat) (hn : 0 < n) : 2 ≤ roomFor d n :=
  Nat.le_trans (Nat.le_refl 2) (roomFor_mono (Nat.zero_le d) hn)

/-- Two texts in a row have room for two states besides those of each. -/
theorem roomFor_add (d : Nat) (hm : 0 < m) (hn : 0 < n) :
    roomFor d m + roomFor d n + 2 ≤ roomFor d (m + n) := by
  have hsplit : 4 * (m + n) - 2 = (4 * m - 2) + (4 * n - 2) + 2 := by omega
  have hpos : 0 < 2 ^ d := Nat.two_pow_pos d
  rw [roomFor, roomFor, roomFor, hsplit, Nat.mul_add, Nat.mul_add]
  omega

theorem add_le_roomFor {p q : Nat} (hm : 0 < m) (hn : 0 < n) (hp : p ≤ roomFor d m)
    (hq : q ≤ roomFor e n) : p + q + 2 ≤ roomFor (max d e) (m + n) := by
  have hleft : roomFor d m ≤ roomFor (max d e) m :=
    roomFor_mono (Nat.le_max_left ..) (Nat.le_refl _)
  have hright : roomFor e n ≤ roomFor (max d e) n :=
    roomFor_mono (Nat.le_max_right ..) (Nat.le_refl _)
  have hboth := roomFor_add (max d e) hm hn
  omega

theorem roomFor_succ (d : Nat) (hn : 0 < n) : roomFor d n + 2 ≤ roomFor d (n + 1) := by
  have hadd := roomFor_add d hn Nat.one_pos
  omega

/-- A copy doubles the room. -/
theorem roomFor_succ_succ (d : Nat) (hn : 0 < n) :
    roomFor d n + roomFor d n + 2 ≤ roomFor (d + 1) (n + 1) := by
  have hdouble : roomFor (d + 1) n = roomFor d n + roomFor d n := by
    rw [roomFor, roomFor, Nat.pow_succ, Nat.mul_right_comm, Nat.mul_two]
  rw [← hdouble]
  exact roomFor_succ (d + 1) hn

namespace Derives

variable {level : Level} {pos : Nat} {cs : List Char} {t : Tree}

theorem length_pos (h : Derives level pos cs t) : 0 < cs.length :=
  List.length_pos_iff.2 h.ends.ne_nil

theorem room_le (h : Derives level pos cs t) : t.room ≤ roomFor t.plusDepth cs.length := by
  induction h with
  | symbol _ => exact Nat.le_refl 2
  | emptyGroup => exact two_le_roomFor 0 Nat.two_pos
  | group _ ih =>
      refine Nat.le_trans ih (roomFor_mono (Nat.le_refl _) ?_)
      simp only [List.length_append, List.length_cons]
      omega
  | atom _ ih | repetition _ ih | sequence _ ih => exact ih
  | star hinner ih =>
      rw [List.length_append, Tree.room, Tree.plusDepth]
      exact Nat.le_trans (Nat.add_le_add_right ih 2) (roomFor_succ _ hinner.length_pos)
  | plus hinner ih =>
      rw [List.length_append, Tree.room, Tree.plusDepth]
      exact Nat.le_trans (Nat.add_le_add_right (Nat.add_le_add ih ih) 2)
        (roomFor_succ_succ _ hinner.length_pos)
  | concat hl hr ihl ihr =>
      rw [List.length_append]
      exact add_le_roomFor hl.length_pos hr.length_pos ihl ihr
  | @union pos cs ds l r hl hr ihl ihr =>
      have hbar : cs.length + ds.length ≤ (cs ++ '|' :: ds).length := by
        rw [List.length_append, List.length_cons]
        omega
      exact Nat.le_trans (add_le_roomFor hl.length_pos hr.length_pos ihl ihr)
        (roomFor_mono (Nat.le_refl _) hbar)

theorem plusDepth_eq_zero_iff (h : Derives level pos cs t) : t.plusDepth = 0 ↔ '+' ∉ cs := by
  induction h with
  | @symbol pos c hc =>
      have hne : '+' ≠ c := by
        rintro rfl
        exact absurd hc (by decide)
      simp [Tree.plusDepth, hne]
  | emptyGroup => simp [Tree.plusDepth]
  | group _ ih => simpa using ih
  | atom _ ih | repetition _ ih | sequence _ ih => exact ih
  | star _ ih => simpa [Tree.plusDepth] using ih
  | plus _ _ => simp [Tree.plusDepth]
  | concat _ _ ihl ihr => simp [Tree.plusDepth, ihl, ihr]
  | union _ _ ihl ihr => simp [Tree.plusDepth, ihl, ihr]

end Derives

/-! ## No limit above the room is exceeded -/

namespace SizeLimit

/-- What is made of an automaton is refused for the characters of that automaton
only, if it is always within the limit. -/
theorem failsOnly_enforce_of_le {n : Nat} {r : Except BuildError Automaton} {cs : List Char}
    (hr : Consumes cs r) (f : Automaton → Automaton) (h : ∀ a, r = .ok a → (f a).size ≤ n) :
    FailsOnly BuildError.OutOfRange (do return Operand.automaton (← enforce (some n) (f (← r)))) :=
  hr.failsOnly.bind_of_ok fun a ha => by
    rw [enforce_of_le (h a ha)]
    exact .ok _

end SizeLimit

namespace Tree

variable {t : Tree} {x y : Operand} {n : Nat}

theorem failsOnly_joined (h : x.size + y.size + 2 ≤ n) :
    FailsOnly BuildError.OutOfRange (joined (some n) x y) := by
  unfold joined
  split
  · exact .ok _
  · refine SizeLimit.failsOnly_enforce_of_le (Automaton.consumes_concatAll _) id fun a ha => ?_
    exact Nat.le_trans (Nat.le_of_eq (Automaton.size_of_concatAll ha)) h

/-- No limit that leaves room for the tree refuses anything that is built on the
way to its operand. -/
theorem failsOnly_operand (h : t.room ≤ n) :
    FailsOnly BuildError.OutOfRange (t.operand (some n)) := by
  induction t with
  | symbol pos c => exact .ok _
  | emptyGroup pos => exact .ok _
  | concat pos l r ihl ihr =>
      rw [room] at h
      refine (ihl (by omega)).bind_of_ok fun x hx => (ihr (by omega)).bind_of_ok fun y hy => ?_
      have hleft := (makes_of_operand hx).size_le_room
      have hright := (makes_of_operand hy).size_le_room
      exact failsOnly_joined (by omega)
  | union pos l r ihl ihr =>
      rw [room] at h
      refine (ihl (by omega)).bind_of_ok fun x hx => (ihr (by omega)).bind_of_ok fun y hy => ?_
      have hleft := (makes_of_operand hx).size_le_room
      have hright := (makes_of_operand hy).size_le_room
      refine SizeLimit.failsOnly_enforce_of_le (Automaton.consumes_unionAll _ _) id fun a ha => ?_
      rw [id, Automaton.size_of_unionAll ha]
      omega
  | star pos t ih =>
      rw [room] at h
      refine (ih (by omega)).bind_of_ok fun x hx => ?_
      refine SizeLimit.failsOnly_enforce_of_le x.consumes_build Automaton.star fun a ha => ?_
      have hroom := (makes_of_operand hx).size_le_room
      rw [Automaton.size_star, Operand.size_of_build ha]
      omega
  | plus pos t ih =>
      rw [room] at h
      refine (ih (by omega)).bind_of_ok fun x hx => ?_
      refine SizeLimit.failsOnly_enforce_of_le x.consumes_build Automaton.plus fun a ha => ?_
      have hroom := (makes_of_operand hx).size_le_room
      rw [Automaton.size_plus, Operand.size_of_build ha]
      omega

theorem failsOnly_build (h : t.room ≤ n) : FailsOnly BuildError.OutOfRange (t.build (some n)) := by
  refine (failsOnly_operand h).bind_of_ok fun x hx => ?_
  refine x.consumes_build.failsOnly.bind_of_ok fun a ha => ?_
  have hroom := (makes_of_operand hx).size_le_room
  have hsize := Operand.size_of_build ha
  rw [SizeLimit.enforce_of_le (by omega)]
  exact .ok a

end Tree

/-! ## Texts that copy nothing -/

namespace Evaluation

variable {limit : SizeLimit} {t : Token} {xs : List Lexeme} {stack later : List Operand}
  {a : Automaton}

/-- The number of states that all operands on a stack have as automata. -/
def totalSize (stack : List Operand) : Nat :=
  (stack.map Operand.size).sum

@[simp] theorem totalSize_cons (y : Operand) (stack : List Operand) :
    totalSize (y :: stack) = y.size + totalSize stack := by
  simp [totalSize]

theorem totalSize_of_reduced (h : Reduced t stack later) (ht : t ≠ .plus) :
    totalSize later ≤ totalSize stack + 2 := by
  cases resized_of_reduced h with
  | kept => exact Nat.le_add_right ..
  | pushed stack hsize =>
      rw [totalSize_cons]
      omega
  | one below _ _ hone =>
      have hsize := hone ht
      rw [totalSize_cons, totalSize_cons]
      omega
  | two below _ _ hsize =>
      rw [totalSize_cons, totalSize_cons, totalSize_cons]
      omega

theorem totalSize_of_foldlM (hxs : ∀ x ∈ xs, x.token ≠ .plus)
    (h : xs.foldlM (step limit) [] = .ok stack) : totalSize stack ≤ 2 * xs.length := by
  refine holds_of_foldlM_append (P := fun us stack => totalSize stack ≤ 2 * us.length) (b := []) []
    (fun us x hx c d hc hstep => ?_) (Nat.le_refl 0) h
  have htotal := totalSize_of_reduced (reduced_of_step hstep) (hxs x hx)
  rw [List.length_append, List.length_singleton]
  omega

/-- Without copies two states for each lexeme are enough for all that is built. -/
theorem Checked.size_le_of_ne_plus (hxs : ∀ x ∈ xs, x.token ≠ .plus)
    (h : Checked limit xs a) : a.size ≤ 2 * xs.length := by
  cases h with
  | @built us vs x stack below hsplit hstack hbuilt =>
      rw [hsplit, List.forall_mem_append, List.forall_mem_cons] at hxs
      have htotal := totalSize_of_foldlM hxs.1 hstack
      have hmore := totalSize_of_reduced (reduced_of_reduce hbuilt) hxs.2.1
      rw [Reduction.operands, totalSize_cons, Operand.size_automaton] at hmore
      rw [hsplit, List.length_append, List.length_cons]
      omega
  | @last y hstack hbuild =>
      have htotal := totalSize_of_foldlM hxs hstack
      rw [totalSize_cons, ← Operand.size_of_build hbuild] at htotal
      omega

end Evaluation

namespace Lexeme

variable {xs : List Lexeme} {pos : Nat} {cs : List Char}

theorem length_of_scan (h : scan pos cs = .ok xs) : xs.length = cs.length := by
  induction cs generalizing pos xs with
  | nil =>
      obtain rfl := Except.ok.inj h
      rfl
  | cons c cs ih =>
      obtain ⟨token, rest, -, hrest, rfl⟩ := scan_cons_iff.1 h
      rw [List.length_cons, List.length_cons, ih hrest]

theorem length_yield_le (prev : Option Token) (x : Lexeme) : (x.yield prev).length ≤ 1 := by
  rw [yield]
  split
  · exact Nat.zero_le 1
  · split
    · exact Nat.le_refl 1
    · exact Nat.zero_le 1
  · exact Nat.le_refl 1

theorem length_unbracketed_le (prev : Option Token) (xs : List Lexeme) :
    (unbracketed prev xs).length ≤ xs.length := by
  induction xs generalizing prev with
  | nil => exact Nat.le_refl 0
  | cons x xs ih =>
      have hyield := length_yield_le prev x
      have hrest := ih x.token
      rw [unbracketed, List.length_append, List.length_cons]
      omega

theorem length_insertConcatsAfter_le (prev : Token) (xs : List Lexeme) :
    (insertConcatsAfter prev xs).length ≤ 2 * xs.length := by
  induction xs generalizing prev with
  | nil => exact Nat.le_refl 0
  | cons x xs ih =>
      have hrest := ih x.token
      rw [insertConcatsAfter]
      split <;> simp only [List.length_cons] <;> omega

/-- No concatenation is put before the first lexeme. -/
theorem length_insertConcats_le (xs : List Lexeme) :
    (insertConcats xs).length ≤ 2 * xs.length - 1 := by
  cases xs with
  | nil => exact Nat.le_refl 0
  | cons x xs =>
      have hrest := length_insertConcatsAfter_le x.token xs
      rw [insertConcats_cons, List.length_cons, List.length_cons]
      omega

end Lexeme

namespace Pattern

variable {pattern : String} {t : Tree} {xs : List Lexeme} {n : Nat}

theorem room_le_of_derives (h : Derives.Whole pattern t) :
    t.room ≤ 2 ^ t.plusDepth * (4 * pattern.length - 2) := by
  rw [← String.length_toList]
  exact Derives.room_le h

theorem size_le_room (h : Derives.Whole pattern t) {limit : SizeLimit} {a : Automaton}
    (ha : compile limit pattern = .ok a) : a.size ≤ t.room := by
  rw [h.compile_eq] at ha
  obtain ⟨x, hx, hbuild⟩ := Tree.exists_makes_of_build ha
  rw [Operand.size_of_build hbuild]
  exact hx.size_le_room

theorem length_le_of_inReversePolish (h : inReversePolish pattern = .ok xs) :
    xs.length ≤ 2 * pattern.length - 1 := by
  obtain ⟨written, hwritten, hxs⟩ := bind_eq_ok.1 h
  have hperm := (Lexeme.perm_unbracketed (mapError_eq_ok.1 hxs)).length_eq
  have hbrackets := Lexeme.length_unbracketed_le none (Lexeme.insertConcats written)
  have hconcats := Lexeme.length_insertConcats_le written
  have hscan := Lexeme.length_of_scan hwritten
  rw [String.length_toList] at hscan
  omega

theorem ne_plus_of_not_mem (h : inReversePolish pattern = .ok xs) (hplus : '+' ∉ pattern.toList) :
    ∀ x ∈ xs, x.token ≠ .plus := by
  intro x hx htoken
  cases located_of_inReversePolish h x hx with
  | written hc hstands =>
      obtain rfl : Token.plus = _ := htoken.symm
      obtain rfl : '+' = _ := Token.glyph_of_ofChar? hc
      obtain ⟨pre, post, hsplit, -⟩ := hstands
      exact hplus (hsplit ▸ List.mem_append_right pre List.mem_cons_self)
  | emptyGroup _ => cases htoken
  | concat _ _ _ _ _ => cases htoken

/-- A text without copies needs no tree to stay within the bound. -/
theorem compile_ne_tooComplex (hplus : '+' ∉ pattern.toList) (hle : 4 * pattern.length - 2 ≤ n)
    (m : Nat) : compile (some n) pattern ≠ .error (.tooComplex m) := by
  intro herror
  rcases bind_eq_error.1 herror with htext | ⟨xs, hxs, heval⟩
  · exact failsOnly_inReversePolish pattern _ htext
  · obtain ⟨a, ha, hlt, -⟩ := Evaluation.evaluate_eq_tooComplex_iff.1 heval
    have hsize := ha.size_le_of_ne_plus (ne_plus_of_not_mem hxs hplus)
    have hlength := length_le_of_inReversePolish hxs
    omega

/-- A bound on the size of what a pattern compiles to, by its length and by how
deep its copying repetitions stand within one another. A limit that allows so
many states never refuses the pattern, whether it compiles or not, and a text
that copies nothing need not even be a pattern for that. -/
theorem size_le_of_plusDepth (hne : pattern ≠ "") :
    (∀ limit a, compile limit pattern = .ok a → (∃ t, Derives.Whole pattern t) ∧
      ∀ t, Derives.Whole pattern t → a.size ≤ 2 ^ t.plusDepth * (4 * pattern.length - 2)) ∧
    (∀ t, Derives.Whole pattern t → (t.plusDepth = 0 ↔ '+' ∉ pattern.toList)) ∧
    (∀ t n, Derives.Whole pattern t → 2 ^ t.plusDepth * (4 * pattern.length - 2) ≤ n →
      ∀ m, compile (some n) pattern ≠ .error (.tooComplex m)) ∧
    ('+' ∉ pattern.toList →
      (∀ limit a, compile limit pattern = .ok a → a.size ≤ 4 * pattern.length - 2) ∧
      ∀ n, 4 * pattern.length - 2 ≤ n →
        ∀ m, compile (some n) pattern ≠ .error (.tooComplex m)) := by
  have hderives : ∀ limit a, compile limit pattern = .ok a → ∃ t, Derives.Whole pattern t :=
    fun limit a ha => (exists_derives_of_compile ha).resolve_left hne
  refine ⟨fun limit a ha => ⟨hderives limit a ha, fun t ht => ?_⟩,
    fun t ht => Derives.plusDepth_eq_zero_iff ht, fun t n ht hle m herror => ?_,
    fun hplus => ⟨fun limit a ha => ?_, fun n hle => compile_ne_tooComplex hplus hle⟩⟩
  · exact Nat.le_trans (size_le_room ht ha) (room_le_of_derives ht)
  · rw [ht.compile_eq] at herror
    have hroom := Nat.le_trans (room_le_of_derives ht) hle
    exact (Tree.failsOnly_build hroom _ herror).ne_tooComplex m rfl
  · obtain ⟨t, ht⟩ := hderives limit a ha
    have hle := Nat.le_trans (size_le_room ht ha) (room_le_of_derives ht)
    rwa [(Derives.plusDepth_eq_zero_iff ht).2 hplus, Nat.pow_zero, Nat.one_mul] at hle

/-- Three copying repetitions within one another, of which two follow each other. -/
theorem size_le_of_plusDepth_nested :
    ∃ t a, Derives.Whole "(a+b)++" t ∧ t.plusDepth = 3 ∧ compile none "(a+b)++" = .ok a ∧
      a.size ≤ 208 ∧ ∀ m, compile (some 208) "(a+b)++" ≠ .error (.tooComplex m) := by
  have hplus : Derives .repetition 1 (['a'] ++ ['+']) (.plus 2 (.symbol 1 'a')) :=
    .plus (.atom (.symbol (by decide)))
  have hinner : Derives .alternatives 1 (['a'] ++ ['+'] ++ ['b'])
      (.concat 3 (.plus 2 (.symbol 1 'a')) (.symbol 3 'b')) :=
    .sequence (.concat (.repetition hplus) (.atom (.symbol (by decide))))
  have hwhole : Derives.Whole "(a+b)++" _ :=
    .sequence (.repetition (.plus (.plus (.atom (.group hinner)))))
  obtain ⟨a, ha⟩ := exists_eq_ok_of_isOk (x := compile none "(a+b)++") (by decide +kernel)
  have hne : "(a+b)++" ≠ "" := by decide
  obtain ⟨hsize, -, hlimit, -⟩ := size_le_of_plusDepth hne
  exact ⟨_, a, hwhole, rfl, ha, (hsize none a ha).2 _ hwhole, hlimit _ 208 hwhole (by decide)⟩

end Pattern

end PatternAutomata
