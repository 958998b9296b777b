import PatternAutomata.Proofs.EvaluationFaults
import PatternAutomata.Proofs.Reading

/-!
# Errors in the text

Which error a text is refused with before anything is evaluated: for its first
unsupported character, for the first bracket that closes a group which is not open,
or for the last bracket that opens a group and has no partner. All three hang on
the characters alone, however the operators stand.

The brackets share a stack with the operators that wait, but no operator takes a
bracket from there. So putting lexemes in order fails as a pass does that looks
at nothing but brackets (`Lexeme.checkGroups_eq`). What that pass finds is told
by counting brackets in the parts of a text: where a text closes a group that it
has not opened, the part before is `Balanced`, and where it leaves a group open,
the part behind the last bracket without a partner is.
-/

namespace PatternAutomata

/-! ## Brackets alone -/

namespace Lexeme

/-- The brackets that are open behind a lexeme, the last one first. -/
def trackGroup (opened : List Lexeme) (x : Lexeme) : Except SyntaxFault (List Lexeme) :=
  match x.token, opened with
  | .leftParen, _ => .ok (x :: opened)
  | .rightParen, [] => .error (.unopenedGroup x.pos)
  | .rightParen, _ :: outer => .ok outer
  | _, _ => .ok opened

/-- Whether every bracket of the lexemes has a partner. -/
def checkGroups (xs : List Lexeme) : Except SyntaxFault Unit := do
  match ← xs.foldlM trackGroup [] with
  | [] => .ok ()
  | x :: _ => .error (.unclosedGroup x.pos)

section

variable {x : Lexeme} (opened : List Lexeme)

theorem trackGroup_leftParen (h : x.token = .leftParen) :
    trackGroup opened x = .ok (x :: opened) := by
  simp [trackGroup, h]

theorem trackGroup_rightParen_nil (h : x.token = .rightParen) :
    trackGroup [] x = .error (.unopenedGroup x.pos) := by
  simp [trackGroup, h]

theorem trackGroup_rightParen_cons (h : x.token = .rightParen) (bracket : Lexeme) :
    trackGroup (bracket :: opened) x = .ok opened := by
  simp [trackGroup, h]

theorem trackGroup_of_not_isBracket (h : x.token.isBracket = false) :
    trackGroup opened x = .ok opened := by
  unfold trackGroup
  split <;> simp_all [Token.isBracket]

end

end Lexeme

namespace ReversePolish

open Lexeme

variable {p q : Progress} {x : Lexeme}

def Progress.opened (p : Progress) : List Lexeme :=
  p.waiting.filter (·.token = .leftParen)

theorem filter_eq_nil_of_precedence {xs : List Lexeme} (h : ∀ y ∈ xs, 2 ≤ y.token.precedence) :
    xs.filter (·.token = .leftParen) = [] := by
  rw [List.filter_eq_nil_iff]
  intro y hy
  simpa using Token.ne_leftParen_of_precedence (h y hy)

theorem Stepped.trackGroup_eq (h : Stepped p x q) : trackGroup p.opened x = .ok q.opened := by
  cases h with
  | operand hx _ hwait =>
      rw [trackGroup_of_not_isBracket _ (Token.isBracket_of_isOperand hx), Progress.opened,
        Progress.opened, hwait]
  | opening hx _ hwait =>
      rw [trackGroup_leftParen _ hx, Progress.opened, Progress.opened, hwait,
        List.filter_cons_of_pos (by simpa using hx)]
  | @closing inner bracket hx hbracket hinner hwait _ =>
      have hnone : inner.filter (·.token = .leftParen) = [] := by
        rw [List.filter_eq_nil_iff]
        exact fun y hy => by simpa using hinner y hy
      rw [Progress.opened, hwait, List.filter_append, hnone, List.nil_append,
        List.filter_cons_of_pos (by simpa using hbracket), trackGroup_rightParen_cons _ hx,
        Progress.opened]
  | @operator tighter others hx hwait htighter _ _ hwait' =>
      rw [trackGroup_of_not_isBracket _ (Token.isBracket_of_precedence hx), Progress.opened,
        Progress.opened, hwait, hwait', List.filter_append,
        filter_eq_nil_of_precedence fun y hy => Nat.le_trans hx (htighter y hy), List.nil_append,
        List.filter_cons_of_neg (by simpa using Token.ne_leftParen_of_precedence hx)]

/-- A step fails only at a closing bracket, if no bracket waits. -/
theorem trackGroup_of_step_error {e : SyntaxFault} (h : step p x = .error e) :
    trackGroup p.opened x = .error e := by
  unfold step at h
  split at h
  case h_4 htoken =>
    dsimp only at h
    split at h
    · rename_i hdrop
      obtain rfl := Except.error.inj h
      have hnone : p.opened = [] := by
        rw [Progress.opened, List.filter_eq_nil_iff]
        exact fun y hy => by simpa using List.dropWhile_eq_nil_iff.1 hdrop y hy
      rw [hnone, trackGroup_rightParen_nil htoken]
    · cases h
  all_goals cases h

theorem foldlM_trackGroup_opened (xs : List Lexeme) (p : Progress) :
    xs.foldlM trackGroup p.opened = (xs.foldlM step p).map Progress.opened := by
  induction xs generalizing p with
  | nil => rfl
  | cons x xs ih =>
      rw [List.foldlM_cons, List.foldlM_cons]
      cases hstep : step p x with
      | error e =>
          rw [trackGroup_of_step_error hstep]
          rfl
      | ok q =>
          rw [(stepped_of_step hstep).1.trackGroup_eq]
          exact ih q

end ReversePolish

namespace Lexeme

open ReversePolish

theorem checkGroups_eq (xs : List Lexeme) :
    checkGroups xs = (reversePolish xs).map fun _ => () := by
  have hopened := foldlM_trackGroup_opened xs {}
  rw [checkGroups, reversePolish]
  rw [show Progress.opened {} = [] from rfl] at hopened
  rw [hopened]
  cases xs.foldlM step {} with
  | error e => rfl
  | ok p =>
      show (match p.opened with
        | [] => Except.ok ()
        | x :: _ => Except.error (SyntaxFault.unclosedGroup x.pos)) =
          (ReversePolish.finish p).map fun _ => ()
      have hhead : p.opened.head? = p.waiting.find? (·.token = .leftParen) := List.head?_filter ..
      rw [ReversePolish.finish, ← hhead]
      cases p.opened <;> rfl

/-- The concatenations that are put in change nothing about brackets. -/
theorem foldlM_trackGroup_insertConcatsAfter (opened : List Lexeme) (prev : Token)
    (xs : List Lexeme) :
    (insertConcatsAfter prev xs).foldlM trackGroup opened = xs.foldlM trackGroup opened := by
  induction xs generalizing opened prev with
  | nil => rfl
  | cons x xs ih =>
      have hcons : (x :: insertConcatsAfter x.token xs).foldlM trackGroup opened =
          (x :: xs).foldlM trackGroup opened := by
        rw [List.foldlM_cons, List.foldlM_cons]
        exact bind_congr fun later => ih later x.token
      rw [insertConcatsAfter]
      split
      · exact hcons
      · exact hcons

theorem checkGroups_insertConcats (xs : List Lexeme) :
    checkGroups (insertConcats xs) = checkGroups xs := by
  rw [checkGroups, ← insertConcatsAfter_union, foldlM_trackGroup_insertConcatsAfter, checkGroups]

end Lexeme

/-! ## Brackets in a text -/

/-- The text closes no group but those that it has opened, or that are open
before it, which are so many. -/
def ClosesOpened (depth : Nat) (cs : List Char) : Prop :=
  ∀ qs, qs <+: cs → qs.count ')' ≤ qs.count '(' + depth

/-- Every bracket in the text has its partner there. -/
structure Balanced (cs : List Char) : Prop where
  closesOpened : ClosesOpened 0 cs
  count_eq : cs.count '(' = cs.count ')'

/-- The text closes a group that is open before it, so a bracket right before
the text has its partner there. -/
def Closing (cs : List Char) : Prop :=
  ∃ qs rest, cs = qs ++ ')' :: rest ∧ Balanced qs

theorem ClosesOpened.left_of_append {depth : Nat} {cs ds : List Char}
    (h : ClosesOpened depth (cs ++ ds)) : ClosesOpened depth cs :=
  fun qs hqs => h qs (hqs.trans (List.prefix_append cs ds))

theorem ClosesOpened.tail_leftParen {depth : Nat} {cs : List Char}
    (h : ClosesOpened depth ('(' :: cs)) : ClosesOpened (depth + 1) cs := by
  intro qs hqs
  have hcount := h ('(' :: qs) (List.cons_prefix_cons.2 ⟨rfl, hqs⟩)
  rw [List.count_cons_self, List.count_cons_of_ne (by decide)] at hcount
  omega

theorem ClosesOpened.tail_rightParen {depth : Nat} {cs : List Char}
    (h : ClosesOpened (depth + 1) (')' :: cs)) : ClosesOpened depth cs := by
  intro qs hqs
  have hcount := h (')' :: qs) (List.cons_prefix_cons.2 ⟨rfl, hqs⟩)
  rw [List.count_cons_self, List.count_cons_of_ne (by decide)] at hcount
  omega

theorem ClosesOpened.tail_of_ne {depth : Nat} {c : Char} {cs : List Char} (hopen : c ≠ '(')
    (hclose : c ≠ ')') (h : ClosesOpened depth (c :: cs)) : ClosesOpened depth cs := by
  intro qs hqs
  have hcount := h (c :: qs) (List.cons_prefix_cons.2 ⟨rfl, hqs⟩)
  rwa [List.count_cons_of_ne hopen, List.count_cons_of_ne hclose] at hcount

theorem not_closesOpened_rightParen (cs : List Char) : ¬ ClosesOpened 0 (')' :: cs) := by
  intro h
  have hcount := h [')'] ⟨cs, rfl⟩
  exact absurd hcount (by decide)

theorem closesOpened_or_closing (cs : List Char) : ClosesOpened 0 cs ∨ Closing cs := by
  induction cs using List.reverseRecOn with
  | nil =>
      refine .inl fun qs hqs => ?_
      rw [List.prefix_nil.1 hqs]
      simp
  | append_singleton cs c ih =>
      rcases ih with hopened | ⟨qs, rest, rfl, hqs⟩
      · by_cases hle : (cs ++ [c]).count ')' ≤ (cs ++ [c]).count '('
        · refine .inl fun qs hqs => ?_
          rcases List.prefix_concat_iff.1 hqs with rfl | hqs
          · exact hle
          · exact hopened qs hqs
        · have hcs := hopened cs (List.prefix_refl cs)
          simp only [List.count_append, List.count_singleton] at hle
          obtain rfl : c = ')' := by grind
          exact .inr ⟨cs, [], rfl, hopened, by grind⟩
      · exact .inr ⟨qs, rest ++ [c], by simp, hqs⟩

theorem Closing.exists_prefix {cs : List Char} (h : Closing cs) :
    ∃ qs, qs <+: cs ∧ qs.count '(' < qs.count ')' := by
  obtain ⟨qs, rest, rfl, hqs⟩ := h
  refine ⟨qs ++ [')'], ⟨rest, by simp⟩, ?_⟩
  have hcount := hqs.count_eq
  simp only [List.count_append, List.count_singleton]
  grind

/-- No part at the end of a text opens more groups than it closes, or the text
has a bracket without a partner, and is balanced behind the last one of these. -/
theorem suffix_or_exists_balanced (cs : List Char) :
    (∀ qs, qs <:+ cs → qs.count '(' ≤ qs.count ')') ∨
      ∃ pre post, cs = pre ++ '(' :: post ∧ Balanced post := by
  induction cs with
  | nil =>
      refine .inl fun qs hqs => ?_
      rw [List.suffix_nil.1 hqs]
      simp
  | cons c cs ih =>
      rcases ih with hsuffix | ⟨pre, post, rfl, hpost⟩
      · by_cases hle : (c :: cs).count '(' ≤ (c :: cs).count ')'
        · refine .inl fun qs hqs => ?_
          rcases List.suffix_cons_iff.1 hqs with rfl | hqs
          · exact hle
          · exact hsuffix qs hqs
        · have hcs := hsuffix cs (List.suffix_refl cs)
          obtain rfl : c = '(' := by grind
          refine .inr ⟨[], cs, rfl, fun qs hqs => ?_, by grind⟩
          obtain ⟨rest, rfl⟩ := hqs
          have hrest := hsuffix rest (List.suffix_append qs rest)
          grind
      · exact .inr ⟨c :: pre, post, rfl, hpost⟩

theorem exists_balanced_of_count_lt {cs : List Char} (h : cs.count ')' < cs.count '(') :
    ∃ pre post, cs = pre ++ '(' :: post ∧ Balanced post := by
  rcases suffix_or_exists_balanced cs with hsuffix | hsplit
  · exact absurd (hsuffix cs (List.suffix_refl cs)) (Nat.not_le.2 h)
  · exact hsplit

theorem Balanced.not_closing {cs : List Char} (h : Balanced cs) : ¬ Closing cs := by
  intro hclosing
  obtain ⟨qs, hqs, hlt⟩ := hclosing.exists_prefix
  have hle := h.closesOpened qs hqs
  omega

/-- In a balanced text every bracket that opens a group has its partner. -/
theorem Balanced.closing_of_eq {pre post : List Char} (h : Balanced (pre ++ '(' :: post)) :
    Closing post := by
  rcases closesOpened_or_closing post with hopened | hclosing
  · have hpre := h.closesOpened pre (List.prefix_append _ _)
    have hpost := hopened post (List.prefix_refl post)
    have hcount := h.count_eq
    simp only [List.count_append, List.count_cons] at hcount
    grind
  · exact hclosing

/-! ## The lexemes of a text -/

theorem Token.isBracket_of_ofChar? {c : Char} {t : Token} (h : ofChar? c = some t)
    (hopen : c ≠ '(') (hclose : c ≠ ')') : t.isBracket = false := by
  rcases ofChar?_cases h with rfl | ⟨rfl, -⟩ | ⟨rfl, -⟩ | ⟨rfl, -⟩ | ⟨-, hc⟩ | ⟨-, hc⟩
  · rfl
  · rfl
  · rfl
  · rfl
  · exact absurd hc hopen
  · exact absurd hc hclose

namespace Lexeme

variable {pos : Nat} {pre post cs : List Char} {xs : List Lexeme}

theorem scan_eq_error {c : Char} (hpre : ∀ d ∈ pre, ¬ IsUnsupported d) (hc : IsUnsupported c) :
    scan pos (pre ++ c :: post) = .error (.unsupported (pos + byteLength pre) c) := by
  induction pre generalizing pos with
  | nil =>
      rw [List.nil_append, scan, Token.ofChar?_eq_none_iff.2 hc]
      rfl
  | cons d pre ih =>
      rw [List.forall_mem_cons] at hpre
      obtain ⟨token, htoken⟩ := Option.ne_none_iff_exists'.1 (mt Token.ofChar?_eq_none_iff.1 hpre.1)
      rw [List.cons_append, scan, htoken]
      simp only [ih hpre.2]
      rw [byteLength_cons, ← Nat.add_assoc]
      rfl

theorem exists_scan (h : ∀ c ∈ cs, ¬ IsUnsupported c) : ∃ xs, scan pos cs = .ok xs := by
  induction cs generalizing pos with
  | nil => exact ⟨[], rfl⟩
  | cons c cs ih =>
      rw [List.forall_mem_cons] at h
      obtain ⟨token, htoken⟩ := Option.ne_none_iff_exists'.1 (mt Token.ofChar?_eq_none_iff.1 h.1)
      obtain ⟨rest, hrest⟩ := ih h.2
      exact ⟨_, scan_cons_iff.2 ⟨token, rest, htoken, hrest, rfl⟩⟩

/-- A text that closes only what is open opens and closes groups on top of those
that it leaves alone. -/
theorem exists_foldlM_trackGroup {inner : List Lexeme} (hscan : scan pos cs = .ok xs)
    (h : ClosesOpened inner.length cs) (outer : List Lexeme) :
    ∃ later, xs.foldlM trackGroup (inner ++ outer) = .ok (later ++ outer) ∧
      later.length + cs.count ')' = inner.length + cs.count '(' := by
  induction cs generalizing pos xs inner with
  | nil =>
      obtain rfl : [] = xs := Except.ok.inj hscan
      exact ⟨inner, rfl, rfl⟩
  | cons c cs ih =>
      obtain ⟨token, rest, htoken, hrest, rfl⟩ := scan_cons_iff.1 hscan
      by_cases hopen : c = '('
      · subst hopen
        obtain rfl : Token.leftParen = token := Option.some.inj htoken
        have htail : ClosesOpened (⟨pos, .leftParen⟩ :: inner : List Lexeme).length cs :=
          h.tail_leftParen
        obtain ⟨later, hlater, hlength⟩ := ih hrest htail
        refine ⟨later, foldlM_cons_of_ok (trackGroup_leftParen _ rfl) hlater, ?_⟩
        rw [List.length_cons] at hlength
        rw [List.count_cons_self, List.count_cons_of_ne (by decide)]
        omega
      · by_cases hclose : c = ')'
        · subst hclose
          obtain rfl : Token.rightParen = token := Option.some.inj htoken
          cases inner with
          | nil => exact absurd h (not_closesOpened_rightParen cs)
          | cons bracket inner =>
              obtain ⟨later, hlater, hlength⟩ := ih hrest h.tail_rightParen
              refine ⟨later, foldlM_cons_of_ok (trackGroup_rightParen_cons _ rfl _) hlater, ?_⟩
              rw [List.count_cons_self, List.count_cons_of_ne (by decide), List.length_cons]
              omega
        · obtain ⟨later, hlater, hlength⟩ := ih hrest (h.tail_of_ne hopen hclose)
          have hbracket := Token.isBracket_of_ofChar? htoken hopen hclose
          refine ⟨later, foldlM_cons_of_ok (trackGroup_of_not_isBracket _ hbracket) hlater, ?_⟩
          rwa [List.count_cons_of_ne hopen, List.count_cons_of_ne hclose]

/-- A balanced text leaves the open groups as they are. -/
theorem foldlM_trackGroup_of_balanced (hscan : scan pos cs = .ok xs) (h : Balanced cs)
    (outer : List Lexeme) : xs.foldlM trackGroup outer = .ok outer := by
  have hopened : ClosesOpened ([] : List Lexeme).length cs := h.closesOpened
  obtain ⟨later, hlater, hlength⟩ := exists_foldlM_trackGroup hscan hopened outer
  rw [h.count_eq, List.length_nil] at hlength
  obtain rfl := List.eq_nil_of_length_eq_zero (show later.length = 0 by omega)
  exact hlater

theorem checkGroups_of_balanced (hscan : scan pos cs = .ok xs) (h : Balanced cs) :
    checkGroups xs = .ok () := by
  rw [checkGroups, foldlM_trackGroup_of_balanced hscan h]
  rfl

theorem checkGroups_of_unopened (hscan : scan pos (pre ++ ')' :: post) = .ok xs)
    (h : Balanced pre) : checkGroups xs = .error (.unopenedGroup (pos + byteLength pre)) := by
  obtain ⟨us, vs, hus, hvs, rfl⟩ := exists_scan_append hscan
  obtain ⟨token, rest, htoken, -, rfl⟩ := scan_cons_iff.1 hvs
  obtain rfl : Token.rightParen = token := Option.some.inj htoken
  rw [checkGroups, List.foldlM_append, foldlM_trackGroup_of_balanced hus h]
  rfl

theorem checkGroups_of_unclosed (hscan : scan pos (pre ++ '(' :: post) = .ok xs)
    (hpre : ClosesOpened 0 pre) (hpost : Balanced post) :
    checkGroups xs = .error (.unclosedGroup (pos + byteLength pre)) := by
  obtain ⟨us, vs, hus, hvs, rfl⟩ := exists_scan_append hscan
  obtain ⟨token, rest, htoken, hrest, rfl⟩ := scan_cons_iff.1 hvs
  obtain rfl : Token.leftParen = token := Option.some.inj htoken
  have hopened : ClosesOpened ([] : List Lexeme).length pre := hpre
  obtain ⟨outer, houter, -⟩ := exists_foldlM_trackGroup hus hopened []
  rw [List.append_nil, List.append_nil] at houter
  have hopening := trackGroup_leftParen outer (x := ⟨pos + byteLength pre, .leftParen⟩) rfl
  have hrun := foldlM_append_of_ok houter (foldlM_cons_of_ok hopening
    (foldlM_trackGroup_of_balanced hrest hpost _))
  rw [checkGroups, hrun]
  rfl

end Lexeme

/-! ## What a text is refused with -/

/-- The first unsupported character of the text, and its offset. -/
def FirstUnsupported (cs : List Char) (pos : Nat) (c : Char) : Prop :=
  ∃ pre post, cs = pre ++ c :: post ∧ byteLength pre = pos ∧ IsUnsupported c ∧
    ∀ d ∈ pre, ¬ IsUnsupported d

/-- The offset of the first bracket with more brackets that close a group up to
there than brackets that open one. -/
def FirstUnopened (cs : List Char) (pos : Nat) : Prop :=
  ∃ pre post, cs = pre ++ ')' :: post ∧ byteLength pre = pos ∧
    (pre ++ [')']).count '(' < (pre ++ [')']).count ')' ∧
    ∀ qs, qs <+: pre → qs.count ')' ≤ qs.count '('

/-- The offset of the last bracket that opens a group and has no partner. -/
def LastUnclosed (cs : List Char) (pos : Nat) : Prop :=
  ∃ pre post, cs = pre ++ '(' :: post ∧ byteLength pre = pos ∧ ¬ Closing post ∧
    ∀ us vs, post = us ++ '(' :: vs → Closing vs

theorem exists_firstUnsupported {cs : List Char} (h : ∃ c ∈ cs, IsUnsupported c) :
    ∃ pre c post, cs = pre ++ c :: post ∧ IsUnsupported c ∧ ∀ d ∈ pre, ¬ IsUnsupported d := by
  cases hfind : cs.find? (IsUnsupported ·) with
  | none =>
      obtain ⟨c, hc, hunsupported⟩ := h
      simpa [hunsupported] using List.find?_eq_none.1 hfind c hc
  | some c =>
      obtain ⟨hc, pre, post, rfl, hpre⟩ := List.find?_eq_some_iff_append.1 hfind
      exact ⟨pre, c, post, rfl, by simpa using hc, by simpa using hpre⟩

theorem Balanced.overclosed {pre : List Char} (h : Balanced pre) :
    (pre ++ [')']).count '(' < (pre ++ [')']).count ')' := by
  have hcount := h.count_eq
  simp [hcount]

namespace Pattern

variable {limit : SizeLimit} {pattern : String} {xs : List Lexeme}

theorem compile_of_ofPattern_error {e : BuildError} (h : Lexeme.ofPattern pattern = .error e) :
    compile limit pattern = .error e := by
  rw [compile, inReversePolish, h]
  rfl

theorem compile_of_checkGroups_error {e : SyntaxFault} (hscan : Lexeme.ofPattern pattern = .ok xs)
    (h : Lexeme.checkGroups xs = .error e) : compile limit pattern = .error (.malformed e) := by
  rw [← Lexeme.checkGroups_insertConcats, Lexeme.checkGroups_eq] at h
  rw [compile, inReversePolish, hscan]
  cases horder : Lexeme.reversePolish (Lexeme.insertConcats xs) with
  | ok ys =>
      rw [horder] at h
      cases h
  | error f =>
      rw [horder] at h
      obtain rfl := Except.error.inj h
      show (Except.mapError _ (Lexeme.reversePolish _) >>= _) = _
      rw [horder]
      rfl

theorem not_inText_of_checkGroups (hscan : Lexeme.ofPattern pattern = .ok xs)
    (h : Lexeme.checkGroups xs = .ok ()) {e : BuildError} (he : compile limit pattern = .error e) :
    ¬ e.InText := by
  rw [← Lexeme.checkGroups_insertConcats, Lexeme.checkGroups_eq] at h
  cases horder : Lexeme.reversePolish (Lexeme.insertConcats xs) with
  | error f =>
      rw [horder] at h
      cases h
  | ok ys =>
      have hys : inReversePolish pattern = .ok ys :=
        bind_eq_ok.2 ⟨xs, hscan, mapError_eq_ok.2 horder⟩
      rw [compile, hys] at he
      exact (Lexeme.failsOnly_evaluate limit ys e he).not_inText

/-- A text with unsupported characters is refused for the first of them. Any other
text is refused for the first bracket that closes more than is open, if there is
one, and otherwise for the last bracket without a partner. A text that has none
of these is not refused with any of these errors. Neither the limit nor anything
else that is wrong with the text has a part in that. -/
theorem compile_errors_inText (limit : SizeLimit) (pattern : String) :
    ((∃ c ∈ pattern.toList, IsUnsupported c) →
      ∃ pos c, FirstUnsupported pattern.toList pos c ∧
        compile limit pattern = .error (.unsupported pos c)) ∧
    ((∀ c ∈ pattern.toList, ¬ IsUnsupported c) →
      ((∃ qs, qs <+: pattern.toList ∧ qs.count '(' < qs.count ')') →
        ∃ pos, FirstUnopened pattern.toList pos ∧
          compile limit pattern = .error (.malformed (.unopenedGroup pos))) ∧
      ((∀ qs, qs <+: pattern.toList → qs.count ')' ≤ qs.count '(') →
        (pattern.toList.count ')' < pattern.toList.count '(' →
          ∃ pos, LastUnclosed pattern.toList pos ∧
            compile limit pattern = .error (.malformed (.unclosedGroup pos))) ∧
        (pattern.toList.count '(' ≤ pattern.toList.count ')' →
          ∀ e, compile limit pattern = .error e → ¬ e.InText))) := by
  refine ⟨fun hunsupported => ?_, fun hnone => ?_⟩
  · obtain ⟨pre, c, post, hcs, hc, hpre⟩ := exists_firstUnsupported hunsupported
    refine ⟨byteLength pre, c, ⟨pre, post, hcs, rfl, hc, hpre⟩, compile_of_ofPattern_error ?_⟩
    rw [Lexeme.ofPattern, hcs, Lexeme.scan_eq_error hpre hc, Nat.zero_add]
  obtain ⟨xs, hscan⟩ : ∃ xs, Lexeme.ofPattern pattern = .ok xs := Lexeme.exists_scan hnone
  refine ⟨fun hover => ?_, fun hopened => ⟨fun hlt => ?_, fun hle e he => ?_⟩⟩
  · rcases closesOpened_or_closing pattern.toList with hopened | ⟨pre, post, hcs, hpre⟩
    · obtain ⟨qs, hqs, hlt⟩ := hover
      exact absurd (hopened qs hqs) (Nat.not_le.2 hlt)
    · refine ⟨byteLength pre, ⟨pre, post, hcs, rfl, hpre.overclosed, hpre.closesOpened⟩,
        compile_of_checkGroups_error hscan ?_⟩
      rw [Lexeme.ofPattern, hcs] at hscan
      rw [Lexeme.checkGroups_of_unopened hscan hpre, Nat.zero_add]
  · obtain ⟨pre, post, hcs, hpost⟩ := exists_balanced_of_count_lt hlt
    refine ⟨byteLength pre, ⟨pre, post, hcs, rfl, hpost.not_closing, fun us vs heq => ?_⟩,
      compile_of_checkGroups_error hscan ?_⟩
    · exact Balanced.closing_of_eq (heq ▸ hpost)
    · have hpre : ClosesOpened 0 pre := by
        rw [hcs] at hopened
        exact ClosesOpened.left_of_append hopened
      rw [Lexeme.ofPattern, hcs] at hscan
      rw [Lexeme.checkGroups_of_unclosed hscan hpre hpost, Nat.zero_add]
  · have hbalanced : Balanced pattern.toList :=
      ⟨hopened, Nat.le_antisymm hle (hopened _ (List.prefix_refl _))⟩
    exact not_inText_of_checkGroups hscan (Lexeme.checkGroups_of_balanced hscan hbalanced) he

/-- The second bracket has no partner. That is said of it although operators
lack their operands in both groups. -/
theorem compile_errors_inText_unclosed :
    ∃ pos, LastUnclosed "(é)(*(|)λ".toList pos ∧
      compile (some 0) "(é)(*(|)λ" = .error (.malformed (.unclosedGroup pos)) := by
  have hprefix : ∀ qs ∈ "(é)(*(|)λ".toList.inits, qs.count ')' ≤ qs.count '(' := by decide
  have herrors := (compile_errors_inText (some 0) "(é)(*(|)λ").2 (by simp [IsUnsupported])
  refine (herrors.2 fun qs hqs => ?_).1 (by decide)
  rw [← List.mem_inits] at hqs
  exact hprefix qs hqs

end Pattern

end PatternAutomata
