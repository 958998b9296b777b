/-!
# Symbols

An automaton does not read characters but symbols, the character values from
0 to 255. Every symbol stands for one character, and the characters above
U+00FF stand for no symbol, which is why no edge can ever read them.
-/

namespace PatternAutomata

/-- The label of an edge: a character value from 0 to 255. -/
abbrev Symbol := UInt8

namespace Symbol

def ofNat? (value : Nat) : Option Symbol :=
  if value < 256 then some (UInt8.ofNat value) else none

def ofChar? (c : Char) : Option Symbol :=
  ofNat? c.toNat

def toChar (s : Symbol) : Char :=
  Char.ofNat s.toNat

theorem ofNat?_eq_none_iff {value : Nat} : ofNat? value = none ↔ 255 < value := by
  unfold ofNat?
  split <;> simp <;> omega

theorem ofNat?_eq_some_iff {value : Nat} {s : Symbol} :
    ofNat? value = some s ↔ s.toNat = value := by
  unfold ofNat?
  split <;> rename_i h
  · rw [Option.some.injEq]
    constructor
    · rintro rfl
      simp only [UInt8.toNat_ofNat']
      omega
    · rintro rfl
      simp
  · have := s.toNat_lt
    simp only [reduceCtorEq, false_iff]
    omega

theorem ofChar?_eq_none_iff {c : Char} : ofChar? c = none ↔ 255 < c.toNat :=
  ofNat?_eq_none_iff

theorem ofChar?_eq_some_iff {c : Char} {s : Symbol} :
    ofChar? c = some s ↔ s.toNat = c.toNat :=
  ofNat?_eq_some_iff

@[simp] theorem toNat_toChar (s : Symbol) : (toChar s).toNat = s.toNat := by
  have hvalid : s.toNat.isValidChar := .inl (by have := s.toNat_lt; omega)
  rw [toChar, Char.ofNat, dif_pos hvalid]
  rfl

@[simp] theorem ofChar?_toChar (s : Symbol) : ofChar? (toChar s) = some s :=
  ofChar?_eq_some_iff.2 (toNat_toChar s).symm

theorem toChar_inj {s t : Symbol} (h : toChar s = toChar t) : s = t := by
  simpa using congrArg ofChar? h

end Symbol

end PatternAutomata
