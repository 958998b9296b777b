import PatternAutomata.Text.Hidden

/-!
# Quoted text

Messages show characters and texts between quotation marks. A hidden character
is written as an escape: `\0`, `\t`, `\n`, `\r` where there is a short form
and `\u` with the hexadecimal value in braces where there is none. The
backslash is doubled, and the enclosing mark is escaped inside, but the other
mark is not.
-/

namespace PatternAutomata.Text.Quoted

/-- The digits of a number in base 16, lower case and without padding. -/
def hexDigits (n : Nat) : List Char :=
  Nat.toDigits 16 n

def escape (mark c : Char) : List Char :=
  if c = '\x00' then ['\x5c', '0']
  else if c = '\t' then ['\x5c', 't']
  else if c = '\n' then ['\x5c', 'n']
  else if c = '\r' then ['\x5c', 'r']
  else if c = '\x5c' then ['\x5c', '\x5c']
  else if c = mark then ['\x5c', mark]
  else if isHidden c then ['\x5c', 'u', '\x7b'] ++ hexDigits c.toNat ++ ['\x7d']
  else [c]

def char (c : Char) : String :=
  String.ofList ('\x27' :: (escape '\x27' c ++ ['\x27']))

def text (s : String) : String :=
  String.ofList ('\x22' :: (s.toList.flatMap (escape '\x22') ++ ['\x22']))

end PatternAutomata.Text.Quoted
