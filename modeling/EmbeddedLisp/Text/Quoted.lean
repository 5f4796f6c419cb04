import EmbeddedLisp.Text.Visible

/-!
# Quoted text

Messages quote text between a pair of marks. The mark itself, the backslash
and four control characters have short escapes, and a hidden character is
given by the hexadecimal digits of its code point.
-/

set_option autoImplicit false

namespace EmbeddedLisp.Quoted

def codePoint (c : Char) : List Char :=
  ['\\', 'u', '\x7b'] ++ Nat.toDigits 16 c.toNat ++ ['\x7d']

def escape (mark c : Char) : List Char :=
  if c = mark ∨ c = '\\' then ['\\', c]
  else if c = '\x00' then ['\\', '0']
  else if c = '\t' then ['\\', 't']
  else if c = '\n' then ['\\', 'n']
  else if c = '\r' then ['\\', 'r']
  else if isHidden c then codePoint c
  else [c]

def between (mark : Char) (text : List Char) : String :=
  String.ofList (mark :: text.flatMap (escape mark) ++ [mark])

def string (s : String) : String := between '"' s.toList

def char (c : Char) : String := between '\x27' [c]

end EmbeddedLisp.Quoted
