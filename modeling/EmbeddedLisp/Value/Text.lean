import EmbeddedLisp.Number.Integer
import EmbeddedLisp.Number.Shortest
import EmbeddedLisp.Value.Basic

/-!
# The surface form of values

Every value has a text in the notation that programs are written in. Functions
and tables of the host have no notation, and are only named.
-/

set_option autoImplicit false

namespace EmbeddedLisp.Value

/-- How a character stands in a string literal when no backslash precedes it. -/
def bareCharacter (c : Char) : List Char :=
  if c = '\n' then ['\\', 'n']
  else if c = '\t' then ['\\', 't']
  else if c = '"' then ['\\', '"']
  else [c]

/-- The inside of a string literal. A backslash and the character behind it are kept. -/
def stringBody : List Char → List Char
  | [] => []
  | '\\' :: c :: rest => '\\' :: c :: stringBody rest
  | c :: rest => bareCharacter c ++ stringBody rest

def stringText (s : String) : List Char :=
  '"' :: stringBody s.toList ++ ['"']

mutual

def text : Value → List Char
  | .nil => ['(', ')']
  | .int n => Integer.text n
  | .float x => x.text
  | .str s => stringText s
  | .symbol name => name.toList
  | .apply items => '(' :: itemsText items ++ [')']
  | .list items => '[' :: itemsText items ++ [']']
  | .map entries => '\x7b' :: entriesText entries ++ ['\x7d']
  | .drill chain => chainText chain
  | .quote body => '#' :: text body
  | .unquote body => '$' :: text body
  | .function f => "<host fn ".toList ++ f.name.toList ++ ['>']
  | .table _ name _ => "<host table ".toList ++ name.toList ++ ['>']

def itemsText : List Value → List Char
  | [] => []
  | [v] => text v
  | v :: vs => text v ++ ' ' :: itemsText vs

def entriesText : List (Value × Value) → List Char
  | [] => []
  | [(k, v)] => text k ++ ' ' :: text v
  | (k, v) :: es => text k ++ ' ' :: text v ++ ' ' :: entriesText es

def chainText : List Value → List Char
  | [] => []
  | [v] => text v
  | v :: vs => text v ++ '.' :: chainText vs

end

def render (v : Value) : String := String.ofList v.text

end EmbeddedLisp.Value
