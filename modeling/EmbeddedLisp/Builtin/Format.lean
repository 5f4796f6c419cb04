import EmbeddedLisp.Value.Text

/-!
# Texts of the printing functions

A string prints as it is, every other value in its surface form. A format is
copied up to its percent signs. Behind one, a verb takes the next operand, a
second percent sign stands for one, and any other character is copied with it.
Operands without a verb are listed at the end.
-/

set_option autoImplicit false

namespace EmbeddedLisp.Format

def plain : Value → List Char
  | .str s => s.toList
  | v => v.text

/-- Operands with a space between two of them when neither is a string. -/
def joined : List Value → List Char
  | [] => []
  | [v] => plain v
  | v :: w :: rest =>
    plain v ++ (if v.isStr || w.isStr then [] else [' ']) ++ joined (w :: rest)

def spaced : List Value → List Char
  | [] => []
  | [v] => plain v
  | v :: rest => plain v ++ ' ' :: spaced rest

def line (operands : List Value) : List Char := spaced operands ++ ['\n']

inductive Verb where
  | value
  | decimal
  | string
  | quoted
  deriving DecidableEq, Repr

def Verb.letter : Verb → Char
  | .value => 'v'
  | .decimal => 'd'
  | .string => 's'
  | .quoted => 'q'

def Verb.all : List Verb := [.value, .decimal, .string, .quoted]

def Verb.of? (c : Char) : Option Verb := Verb.all.find? fun verb => verb.letter = c

def mismatch (verb : Verb) (v : Value) : List Char :=
  ['%', '!', verb.letter, '('] ++ v.typeName.toList ++ '=' :: plain v ++ [')']

def Verb.text : Verb → Value → List Char
  | .quoted, v => v.text
  | .value, v => plain v
  | .decimal, .int n => plain (.int n)
  | .string, .str s => plain (.str s)
  | verb, v => mismatch verb v

def missing (verb : Verb) : List Char := ['%', '!', verb.letter] ++ "(MISSING)".toList

def noVerb : List Char := "%!(NOVERB)".toList

def extra (v : Value) : List Char := "%!(EXTRA ".toList ++ v.text ++ [')']

def expand : List Char → List Value → List Char
  | [], operands => operands.flatMap extra
  | ['%'], operands => noVerb ++ operands.flatMap extra
  | '%' :: '%' :: rest, operands => '%' :: expand rest operands
  | '%' :: c :: rest, operands =>
    match Verb.of? c, operands with
    | some verb, v :: vs => verb.text v ++ expand rest vs
    | some verb, [] => missing verb ++ expand rest []
    | none, operands => '%' :: c :: expand rest operands
  | c :: rest, operands => c :: expand rest operands

def formatted : List Value → List Char
  | .str format :: operands => expand format.toList operands
  | _ => []

end EmbeddedLisp.Format
