import EmbeddedLisp.Number.Integer
import EmbeddedLisp.Number.Decimal
import EmbeddedLisp.Token.Basic
import EmbeddedLisp.Value.Basic

/-!
# Literals

A token that is a value by itself: a name, a number or a string. Inside a
string literal the pairs for a line break and a tab are decoded, and any other
backslash stays together with the character behind it.
-/

set_option autoImplicit false

namespace EmbeddedLisp.Reader

inductive NumberFault where
  | integer (fault : Integer.Fault)
  | float (fault : Binary64.Fault)
  deriving DecidableEq, Repr

def NumberFault.reason : NumberFault → String
  | .integer fault => fault.reason
  | .float fault => fault.reason

inductive LiteralFault where
  | number (fault : NumberFault)
  | unquoted
  deriving DecidableEq, Repr

/-- The inside of a string literal: all but the first and the last character, which
have to be single bytes as quotes are. -/
def stringBody? : List Char → Option (List Char)
  | first :: c :: rest =>
    if first.utf8Size = 1 ∧ ((c :: rest).getLast (by simp)).utf8Size = 1
    then some (c :: rest).dropLast
    else none
  | _ => none

def unescape : List Char → List Char
  | [] => []
  | '\\' :: 'n' :: rest => '\n' :: unescape rest
  | '\\' :: 't' :: rest => '\t' :: unescape rest
  | '\\' :: c :: rest => '\\' :: c :: unescape rest
  | c :: rest => c :: unescape rest

/-- The value of a token that stands for itself. Other tokens have none. -/
def literal? (t : Token) : Option (Except LiteralFault Value) :=
  match t.kind with
  | .identifier => some (.ok (.symbol t.literal))
  | .integer => some <|
    match Integer.parse t.literal.toList with
    | .ok n => .ok (.int n)
    | .error fault => .error (.number (.integer fault))
  | .float => some <|
    match Binary64.parse t.literal.toList with
    | .ok x => .ok (.float x)
    | .error fault => .error (.number (.float fault))
  | .string => some <|
    match stringBody? t.literal.toList with
    | some body => .ok (.str (String.ofList (unescape body)))
    | none => .error .unquoted
  | .comment | .punctuation | .whitespace => none

def isAccessor (t : Token) : Bool :=
  match t.kind with
  | .identifier | .integer | .string => true
  | _ => false

end EmbeddedLisp.Reader
