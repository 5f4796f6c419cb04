import EmbeddedLisp.Text.Extent
import EmbeddedLisp.Text.Quoted

/-!
# Tokens

A token is a piece of source text with its kind and the byte offset where it
begins. White space and comments are pieces too, but are never handed on.
-/

set_option autoImplicit false

namespace EmbeddedLisp

inductive Token.Kind where
  | comment
  | float
  | integer
  | string
  | punctuation
  | whitespace
  | identifier
  deriving DecidableEq, Repr

structure Token where
  kind : Token.Kind
  literal : String
  offset : Nat
  deriving DecidableEq, Repr

namespace Token

def Kind.isDiscarded : Kind → Bool
  | .comment | .whitespace => true
  | _ => false

def Kind.name : Kind → String
  | .comment => "comment"
  | .float => "float"
  | .integer => "integer"
  | .string => "string"
  | .punctuation => "punctuation"
  | .whitespace => "whitespace"
  | .identifier => "identifier"

def length (t : Token) : Nat := byteLength t.literal.toList

def span (t : Token) : Span := ⟨t.offset, t.length⟩

def stop (t : Token) : Nat := t.offset + t.length

/-- One line of a token listing. White space is quoted, since it would not show. -/
def listing (t : Token) : String :=
  match t.kind with
  | .whitespace => "WHITESPACE " ++ Quoted.string t.literal
  | .comment => "COMMENT " ++ t.literal
  | .float => "FLOAT " ++ t.literal
  | .integer => "INTEGER " ++ t.literal
  | .string => "STRING " ++ t.literal
  | .punctuation => "PUNCTUATION " ++ t.literal
  | .identifier => "IDENTIFIER " ++ t.literal

def describe (t : Token) : String := t.kind.name ++ " " ++ Quoted.string t.literal

def isMark (mark : String) (t : Token) : Bool :=
  t.kind = .punctuation && t.literal = mark

end Token

end EmbeddedLisp
