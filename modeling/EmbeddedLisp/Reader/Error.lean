import EmbeddedLisp.Reader.Literal
import EmbeddedLisp.Value.Text

/-!
# What can be wrong with a sequence of tokens

Every complaint of the reader names the token at fault, or the end of the
input when there is none left.
-/

set_option autoImplicit false

namespace EmbeddedLisp.Reader

def nestingLimit : Nat := 128

inductive Bracket where
  | round
  | square
  | curly
  deriving DecidableEq, Repr

inductive Mark where
  | opening (bracket : Bracket)
  | closing (bracket : Bracket)
  | quote
  | unquote
  | dot
  deriving DecidableEq, Repr

def Mark.literal : Mark → String
  | .opening .round => "("
  | .opening .square => "["
  | .opening .curly => "\x7b"
  | .closing .round => ")"
  | .closing .square => "]"
  | .closing .curly => "\x7d"
  | .quote => "#"
  | .unquote => "$"
  | .dot => "."

def Mark.all : List Mark :=
  [.opening .round, .opening .square, .opening .curly, .closing .round, .closing .square,
    .closing .curly, .quote, .unquote, .dot]

def mark? (t : Token) : Option Mark :=
  Mark.all.find? fun m => t.isMark m.literal

inductive Expectation where
  | value
  | accessor
  | mark (m : Mark)
  | entryValue (key : Value)

def Expectation.text : Expectation → String
  | .value => "value"
  | .accessor => "accessor"
  | .mark m => Quoted.string m.literal
  | .entryValue key => "value for map key `" ++ key.render ++ "`"

inductive Error where
  | unexpected (expected : Expectation) (found : Token)
  | endOfInput (expected : Expectation) (offset : Nat)
  | invalidNumber (literal : Token) (fault : NumberFault)
  | unquoted (literal : Token)
  | tooDeep (span : Span)

namespace Error

def message : Error → String
  | .unexpected expected found => "expected " ++ expected.text ++ " but got " ++ found.describe
  | .endOfInput expected _ => "expected " ++ expected.text ++ " but got end of input"
  | .invalidNumber token fault =>
    "invalid number literal `" ++ token.literal ++ "`: " ++ fault.reason
  | .unquoted token => "string literal `" ++ token.literal ++ "` is not enclosed in quotes"
  | .tooDeep _ => "expression nested deeper than " ++ Digits.string nestingLimit ++ " levels"

def help : Error → Option String
  | .endOfInput .. => some "the input ended early, possibly a missing closing bracket"
  | _ => none

def labels : Error → List (String × Span)
  | .unexpected _ found => [("here", found.span)]
  | .endOfInput _ offset => [("input ends here", ⟨offset, 0⟩)]
  | .invalidNumber token _ => [("this numeric literal", token.span)]
  | .unquoted token => [("this string literal", token.span)]
  | .tooDeep span => [("limit reached here", span)]

end Error

end EmbeddedLisp.Reader
