import EmbeddedLisp.Builtin.Basic
import EmbeddedLisp.Evaluation.Basic
import EmbeddedLisp.Reader.Parser
import EmbeddedLisp.Token.Lexer

/-!
# Sessions

A session runs source texts one after another on one machine. A text is cut
into tokens, read and evaluated, and the first of these steps that fails gives
the error. A crash of the host is turned into an error, so that the session can
go on with all that was bound and written before.
-/

set_option autoImplicit false

namespace EmbeddedLisp

inductive Error where
  | tokenize (e : Unmatched)
  | reader (e : Reader.Error)
  | evaluation (e : Evaluation.Error)

namespace Error

def message : Error → String
  | .tokenize e => e.message
  | .reader e => e.message
  | .evaluation e => e.message

def help : Error → Option String
  | .tokenize e => some e.help
  | .reader e => e.help
  | .evaluation e => e.help

def labels : Error → List (String × Span)
  | .tokenize e => e.labels
  | .reader e => e.labels
  | .evaluation _ => []

end Error

def readWith (read : List Token → Except Reader.Error Value) (source : String) :
    Except Error Value :=
  match tokenize source with
  | .error e => .error (.tokenize e)
  | .ok tokens =>
    match read tokens with
    | .error e => .error (.reader e)
    | .ok v => .ok v

def readSource (source : String) : Except Error Value := readWith readProgram source

def readFirst (source : String) : Except Error Value := readWith readExpression source

namespace Machine
variable {σ : Type}

inductive Halt where
  | error (e : Error)
  | exited (code : Int64)

def standard (output : σ) : Machine σ := ⟨Environment.standard, output⟩

def contain : Evaluation.Stop → Halt
  | .error e => .error (.evaluation e)
  | .crashed detail => .error (.evaluation (.internal (detail.getD "unknown panic")))
  | .exited code => .exited code

def evaluate (host : Host σ) (v : Value) (m : Machine σ) : Except Halt Value × Machine σ :=
  match Evaluation.evaluate host v m with
  | .ok v m => (.ok v, m)
  | .error stop m => (.error (contain stop), m)

def eval (host : Host σ) (source : String) (m : Machine σ) : Except Halt Value × Machine σ :=
  match readSource source with
  | .error e => (.error (.error e), m)
  | .ok program => m.evaluate host program

def execute (host : Host σ) (source : String) (m : Machine σ) :
    Except Halt Unit × Machine σ :=
  let (result, m) := m.eval host source
  (result.map fun _ => (), m)

end Machine

end EmbeddedLisp
