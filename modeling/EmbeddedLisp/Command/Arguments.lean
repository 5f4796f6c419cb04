/-!
# Arguments of the command line

The first argument names a command. All commands but one take the path of a
file. Options may stand anywhere before a double dash, and the only one known
asks for help. Arguments are looked at from left to right, and the first one
that does not fit makes the whole line a misuse.
-/

set_option autoImplicit false

namespace EmbeddedLisp

inductive Command where
  | tokenize (path : String)
  | parse (path : String)
  | run (path : String)
  | repl
  deriving DecidableEq, Repr

inductive Invocation where
  | command (c : Command)
  | help
  | misuse
  deriving DecidableEq, Repr

namespace Invocation

/-- A long option by name, or a group of short ones that begins with the one for help. -/
def asksForHelp (arg : String) : Bool :=
  arg = "--help" || arg.toList.take 2 = ['-', 'h']

/-- A single dash is an ordinary argument. -/
def isOption (arg : String) : Bool :=
  arg.toList.head? = some '-' && arg ≠ "-"

/-- Reads the arguments of a command with at most `room` positional ones. A path may
not be empty. -/
def positional (room : Nat) : List String → Except Invocation (List String)
  | [] => .ok []
  | arg :: rest =>
    if arg = "--" then
      if rest.length ≤ room ∧ "" ∉ rest then .ok rest else .error .misuse
    else if asksForHelp arg then .error .help
    else if isOption arg ∨ room = 0 ∨ arg = "" then .error .misuse
    else (positional (room - 1) rest).map (arg :: ·)

def withPath (command : String → Command) (args : List String) : Invocation :=
  match positional 1 args with
  | .ok [path] => .command (command path)
  | .ok _ => .misuse
  | .error other => other

def withoutPath (command : Command) (args : List String) : Invocation :=
  match positional 0 args with
  | .ok _ => .command command
  | .error other => other

def commandNames : List String := ["tokenize", "parse", "run", "repl", "help"]

def ofArgs : List String → Invocation
  | [] => .misuse
  | "tokenize" :: args => withPath .tokenize args
  | "parse" :: args => withPath .parse args
  | "run" :: args => withPath .run args
  | "repl" :: args => withoutPath .repl args
  | ["help"] => .help
  | ["help", name] => if name ∈ commandNames then .help else .misuse
  | arg :: _ => if asksForHelp arg then .help else .misuse

end Invocation

end EmbeddedLisp
