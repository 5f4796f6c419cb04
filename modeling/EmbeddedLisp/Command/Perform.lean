import EmbeddedLisp.Command.Arguments
import EmbeddedLisp.Command.Repl

/-!
# What the commands do

A command turns the contents of files and of the standard input into what it
prints and an exit status. A file that cannot be read and a failure in reading
or evaluating a program end with status 1, a character that is no part of any
token with status 65, and a misused command line with status 2.
-/

set_option autoImplicit false

namespace EmbeddedLisp

structure Outcome where
  exit : UInt8
  stdout : List UInt8
  stderr : List String

namespace Command

def helpText : String :=
  "Usage: <COMMAND>\n\nCommands:\n" ++
  "  tokenize  Print the significant tokens of a file\n" ++
  "  parse     Print a file's program as parsed, in canonical form\n" ++
  "  run       Evaluate a file and print the value of its last expression\n" ++
  "  repl      Read, evaluate and print one line at a time\n" ++
  "  help      Print this message\n"

/-- The low eight bits of the code that a program exits with. -/
def status (code : Int64) : UInt8 := UInt8.ofNat (code.toInt % 256).toNat

def complaint (e : Unmatched) : String :=
  e.place ++ " Error: Unexpected character: " ++ Quoted.char e.character

def failure (stdout : List UInt8) : Error → Outcome
  | .tokenize e => ⟨65, stdout, [complaint e, e.message]⟩
  | e => ⟨1, stdout, [e.message]⟩

def printed (lines : List String) : List UInt8 :=
  lines.flatMap fun line => utf8 (line ++ "\n")

def tokenizeSource (path source : String) : Outcome :=
  let scan := (Lexer.ofSource (some path) source).run
  let listed := scan.tokens.map Token.listing
  match scan.fault with
  | none => ⟨0, printed (listed ++ ["EOF"]), []⟩
  | some e => failure (printed listed) (.tokenize e)

def parseSource (path source : String) : Outcome :=
  let scan := (Lexer.ofSource (some path) source).run
  match scan.fault with
  | some e => failure [] (.tokenize e)
  | none =>
    match readProgram scan.tokens with
    | .ok program => ⟨0, printed [program.render], []⟩
    | .error e => failure [] (.reader e)

def runSource (source : String) : Outcome :=
  match Console.start.eval Console.host source with
  | (.ok v, c) => ⟨0, (Console.printLine v.render c).world.written, []⟩
  | (.error (.error e), c) => failure c.world.written e
  | (.error (.exited code), c) => ⟨status code, c.world.written, []⟩

/-- Goes through the lines of input, up to the first that is no text. -/
def replLines : List (List UInt8) → Console → List String → Outcome
  | [], c, complaints => ⟨0, c.world.written, complaints.reverse⟩
  | bytes :: rest, c, complaints =>
    match ofUtf8? bytes with
    | none => ⟨1, c.world.written, ("input is not valid UTF-8" :: complaints).reverse⟩
    | some line =>
      match Console.readLine line c with
      | (.proceed none, c) => replLines rest c complaints
      | (.proceed (some e), c) => replLines rest c (e :: complaints)
      | (.leave code, c) => ⟨status code, c.world.written, complaints.reverse⟩

def withSource (files : String → Option (List UInt8)) (path : String)
    (action : String → Outcome) : Outcome :=
  match (files path).bind ofUtf8? with
  | some source => action source
  | none => ⟨1, [], ["reading `" ++ path ++ "` failed"]⟩

def perform (files : String → Option (List UInt8)) (stdin : List UInt8) : Command → Outcome
  | .tokenize path => withSource files path (tokenizeSource path)
  | .parse path => withSource files path (parseSource path)
  | .run path => withSource files path runSource
  | .repl => replLines (linesOf stdin) Console.start []

def path? : Command → Option String
  | .tokenize path | .parse path | .run path => some path
  | .repl => none

end Command

def Invocation.perform (files : String → Option (List UInt8)) (stdin : List UInt8) :
    Invocation → Outcome
  | .command c => c.perform files stdin
  | .help => ⟨0, utf8 Command.helpText, []⟩
  | .misuse => ⟨2, [], [Command.helpText]⟩

end EmbeddedLisp
