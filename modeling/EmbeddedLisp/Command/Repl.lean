import EmbeddedLisp.Output.Sink
import EmbeddedLisp.Session
import EmbeddedLisp.Text.Blank
import EmbeddedLisp.Text.Utf8

/-!
# The read-eval-print loop

Lines are evaluated one after another on one machine, whose output is also
where the value of each line is printed. Blank lines are passed over, and a
line that fails is only complained about.
-/

set_option autoImplicit false

namespace EmbeddedLisp

abbrev Console := Machine Sink

namespace Console

def host : Host Sink := Host.standard Sink.writer Foreign.none

def start : Console := Machine.standard (Sink.ofPolicy .unlimited)

def printLine (line : String) (c : Console) : Console :=
  { c with world := (Sink.writer.writeAll (utf8 (line ++ "\n")) c.world).2 }

inductive Next where
  | proceed (complaint : Option String)
  | leave (code : Int64)

def readLine (line : String) (c : Console) : Next × Console :=
  if isBlankText line.toList then (.proceed none, c)
  else
    match c.eval host line with
    | (.ok v, c) => (.proceed none, printLine v.render c)
    | (.error (.error e), c) => (.proceed (some e.message), c)
    | (.error (.exited code), c) => (.leave code, c)

end Console

def ontoFirst (b : UInt8) : List (List UInt8) → List (List UInt8)
  | [] => [[b]]
  | line :: rest => (b :: line) :: rest

/-- Bytes cut into lines. The end of a line is a line feed, which may have a carriage
return before it, and does not belong to the line. -/
def linesOf : List UInt8 → List (List UInt8)
  | [] => []
  | 13 :: 10 :: rest => [] :: linesOf rest
  | 10 :: rest => [] :: linesOf rest
  | b :: rest => ontoFirst b (linesOf rest)

end EmbeddedLisp
