import EmbeddedLisp.Command.Perform

/-!
# The program

Reads the files and the standard input that a command asks for, and prints what
it gives. The loop prints after every line.
-/

set_option autoImplicit false

namespace EmbeddedLisp

def readBytes? (path : String) : IO (Option (List UInt8)) := do
  try
    let bytes ← IO.FS.readBinFile path
    return some bytes.data.toList
  catch _ =>
    return none

def report (outcome : Outcome) : IO UInt32 := do
  let stdout ← IO.getStdout
  stdout.write ⟨outcome.stdout.toArray⟩
  stdout.flush
  let stderr ← IO.getStderr
  for line in outcome.stderr do
    stderr.putStrLn line
  return outcome.exit.toUInt32

def flushConsole (c : Console) : IO Console := do
  let stdout ← IO.getStdout
  stdout.write ⟨c.world.written.toArray⟩
  stdout.flush
  return { c with world := Sink.ofPolicy c.world.policy }

/-- The bytes up to and with the next line feed, or up to the end of the input. -/
partial def readLineBytes (input : IO.FS.Stream) (read : List UInt8) : IO (List UInt8) := do
  match (← input.read 1).data.toList with
  | [] => return read.reverse
  | b :: _ => if b = 10 then return (b :: read).reverse else readLineBytes input (b :: read)

partial def loop (c : Console) : IO UInt32 := do
  match linesOf (← readLineBytes (← IO.getStdin) []) with
  | [] => return 0
  | bytes :: _ =>
    match ofUtf8? bytes with
    | none => return 1
    | some line =>
      let (next, c) := Console.readLine line c
      let c ← flushConsole c
      match next with
      | .leave code => return (Command.status code).toUInt32
      | .proceed complaint =>
        if let some message := complaint then
          (← IO.getStderr).putStrLn message
        loop c

end EmbeddedLisp

open EmbeddedLisp in
def main (args : List String) : IO UInt32 := do
  match Invocation.ofArgs args with
  | .command .repl => loop Console.start
  | invocation =>
    let path := match invocation with
      | .command c => c.path?
      | _ => none
    let content ← match path with
      | some path => readBytes? path
      | none => pure none
    report (invocation.perform (fun _ => content) [])
