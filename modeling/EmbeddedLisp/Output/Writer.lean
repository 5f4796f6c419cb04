/-!
# Writers

A writer takes bytes into a state. It may take only some of the bytes it is
offered, never more than these, and both writing and flushing may fail with a
message. Writing a whole text means to offer what is left until nothing is.
An attempt that is interrupted is made again, and all of that is one write here.
-/

set_option autoImplicit false

namespace EmbeddedLisp

structure Writer (ω : Type) where
  write : List UInt8 → ω → Except String Nat × ω
  flush : ω → Except String Unit × ω
  write_le : ∀ bytes s n, (write bytes s).1 = .ok n → n ≤ bytes.length

namespace Writer
variable {ω : Type}

/-- Nothing is offered to the writer when there is nothing to write, and a writer that
takes nothing of what it is offered makes the attempt fail. -/
def writeAll (w : Writer ω) (bytes : List UInt8) (s : ω) : Except String Unit × ω :=
  match bytes with
  | [] => (.ok (), s)
  | b :: rest =>
    match w.write (b :: rest) s with
    | (.error message, s) => (.error message, s)
    | (.ok 0, s) => (.error "failed to write whole buffer", s)
    | (.ok (n + 1), s) => w.writeAll (rest.drop n) s
termination_by bytes.length

def emit (w : Writer ω) (bytes : List UInt8) (s : ω) : Except String Unit × ω :=
  match w.writeAll bytes s with
  | (.error message, s) => (.error message, s)
  | (.ok (), s) => w.flush s

end Writer

end EmbeddedLisp
