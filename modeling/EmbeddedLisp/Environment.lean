import EmbeddedLisp.Value.Basic

/-!
# Environments

Names are bound in frames. The innermost frame is always there, those around it
may be none. A name is looked up from the innermost frame outwards and is only
ever bound in the innermost one.
-/

set_option autoImplicit false

namespace EmbeddedLisp

structure Environment where
  innermost : Bindings Value
  enclosing : List (Bindings Value)

namespace Environment

def empty : Environment := ⟨[], []⟩

def frames (e : Environment) : List (Bindings Value) := e.innermost :: e.enclosing

def get? (e : Environment) (name : String) : Option Value :=
  e.frames.findSome? (Bindings.find? name)

def define (e : Environment) (name : String) (value : Value) : Environment :=
  { e with innermost := e.innermost.insert name value }

def push (e : Environment) : Environment := ⟨[], e.frames⟩

/-- Drops the innermost frame, unless it is the only one. -/
def pop (e : Environment) : Environment :=
  match e.enclosing with
  | [] => e
  | frame :: rest => ⟨frame, rest⟩

def depth (e : Environment) : Nat := e.frames.length

@[simp] theorem get?_define_self (e : Environment) (name : String) (value : Value) :
    (e.define name value).get? name = some value := by
  simp [get?, define, frames]

theorem get?_define_of_ne (e : Environment) {name other : String} (h : other ≠ name)
    (value : Value) : (e.define name value).get? other = e.get? other := by
  simp only [get?, define, frames, List.findSome?_cons, Bindings.find?_insert_of_ne h]

theorem depth_pos (e : Environment) : 0 < e.depth := by
  simp [depth, frames]

end Environment

end EmbeddedLisp
