/-!
# Extents and positions in a text

A text is a list of characters. Offsets and lengths count the bytes of its
UTF-8 form, lines and columns count characters. The position of an offset is
found by reading the characters before it one by one.
-/

set_option autoImplicit false

namespace EmbeddedLisp

def byteLength : List Char → Nat
  | [] => 0
  | c :: text => c.utf8Size + byteLength text

@[simp] theorem byteLength_nil : byteLength [] = 0 := rfl

@[simp] theorem byteLength_cons (c : Char) (text : List Char) :
    byteLength (c :: text) = c.utf8Size + byteLength text := rfl

@[simp] theorem byteLength_append (s t : List Char) :
    byteLength (s ++ t) = byteLength s + byteLength t := by
  induction s with
  | nil => simp
  | cons c s ih => simp [ih, Nat.add_assoc]

/-- A stretch of text, in bytes. -/
structure Span where
  offset : Nat
  length : Nat
  deriving DecidableEq, Repr

structure Position where
  line : Nat
  column : Nat
  deriving DecidableEq, Repr

namespace Position

def start : Position := ⟨1, 1⟩

def advance (p : Position) (c : Char) : Position :=
  if c = '\n' then ⟨p.line + 1, 1⟩ else ⟨p.line, p.column + 1⟩

def after (text : List Char) : Position :=
  text.foldl advance start

theorem after_append (s t : List Char) :
    after (s ++ t) = t.foldl advance (after s) := by
  simp [after]

end Position

/-- The longest beginning of a text that fits into the given bytes. -/
def takeBytes : Nat → List Char → List Char
  | _, [] => []
  | n, c :: rest => if c.utf8Size ≤ n then c :: takeBytes (n - c.utf8Size) rest else []

theorem takeBytes_append (s t : List Char) :
    takeBytes (byteLength s) (s ++ t) = s ++ takeBytes 0 t := by
  induction s with
  | nil => simp
  | cons c s ih => simp [takeBytes, ih]

def location (source : List Char) (offset : Nat) : Position :=
  Position.after (takeBytes offset source)

end EmbeddedLisp
