import EmbeddedLisp.Token.Rules

/-!
# The lexer

The lexer takes one piece after another off the front of a source text. Pieces
that carry no meaning are passed over. A character that no rule takes ends the
text: it is reported once, and nothing behind it is looked at.
-/

set_option autoImplicit false

namespace EmbeddedLisp

structure Unmatched where
  name : String
  source : String
  offset : Nat
  character : Char
  deriving DecidableEq, Repr

namespace Unmatched

def position (e : Unmatched) : Position := location e.source.toList e.offset

def place (e : Unmatched) : String :=
  "[" ++ Digits.string e.position.line ++ ":" ++ Digits.string e.position.column ++ "]"

def message (e : Unmatched) : String :=
  e.place ++ " unexpected character " ++ Quoted.char e.character

def help (e : Unmatched) : String :=
  "remove or correct the character: `" ++ Quoted.char e.character ++ "`"

def labels (e : Unmatched) : List (String × Span) :=
  [("this character", ⟨e.offset, e.character.utf8Size⟩)]

end Unmatched

structure Lexer where
  name : String
  source : String
  rest : List Char
  byte : Nat
  deriving Repr

namespace Lexer

def ofSource (name : Option String) (source : String) : Lexer :=
  ⟨name.getD "<input>", source, source.toList, 0⟩

def drop (l : Lexer) (n : Nat) : Lexer :=
  { l with rest := l.rest.drop n, byte := l.byte + byteLength (l.rest.take n) }

def piece (l : Lexer) (kind : Token.Kind) (n : Nat) : Token :=
  ⟨kind, String.ofList (l.rest.take n), l.byte⟩

theorem drop_length {l : Lexer} {c : Char} {text : List Char} {n : Nat}
    (hl : l.rest = c :: text) (hn : 0 < n) : (l.drop n).rest.length < l.rest.length := by
  simp only [drop, List.length_drop, hl, List.length_cons]
  omega

/-- The next token or complaint, if any, and the lexer behind all that was passed over. -/
def next (l : Lexer) : Option (Except Unmatched Token) × Lexer :=
  match _hr : l.rest with
  | [] => (none, l)
  | c :: _ =>
    match _hm : Token.firstMatch? l.rest with
    | none => (some (.error ⟨l.name, l.source, l.byte, c⟩), { l with rest := [] })
    | some (kind, n) =>
      if kind.isDiscarded then (l.drop n).next else (some (.ok (l.piece kind n)), l.drop n)
termination_by l.rest.length
decreasing_by exact drop_length _hr (Token.firstMatch?_pos _hm)

theorem next_shorter {l l' : Lexer} {step : Except Unmatched Token}
    (h : l.next = (some step, l')) : l'.rest.length < l.rest.length := by
  fun_induction next l with
  | case1 => simp at h
  | case2 l c text hr hm =>
    simp only [Prod.mk.injEq] at h
    simp [← h.2, hr]
  | case3 l c text hr kind n hm hd ih =>
    exact Nat.lt_trans (ih h) (drop_length hr (Token.firstMatch?_pos hm))
  | case4 l c text hr kind n hm hd =>
    simp only [Prod.mk.injEq] at h
    exact h.2 ▸ drop_length hr (Token.firstMatch?_pos hm)

/-- What running a lexer to its end gives: the tokens, the complaint that cut them
short, if any, and the offset reached. -/
structure Scan where
  tokens : List Token
  fault : Option Unmatched
  byte : Nat
  deriving Repr

def run (l : Lexer) : Scan :=
  match _h : l.next with
  | (none, l') => ⟨[], none, l'.byte⟩
  | (some (.error e), l') => ⟨[], some e, l'.byte⟩
  | (some (.ok t), l') =>
    let scan := l'.run
    { scan with tokens := t :: scan.tokens }
termination_by l.rest.length
decreasing_by exact next_shorter _h

end Lexer

def tokenize (source : String) : Except Unmatched (List Token) :=
  let scan := (Lexer.ofSource none source).run
  match scan.fault with
  | none => .ok scan.tokens
  | some e => .error e

end EmbeddedLisp
