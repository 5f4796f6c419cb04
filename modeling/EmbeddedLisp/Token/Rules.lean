import EmbeddedLisp.Token.Basic
import EmbeddedLisp.Number.Digits

/-!
# Lexical rules

Each kind of token has one rule, which says how many characters at the front
of a text belong to such a token. The kinds are tried in a fixed order and the
first rule that applies wins, even where a later one would take more. A rule
that applies takes at least one character.
-/

set_option autoImplicit false

namespace EmbeddedLisp.Token
open EmbeddedLisp.Digits

def isPunctuation (c : Char) : Bool :=
  c ∈ ['#', '$', '.', '(', ')', '[', ']', '\x7b', '\x7d']

def isSpace (c : Char) : Bool :=
  c ∈ [' ', '\t', '\n', '\r']

/-- Blanks that end an identifier. The form feed is among them, and no rule takes it. -/
def isBreak (c : Char) : Bool :=
  isSpace c || c = '\x0c'

def isIdentifierChar (c : Char) : Bool :=
  !isBreak c && !isPunctuation c

def run? (belongs : Char → Bool) (text : List Char) : Option Nat :=
  match (text.takeWhile belongs).length with
  | 0 => none
  | n + 1 => some (n + 1)

def comment? : List Char → Option Nat
  | '/' :: '/' :: text => some ((text.takeWhile (· ≠ '\n')).length + 2)
  | _ => none

def float? (text : List Char) : Option Nat :=
  match run? isDigit text, text.dropWhile isDigit with
  | some whole, '.' :: rest => (run? isDigit rest).map fun part => whole + 1 + part
  | _, _ => none

/-- The characters up to and with the closing quote. A backslash protects the next character. -/
def closing? : List Char → Option Nat
  | [] => none
  | '"' :: _ => some 1
  | ['\\'] => none
  | '\\' :: _ :: text => (closing? text).map (· + 2)
  | _ :: text => (closing? text).map (· + 1)

def string? : List Char → Option Nat
  | '"' :: text => (closing? text).map (· + 1)
  | _ => none

def punctuation? : List Char → Option Nat
  | c :: _ => if isPunctuation c then some 1 else none
  | [] => none

def Kind.rule : Kind → List Char → Option Nat
  | .comment => comment?
  | .float => float?
  | .integer => run? isDigit
  | .string => string?
  | .punctuation => punctuation?
  | .whitespace => run? isSpace
  | .identifier => run? isIdentifierChar

def precedence : List Kind :=
  [.comment, .float, .integer, .string, .punctuation, .whitespace, .identifier]

def firstMatch? (text : List Char) : Option (Kind × Nat) :=
  precedence.findSome? fun kind => (kind.rule text).map (kind, ·)

theorem run?_pos {belongs : Char → Bool} {text : List Char} {n : Nat}
    (h : run? belongs text = some n) : 0 < n := by
  unfold run? at h
  split at h
  · simp at h
  · simp only [Option.some.injEq] at h
    omega

theorem rule_pos {kind : Kind} {text : List Char} {n : Nat}
    (h : kind.rule text = some n) : 0 < n := by
  cases kind with
  | comment =>
    simp only [Kind.rule, comment?] at h
    split at h
    · simp only [Option.some.injEq] at h
      omega
    · simp at h
  | float =>
    simp only [Kind.rule, float?] at h
    split at h
    · obtain ⟨part, _, rfl⟩ := Option.map_eq_some_iff.1 h
      omega
    · simp at h
  | string =>
    simp only [Kind.rule, string?] at h
    split at h
    · obtain ⟨m, _, rfl⟩ := Option.map_eq_some_iff.1 h
      omega
    · simp at h
  | punctuation =>
    simp only [Kind.rule, punctuation?] at h
    split at h
    · split at h
      · simp only [Option.some.injEq] at h
        omega
      · simp at h
    · simp at h
  | integer => exact run?_pos h
  | whitespace => exact run?_pos h
  | identifier => exact run?_pos h

theorem firstMatch?_pos {text : List Char} {kind : Kind} {n : Nat}
    (h : firstMatch? text = some (kind, n)) : 0 < n := by
  obtain ⟨k, _, hk⟩ := List.exists_of_findSome?_eq_some h
  obtain ⟨m, hm, he⟩ := Option.map_eq_some_iff.1 hk
  have : m = n := congrArg Prod.snd he
  exact this ▸ rule_pos hm

end EmbeddedLisp.Token
