import EmbeddedLisp.Reader.Expression

/-!
# Parsers

A parser reads from a sequence of tokens step by step. After an error it goes
on from wherever the reader stopped.
-/

set_option autoImplicit false

namespace EmbeddedLisp

def Reader.endOf (tokens : List Token) : Nat := (tokens.getLast?.map Token.stop).getD 0

/-- A reader at work: the tokens still to come, and where the input ends. -/
structure Parser where
  ending : Nat
  rest : List Token

namespace Parser

def ofTokens (tokens : List Token) : Parser := ⟨Reader.endOf tokens, tokens⟩

def step {α : Type} (p : Parser) (r : Reader α) : Except Reader.Error α × Parser :=
  match r p.rest with
  | .ok v rest => (.ok v, { p with rest })
  | .error e rest => (.error e, { p with rest })

def expression (p : Parser) : Except Reader.Error Value × Parser :=
  p.step (Reader.expression p.ending Reader.nestingLimit)

def program (p : Parser) : Except Reader.Error Value × Parser :=
  p.step (Reader.program p.ending)

end Parser

/-- The first expression of a sequence of tokens. What follows it is ignored. -/
def readExpression (tokens : List Token) : Except Reader.Error Value :=
  (Parser.ofTokens tokens).expression.1

def readProgram (tokens : List Token) : Except Reader.Error Value :=
  (Parser.ofTokens tokens).program.1

end EmbeddedLisp
