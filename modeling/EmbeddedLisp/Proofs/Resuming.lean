import EmbeddedLisp.Proofs.Cursors

/-!
# A parser after its errors

Calls are made on one parser, whatever the calls before them gave. A call on a cursor
that is inside of no expression is a call on the parser of the tokens ahead, and leaves
the cursor inside of no expression. So nothing but the place where it stands is left of
earlier calls, and a new parser for the tokens ahead does the same from there on. Only
the end of the input is elsewhere for it once no tokens are left.
-/

set_option autoImplicit false

namespace EmbeddedLisp
open Reader (Error endOf nestingLimit)
open Grammar

inductive Call where
  | expression
  | program
  deriving DecidableEq, Repr

def Call.atEnd (ending : Nat) : Call → Except Error Value
  | .expression => .error (.endOfInput .value ending)
  | .program => .ok (.apply [.symbol "do"])

def Reader.answering (ending : Nat) : Call → Reader Value
  | .expression => Reader.expression ending nestingLimit
  | .program => Reader.program ending

namespace Parser

def perform (p : Parser) : Call → Except Error Value × Parser
  | .expression => p.expression
  | .program => p.program

def performAll (p : Parser) : List Call → Parser
  | [] => p
  | call :: calls => performAll (p.perform call).2 calls

theorem perform_eq_step (p : Parser) (call : Call) :
    p.perform call = p.step (Reader.answering p.ending call) := by
  cases call <;> rfl

theorem perform_nil (ending : Nat) (call : Call) :
    Parser.perform ⟨ending, []⟩ call = (call.atEnd ending, ⟨ending, []⟩) := by
  cases call with
  | expression => rfl
  | program =>
    have hnone : Reader.program ending [] = .ok (.apply [.symbol "do"]) [] :=
      Reader.bind_eq_ok.2 ⟨[], [], Reader.many_stop (by simp), rfl⟩
    simp [perform, program, step, hnone, Call.atEnd]

theorem expression_shortens {p after : Parser} {v : Value}
    (h : p.expression = (.ok v, after)) : after.rest.length < p.rest.length := by
  unfold expression step at h
  split at h
  · next w rest hr =>
    obtain ⟨_, rfl⟩ := Prod.mk.inj h
    exact Reader.expression_shortens _ _ _ _ _ hr
  · simp at h

theorem perform_ne_unquoted {p : Parser} (hq : WellQuoted p.rest) (call : Call) (t : Token) :
    (p.perform call).1 ≠ .error (.unquoted t) := by
  intro h
  rw [perform_eq_step] at h
  obtain ⟨rest, h⟩ := step_error.1 h
  cases call with
  | expression => exact (Reader.expression_faithful nestingLimit).explains hq h
  | program => exact Reader.program_explains hq h

end Parser

namespace Cursor

/-- One call more than the limit inside one another, of which the last one is refused. -/
def answering : Call → Action Value
  | .expression => expression (nestingLimit + 1)
  | .program => program (nestingLimit + 1)

def perform (c : Cursor) (call : Call) : Except Error Value × Cursor :=
  match answering call c with
  | .ok v after => (.ok v, after)
  | .error e after => (.error e, after)

def performAll (c : Cursor) : List Call → Cursor
  | [] => c
  | call :: calls => performAll (c.perform call).2 calls

def parser (c : Cursor) : Parser := ⟨c.ending, c.rest⟩

/-- Where the cursor is between calls. -/
structure Stands (ts : List Token) (c : Cursor) : Prop where
  tokens : c.tokens = ts
  depth : c.depth = 0
  position : c.position ≤ ts.length

theorem answering_tracks (call : Call) :
    Tracks 0 (answering call) (Reader.answering · call) := by
  cases call with
  | expression => exact expression_tracks (Nat.zero_le nestingLimit) (Nat.lt_succ_self nestingLimit)
  | program => exact program_tracks (Nat.lt_succ_self nestingLimit)

theorem perform_spec {c : Cursor} (hd : c.depth = 0) (call : Call) :
    ∃ result n, n ≤ c.left ∧ c.perform call = (result, c.skip n) ∧
      c.parser.perform call = (result, (c.skip n).parser) := by
  have h : Follows c (answering call c) (Reader.answering c.ending call c.rest) :=
    answering_tracks call c hd
  simp only [perform, Parser.perform_eq_step, Parser.step, parser, skip_rest, skip_ending]
  generalize answering call c = x at h ⊢
  generalize Reader.answering c.ending call c.rest = y at h ⊢
  cases h with
  | ok n v hn => exact ⟨.ok v, n, hn, rfl, rfl⟩
  | error n e hn => exact ⟨.error e, n, hn, rfl, rfl⟩

theorem stands_ofTokens (ts : List Token) : (ofTokens ts).Stands ts :=
  ⟨rfl, rfl, Nat.zero_le ts.length⟩

section
variable {ts : List Token} {c : Cursor}

theorem Stands.left_eq (h : c.Stands ts) : c.left = ts.length - c.position := by
  rw [left, h.tokens]

theorem Stands.perform (h : c.Stands ts) (call : Call) : (c.perform call).2.Stands ts := by
  obtain ⟨result, n, hn, hc, _⟩ := perform_spec h.depth call
  rw [h.left_eq] at hn
  have hp := h.position
  rw [hc]
  exact ⟨h.tokens, h.depth, by simp only [skip]; omega⟩

theorem Stands.performAll (h : c.Stands ts) (calls : List Call) :
    (c.performAll calls).Stands ts := by
  induction calls generalizing c with
  | nil => exact h
  | cons call calls ih => exact ih (h.perform call)

theorem Stands.parser_performAll (h : c.Stands ts) (calls : List Call) :
    c.parser.performAll calls = (c.performAll calls).parser := by
  induction calls generalizing c with
  | nil => rfl
  | cons call calls ih =>
    obtain ⟨result, n, _, hc, hp⟩ := perform_spec h.depth call
    have hnext := ih (h.perform call)
    rw [hc] at hnext
    rw [Parser.performAll, Cursor.performAll, hp, hc]
    exact hnext

theorem Stands.parser_eq (h : c.Stands ts) : c.parser = ⟨endOf ts, ts.drop c.position⟩ := by
  rw [parser, ending, rest, h.tokens]

theorem parser_ofTokens (ts : List Token) : (ofTokens ts).parser = Parser.ofTokens ts := rfl

theorem endOf_drop {ts : List Token} {k : Nat} (h : k < ts.length) :
    endOf (ts.drop k) = endOf ts := by
  rw [endOf, endOf, List.getLast?_drop, if_neg (by omega)]

theorem Stands.perform_new (h : c.Stands ts) (call : Call) :
    (c.perform call).2.position =
        c.position + ((ofTokens (ts.drop c.position)).perform call).2.position ∧
      (c.position < ts.length →
        (c.perform call).1 = ((ofTokens (ts.drop c.position)).perform call).1) ∧
      (c.position = ts.length → (c.perform call).1 = call.atEnd (endOf ts) ∧
        ((ofTokens (ts.drop c.position)).perform call).1 = call.atEnd 0) := by
  have hnew := stands_ofTokens (ts.drop c.position)
  have hlength : (ts.drop c.position).length = ts.length - c.position := List.length_drop
  obtain ⟨result, n, hn, hc, hp⟩ := perform_spec h.depth call
  obtain ⟨result', m, hm, hc', hp'⟩ := perform_spec hnew.depth call
  have hleft := h.left_eq
  have hleft' : (ofTokens (ts.drop c.position)).left = ts.length - c.position :=
    hnew.left_eq.trans hlength
  rw [hc, hc']
  rcases Nat.lt_or_eq_of_le h.position with hlt | hend
  · -- while tokens are left, both are the same parser
    have hsame : c.parser = (ofTokens (ts.drop c.position)).parser := by
      rw [h.parser_eq, parser_ofTokens, Parser.ofTokens, endOf_drop hlt]
    rw [hsame, hp'] at hp
    obtain ⟨hresult, hparser⟩ := Prod.mk.inj hp
    have hrest := congrArg (fun p : Parser => p.rest.length) hparser
    simp only [parser, rest_length, skip_left] at hrest
    refine ⟨?_, fun _ => hresult.symm, fun hend => absurd hlt (by omega)⟩
    simp only [skip, ofTokens]
    omega
  · have hnil : ts.drop c.position = [] := List.drop_eq_nil_of_le (by omega)
    rw [h.parser_eq, hnil, Parser.perform_nil] at hp
    rw [hnil] at hp'
    rw [parser_ofTokens, Parser.ofTokens, Parser.perform_nil] at hp'
    refine ⟨?_, fun hlt => absurd hend (by omega), fun _ =>
      ⟨(Prod.mk.inj hp).1.symm, (Prod.mk.inj hp').1.symm⟩⟩
    simp only [skip, ofTokens]
    omega

theorem Stands.perform_forward (h : c.Stands ts) (call : Call) :
    c.position ≤ (c.perform call).2.position ∧
      ∀ v, call = .expression → (c.perform call).1 = .ok v →
        c.position < (c.perform call).2.position := by
  obtain ⟨result, n, _, hc, hp⟩ := perform_spec h.depth call
  rw [hc]
  refine ⟨Nat.le_add_right c.position n, ?_⟩
  rintro v rfl rfl
  have hshort := Parser.expression_shortens hp
  simp only [parser, rest_length, skip_left] at hshort
  simp only [skip]
  omega

end

end Cursor

/-- A parser survives its own errors. Whatever calls were made on it before, and whatever they
gave, it is inside of no expression between calls, it never goes back and never past the end,
and a call does what it does on a new parser for the tokens that are left. Where no tokens are
left, the end of the input is behind the last token for the one and at the start for the
other. So no nesting is held against a call but that of the tokens it reads itself. The
parser with a cursor and the parser that holds the tokens ahead give the same throughout. -/
theorem parser_resumes_as_new (ts : List Token) (hq : WellQuoted ts) (calls : List Call)
    (call : Call) :
    let c := (Cursor.ofTokens ts).performAll calls
    let after := (c.perform call).2
    let result := (c.perform call).1
    let fresh := (Cursor.ofTokens (ts.drop c.position)).perform call
    c.Stands ts ∧ after.Stands ts ∧ c.position ≤ after.position ∧
      (∀ v, call = .expression → result = .ok v → c.position < after.position) ∧
      after.position = c.position + fresh.2.position ∧
      (c.position < ts.length → result = fresh.1) ∧
      (c.position = ts.length → result = call.atEnd (endOf ts) ∧ fresh.1 = call.atEnd 0) ∧
      (∀ span, result = .error (.tooDeep span) ↔ fresh.1 = .error (.tooDeep span)) ∧
      (∀ t, result ≠ .error (.unquoted t)) ∧
      ((Parser.ofTokens ts).performAll calls).perform call =
        (result, ⟨endOf ts, ts.drop after.position⟩) := by
  intro c after result fresh
  have hc : c.Stands ts := (Cursor.stands_ofTokens ts).performAll calls
  have hafter : after.Stands ts := hc.perform call
  have hparser : (Parser.ofTokens ts).performAll calls = c.parser :=
    (Cursor.stands_ofTokens ts).parser_performAll calls
  have hrest : WellQuoted c.parser.rest := by
    rw [hc.parser_eq]
    exact fun t ht => hq t (List.mem_of_mem_drop ht)
  have hcall : c.parser.perform call = (result, after.parser) := by
    obtain ⟨_, n, _, hcall, hp⟩ := Cursor.perform_spec hc.depth call
    simp only [result, after, hcall, hp]
  obtain ⟨hforward, htaken⟩ := hc.perform_forward call
  obtain ⟨hmoved, hsame, hend⟩ : after.position = c.position + fresh.2.position ∧
      (c.position < ts.length → result = fresh.1) ∧
      (c.position = ts.length → result = call.atEnd (endOf ts) ∧ fresh.1 = call.atEnd 0) :=
    hc.perform_new call
  refine ⟨hc, hafter, hforward, htaken, hmoved, hsame, hend, ?_, ?_, ?_⟩
  · intro span
    rcases Nat.lt_or_eq_of_le hc.position with hlt | heq
    · rw [hsame hlt]
    · rw [(hend heq).1, (hend heq).2]
      cases call <;> simp [Call.atEnd]
  · intro t ht
    have hne := Parser.perform_ne_unquoted hrest call t
    rw [hcall] at hne
    exact hne ht
  · rw [hparser, hcall, hafter.parser_eq]

/-- The limit on nesting is met in front of the first name, behind 128 brackets. The call
after that reads the name. -/
theorem expression_after_too_deep :
    let ts := List.replicate 128 (Token.mk .punctuation "[" 0) ++
      [⟨.identifier, "x", 0⟩, ⟨.identifier, "y", 0⟩]
    let c := (Cursor.ofTokens ts).performAll [.expression]
    WellQuoted ts ∧ c.depth = 0 ∧ c.position = 128 ∧
      ((Cursor.ofTokens ts).perform .expression).1.isOk = false ∧
      (c.perform .expression).1 = ((Cursor.ofTokens (ts.drop 128)).perform .expression).1 ∧
      (c.perform .expression).1.isOk = true := by
  intro ts c
  have hq : WellQuoted ts := by
    intro t ht
    rcases List.mem_append.1 ht with ht | ht
    · simp [List.eq_of_mem_replicate ht]
    · rcases List.mem_cons.1 ht with rfl | ht <;> simp_all
  obtain ⟨hc, _, _, _, _, hsame, _⟩ := parser_resumes_as_new ts hq [.expression] .expression
  have hposition : c.position = 128 := by decide +kernel
  have hlt : c.position < ts.length := by simp [hposition, ts]
  refine ⟨hq, hc.depth, hposition, by decide +kernel, ?_, by decide +kernel⟩
  rw [← hposition]
  exact hsame hlt

end EmbeddedLisp
