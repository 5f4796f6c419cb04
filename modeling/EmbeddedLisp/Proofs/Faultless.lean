import EmbeddedLisp.Proofs.Bytes
import EmbeddedLisp.Proofs.Native
import EmbeddedLisp.Proofs.Prefixes

/-!
# Source texts cause no internal fault

A checked session makes every operation that has no result on some operands a fault of its
own: a text cut inside a character, the inside of a literal too short to have one, a call
outside of what a built-in function is written for. From the start on, whatever texts come
in and however the earlier ones ended, it is the plain session. No answer is an internal
error or blames a function for the number of its results.
-/

set_option autoImplicit false

namespace EmbeddedLisp

namespace Reader

/-- The inside of a literal by byte offsets: all but the first and the last byte. -/
def bodySlice? (text : List Char) : Option (List Char) :=
  if 2 ≤ byteLength text then slice? 1 (byteLength text - 2) text else none

theorem stringBody?_ends (first last : Char) (body : List Char) :
    stringBody? (first :: (body ++ [last])) =
      if first.utf8Size = 1 ∧ last.utf8Size = 1 then some body else none := by
  cases body with
  | nil => simp [stringBody?]
  | cons c body =>
    rw [List.cons_append, stringBody?]
    simp only [← List.cons_append, List.getLast_concat, List.dropLast_concat]

theorem bodySlice?_ends (first last : Char) (body : List Char) :
    bodySlice? (first :: (body ++ [last])) =
      if first.utf8Size = 1 ∧ last.utf8Size = 1 then some body else none := by
  have hfirst := first.utf8Size_pos
  have hlast := last.utf8Size_pos
  have hlen : byteLength (first :: (body ++ [last])) =
      first.utf8Size + (byteLength body + last.utf8Size) := by simp
  rw [bodySlice?, hlen, if_pos (by omega), slice?]
  by_cases hf : first.utf8Size = 1
  · have hcut := cutAt?_append [first] (body ++ [last])
    rw [byteLength_cons, byteLength_nil, hf, List.singleton_append] at hcut
    simp only [hcut, hf, true_and]
    by_cases hl : last.utf8Size = 1
    · rw [if_pos hl, hl, show 1 + (byteLength body + 1) - 2 = byteLength body by omega,
        cutAt?_append]
      rfl
    · rw [if_neg hl, show 1 + (byteLength body + last.utf8Size) - 2 =
        byteLength body + (last.utf8Size - 1) by omega,
        cutAt?_inside body last [] (by omega) (by omega)]
      rfl
  · have hcut : cutAt? 1 (first :: (body ++ [last])) = none :=
      cutAt?_inside [] first (body ++ [last]) Nat.one_pos (by omega)
    simp [hcut, hf]

theorem bodySlice?_eq (text : List Char) : bodySlice? text = stringBody? text := by
  match text with
  | [] => rfl
  | [c] =>
    by_cases hc : c.utf8Size = 1
    · simp [bodySlice?, stringBody?, hc]
    · have := c.utf8Size_pos
      have hcut : cutAt? 1 [c] = none := cutAt?_inside [] c [] Nat.one_pos (by omega)
      simp [bodySlice?, slice?, stringBody?, hcut]
  | first :: c :: rest =>
    rw [← List.dropLast_concat_getLast (l := c :: rest) (by simp), bodySlice?_ends,
      stringBody?_ends]

end Reader

namespace Environment

def stack (e : Environment) : List (Bindings Value) := e.frames.reverse

/-- Binds a name in the last frame of a stack, which has to be there. -/
def bindLast? (stack : List (Bindings Value)) (name : String) (v : Value) :
    Option (List (Bindings Value)) :=
  (stack[stack.length - 1]?).map fun frame => stack.set (stack.length - 1) (frame.insert name v)

theorem bindLast?_stack (e : Environment) (name : String) (v : Value) :
    bindLast? e.stack name v = some (e.define name v).stack := by
  simp [bindLast?, stack, frames, define]

end Environment

/-- What nothing contains: it would end the program in the middle of a session. -/
inductive Panic where
  | cut (e : BadCut)
  | slice (literal : Token)

def readChecked (source : String) : Except Panic (Except Error Value) :=
  match (Lexer.ofSource none source).runBytes with
  | .error e => .error (.cut e)
  | .ok scan =>
    match scan.fault with
    | some e => .ok (.error (.tokenize e))
    | none =>
      match readProgram scan.tokens with
      | .error (.unquoted literal) => .error (.slice literal)
      | .error e => .ok (.error (.reader e))
      | .ok program => .ok (.ok program)

theorem readProgram_ne_unquoted {source : String} {ts : List Token} (h : tokenize source = .ok ts)
    (literal : Token) : readProgram ts ≠ .error (.unquoted literal) :=
  fun he => readProgram_error (wellQuoted_of_tokenize h) he

theorem readChecked_eq (source : String) : readChecked source = .ok (readSource source) := by
  unfold readChecked readSource readWith
  rw [Lexer.runBytes_eq]
  cases hf : (Lexer.ofSource none source).run.fault with
  | some e => simp [tokenize, hf]
  | none =>
    have ht : tokenize source = .ok (Lexer.ofSource none source).run.tokens := by
      simp [tokenize, hf]
    simp only [hf, ht]
    cases hr : readProgram (Lexer.ofSource none source).run.tokens with
    | ok program => rfl
    | error e =>
      cases e with
      | unquoted literal => exact absurd hr (readProgram_ne_unquoted ht literal)
      | _ => rfl

theorem readSource_ne_evaluation (source : String) (e : Evaluation.Error) :
    readSource source ≠ .error (.evaluation e) := by
  unfold readSource readWith
  split
  · simp
  · split <;> simp

inductive Request where
  | eval (source : String)
  | execute (source : String)

abbrev Answer := Except Machine.Halt (Option Value)

def Answer.isExit : Answer → Bool
  | .error (.exited _) => true
  | _ => false

namespace Machine
variable {σ ω : Type}

def respond (host : Host σ) (m : Machine σ) : Request → Answer × Machine σ
  | .eval source =>
    let (result, m) := m.eval host source
    (result.map some, m)
  | .execute source =>
    let (result, m) := m.execute host source
    (result.map fun _ => none, m)

/-- Requests one after another, whatever the earlier answers are. An exit ends the run. -/
def session (host : Host σ) : List Request → Machine σ → List Answer × Machine σ
  | [], m => ([], m)
  | request :: requests, m =>
    let (answer, m) := m.respond host request
    if answer.isExit then ([answer], m)
    else
      let (answers, m) := session host requests m
      (answer :: answers, m)

def evalChecked (w : Writer ω) (source : String) (m : Machine ω) :
    Except Panic (Except Halt Value × Machine ω) :=
  match readChecked source with
  | .error panic => .error panic
  | .ok (.error e) => .ok (.error (.error e), m)
  | .ok (.ok program) => .ok (m.evaluate (Host.guarded w) program)

def respondChecked (w : Writer ω) (m : Machine ω) : Request → Except Panic (Answer × Machine ω)
  | .eval source => (m.evalChecked w source).map fun (result, m) => (result.map some, m)
  | .execute source => (m.evalChecked w source).map fun (result, m) => (result.map fun _ => none, m)

def sessionChecked (w : Writer ω) : List Request → Machine ω →
    Except Panic (List Answer × Machine ω)
  | [], m => .ok ([], m)
  | request :: requests, m =>
    match m.respondChecked w request with
    | .error panic => .error panic
    | .ok (answer, m) =>
      if answer.isExit then .ok ([answer], m)
      else (sessionChecked w requests m).map fun (answers, m) => (answer :: answers, m)

def Faultless {α : Type} (result : Except Halt α) : Prop :=
  ∀ e, result = .error (.error (.evaluation e)) → e.isFault = false

theorem Faultless.map {α β : Type} {result : Except Halt α} (h : Faultless result) (f : α → β) :
    Faultless (result.map f) := by
  cases result with
  | ok v => simp [Faultless, Except.map]
  | error halt => exact fun e he => h e (by simpa [Except.map] using he)

variable (w : Writer ω) (foreign : Foreign ω) {m : Machine ω}

theorem evaluate_guarded (hm : m.environment.Native) {program : Value} (hp : program.Native) :
    m.evaluate (Host.guarded w) program = m.evaluate (Host.standard w foreign) program ∧
      Faultless (m.evaluate (Host.standard w foreign) program).1 ∧
      (m.evaluate (Host.standard w foreign) program).2.environment.Native := by
  obtain ⟨heq, hs⟩ := Evaluation.agree_evalAt w foreign (some Evaluation.depthLimit) hp 0 m hm
  unfold Machine.evaluate Evaluation.evaluate
  rw [← heq]
  generalize Evaluation.evalAt (Host.standard w foreign) _ program 0 m = ended at hs
  cases ended with
  | ok v left => exact ⟨rfl, by simp [Faultless], hs.2⟩
  | error stop left =>
    refine ⟨rfl, fun e he => ?_, hs.2⟩
    cases stop with
    | error e' =>
      obtain rfl : e' = e := by simpa [contain] using he
      exact hs.1
    | crashed detail => exact absurd hs.1 (by simp [Evaluation.Stop.isFault])
    | exited code => simp [contain] at he

theorem evalChecked_eq (hm : m.environment.Native) (source : String) :
    m.evalChecked w source = .ok (m.eval (Host.standard w foreign) source) ∧
      Faultless (m.eval (Host.standard w foreign) source).1 ∧
      (m.eval (Host.standard w foreign) source).2.environment.Native := by
  unfold evalChecked Machine.eval
  rw [readChecked_eq]
  cases hr : readSource source with
  | error e =>
    refine ⟨rfl, fun e' he => ?_, hm⟩
    obtain rfl : e = .evaluation e' := by simpa using he
    exact absurd hr (readSource_ne_evaluation source e')
  | ok program =>
    obtain ⟨heq, hf, hn⟩ := evaluate_guarded w foreign hm (native_of_readSource hr)
    exact ⟨congrArg Except.ok heq, hf, hn⟩

theorem respondChecked_eq (hm : m.environment.Native) (request : Request) :
    m.respondChecked w request = .ok (m.respond (Host.standard w foreign) request) ∧
      Faultless (m.respond (Host.standard w foreign) request).1 ∧
      (m.respond (Host.standard w foreign) request).2.environment.Native := by
  cases request with
  | eval source =>
    obtain ⟨heq, hf, hn⟩ := evalChecked_eq w foreign hm source
    exact ⟨by rw [respondChecked, heq]; rfl, hf.map some, hn⟩
  | execute source =>
    obtain ⟨heq, hf, hn⟩ := evalChecked_eq w foreign hm source
    refine ⟨?_, (hf.map fun _ => ()).map fun _ => none, hn⟩
    rw [respondChecked, heq, respond, execute]
    generalize m.eval (Host.standard w foreign) source = ended
    obtain ⟨result, left⟩ := ended
    cases result <;> rfl

theorem sessionChecked_eq (hm : m.environment.Native) (requests : List Request) :
    m.sessionChecked w requests = .ok (m.session (Host.standard w foreign) requests) ∧
      (∀ answer ∈ (m.session (Host.standard w foreign) requests).1, Faultless answer) ∧
      (m.session (Host.standard w foreign) requests).2.environment.Native := by
  induction requests generalizing m with
  | nil => exact ⟨rfl, by simp [session], hm⟩
  | cons request requests ih =>
    obtain ⟨heq, hf, hn⟩ := respondChecked_eq w foreign hm request
    rw [sessionChecked, session, heq]
    generalize m.respond (Host.standard w foreign) request = step at hf hn
    obtain ⟨answer, left⟩ := step
    by_cases hexit : answer.isExit = true
    · simp only [hexit, if_true]
      exact ⟨trivial, by simpa using hf, hn⟩
    · obtain ⟨hs, hfs, hns⟩ := ih hn
      simp only [hexit, hs]
      exact ⟨rfl, List.forall_mem_cons.2 ⟨hf, hfs⟩, hns⟩

end Machine

/-- Whatever texts a session is given, and however it went on with the earlier ones, none is
answered with an internal error, and no function is blamed for the number of its results.
The checked session, in which a cut inside a character, a literal without an inside and a
call beyond what a built-in function is written for are faults, is the plain one. Binding a
name finds the last frame. -/
theorem source_text_causes_no_fault {ω : Type} (w : Writer ω) (foreign : Foreign ω) (output : ω)
    (requests : List Request) :
    let session := (Machine.standard output).session (Host.standard w foreign) requests
    (∀ answer ∈ session.1,
      (∀ detail, answer ≠ .error (.error (.evaluation (.internal detail)))) ∧
      ∀ f got, answer ≠ .error (.error (.evaluation (.returnArity f got)))) ∧
    (Machine.standard output).sessionChecked w requests = .ok session ∧
    (∀ text, Reader.bodySlice? text = Reader.stringBody? text) ∧
    ∀ (e : Environment) (name : String) (v : Value),
      Environment.bindLast? e.stack name v = some (e.define name v).stack := by
  intro session
  obtain ⟨heq, hf, _⟩ := Machine.sessionChecked_eq w foreign
    (m := Machine.standard output) Environment.native_standard requests
  refine ⟨fun answer ha => ⟨?_, ?_⟩, heq, Reader.bodySlice?_eq, Environment.bindLast?_stack⟩
  · rintro detail rfl
    exact absurd (hf _ ha _ rfl) (by simp [Evaluation.Error.isFault])
  · rintro f got rfl
    exact absurd (hf _ ha _ rfl) (by simp [Evaluation.Error.isFault])

end EmbeddedLisp
