import EmbeddedLisp.Evaluation.Call

/-!
# How host functions are called

A signature wants a number of arguments and a type at each position. Nil may stand at every
position, and the function gets the zero value of the type there in its place. The function
runs once if all arguments are as wanted, and otherwise not at all. To say how often it runs
and what it gets, a host can be given a log of all that it is asked.
-/

set_option autoImplicit false

namespace EmbeddedLisp

theorem Value.isNil_iff {v : Value} : v.isNil = true ↔ v = .nil := by
  cases v <;> simp [Value.isNil]

inductive ParamType.Holds : ParamType → Value → Prop
  | any (v : Value) : Holds .any v
  | int (n : Int64) : Holds .int (.int n)
  | float (x : Binary64) : Holds .float (.float x)
  | str (text : String) : Holds .str (.str text)

/-- What a function gets for nil. -/
inductive ParamType.Zero : ParamType → Value → Prop
  | any : Zero .any .nil
  | int : Zero .int (.int 0)
  | float : Zero .float (.float ⟨0⟩)
  | str : Zero .str (.str "")

namespace ParamType

theorem accepts_iff_holds {type : ParamType} {v : Value} :
    type.accepts v = true ↔ type.Holds v := by
  constructor
  · fun_cases accepts type v with
    | case1 v => exact fun _ => .any v
    | case2 n => exact fun _ => .int n
    | case3 x => exact fun _ => .float x
    | case4 text => exact fun _ => .str text
    | case5 => exact fun h => absurd h Bool.false_ne_true
  · rintro (_ | _ | _ | _) <;> rfl

theorem zero_zero (type : ParamType) : type.Zero type.zero := by
  cases type <;> constructor

theorem Zero.holds {type : ParamType} {v : Value} (h : type.Zero v) : type.Holds v := by
  cases h <;> constructor

theorem Holds.eq_any {type : ParamType} (h : type.Holds .nil) : type = .any := by
  cases h
  rfl

end ParamType

namespace Signature

/-- The type of a position is that of the parameter there, and behind all parameters that of
the further arguments, if there may be any. -/
inductive TypeAt (s : Signature) (position : Nat) (type : ParamType) : Prop
  | fixed : s.params[position]? = some type → TypeAt s position type
  | further : s.params.length ≤ position → s.variadic = some type → TypeAt s position type

def Allows (s : Signature) (count : Nat) : Prop :=
  count = s.params.length ∨ s.variadic.isSome ∧ s.params.length ≤ count

/-- Nil may stand at every position, another value only where its type is wanted. -/
def Admits (s : Signature) (position : Nat) (v : Value) : Prop :=
  v = .nil ∨ ∃ type, s.TypeAt position type ∧ type.Holds v

structure Accepts (s : Signature) (args : List Value) : Prop where
  count : s.Allows args.length
  admits : ∀ i v, args[i]? = some v → s.Admits i v

/-- The first argument that may not stand where it does. -/
structure FirstOffence (s : Signature) (args : List Value) (i : Nat) (type : ParamType)
    (v : Value) : Prop where
  arg : args[i]? = some v
  type : s.TypeAt i type
  refused : ¬ s.Admits i v
  first : ∀ j w, j < i → args[j]? = some w → s.Admits j w

inductive Becomes (s : Signature) (position : Nat) : Value → Value → Prop
  | kept {v : Value} : v ≠ .nil → Becomes s position v v
  | zero {type : ParamType} {v : Value} :
      s.TypeAt position type → type.Zero v → Becomes s position .nil v

structure Received (s : Signature) (args received : List Value) : Prop where
  length : received.length = args.length
  becomes : ∀ i v w, args[i]? = some v → received[i]? = some w → s.Becomes i v w

variable {s : Signature} {position : Nat} {type : ParamType}

theorem param?_eq_some_iff : s.param? position = some type ↔ s.TypeAt position type := by
  unfold param?
  constructor
  · split
    · next t ht => exact fun h => .fixed (ht.trans h)
    · next ht => exact .further (List.getElem?_eq_none_iff.1 ht)
  · rintro (hfixed | ⟨hlen, hvariadic⟩)
    · rw [hfixed]
    · rw [List.getElem?_eq_none hlen, hvariadic]

theorem acceptsCount_iff {count : Nat} : s.acceptsCount count = true ↔ s.Allows count := by
  unfold acceptsCount Allows
  cases s.variadic with
  | none => simp
  | some type =>
    simp only [decide_eq_true_eq, Option.isSome_some, true_and]
    omega

theorem Allows.typeAt {count : Nat} (h : s.Allows count) (hlt : position < count) :
    ∃ type, s.TypeAt position type := by
  by_cases hfixed : position < s.params.length
  · exact ⟨_, .fixed (List.getElem?_eq_getElem hfixed)⟩
  · obtain hcount | ⟨hvariadic, _⟩ := h
    · omega
    · obtain ⟨type, htype⟩ := Option.isSome_iff_exists.1 hvariadic
      exact ⟨type, .further (Nat.not_lt.1 hfixed) htype⟩

theorem TypeAt.unique {other : ParamType} (h : s.TypeAt position type)
    (h' : s.TypeAt position other) : type = other := by
  rw [← param?_eq_some_iff] at h h'
  exact Option.some.inj (h.symm.trans h')

theorem TypeAt.admits_iff {v : Value} (h : s.TypeAt position type) :
    s.Admits position v ↔ v = .nil ∨ type.Holds v := by
  refine or_congr_right ⟨?_, fun hv => ⟨type, h, hv⟩⟩
  rintro ⟨other, hother, hv⟩
  rwa [h.unique hother]

theorem Becomes.holds {v w : Value} (h : s.Becomes position v w) (hv : s.Admits position v)
    (ht : s.TypeAt position type) : type.Holds w := by
  cases h with
  | kept hne => exact (ht.admits_iff.1 hv).resolve_left hne
  | zero ht' hzero =>
    rw [ht.unique ht']
    exact hzero.holds

section
variable {args received : List Value} {v w : Value}

theorem getElem?_snoc {i : Nat} (h : (args ++ [v])[i]? = some w) :
    args[i]? = some w ∨ i = args.length ∧ w = v := by
  rcases Nat.lt_trichotomy i args.length with hlt | rfl | hgt
  · rw [List.getElem?_append_left hlt] at h
    exact .inl h
  · rw [List.getElem?_concat_length, Option.some.injEq] at h
    exact .inr ⟨rfl, h.symm⟩
  · rw [List.getElem?_eq_none (by simp; omega)] at h
    cases h

theorem Received.snoc (h : s.Received args received) (hw : s.Becomes args.length v w) :
    s.Received (args ++ [v]) (received ++ [w]) where
  length := by simp [h.length]
  becomes i a b ha hb := by
    obtain ha | ⟨rfl, rfl⟩ := getElem?_snoc ha
    · have hlt := (List.getElem?_eq_some_iff.1 ha).1
      rw [List.getElem?_append_left (h.length ▸ hlt)] at hb
      exact h.becomes i a b ha hb
    · rw [← h.length, List.getElem?_concat_length, Option.some.injEq] at hb
      exact hb ▸ hw

theorem admits_snoc (h : ∀ i a, args[i]? = some a → s.Admits i a)
    (hv : s.Admits args.length v) (i : Nat) (a : Value) (ha : (args ++ [v])[i]? = some a) :
    s.Admits i a := by
  obtain ha | ⟨rfl, rfl⟩ := getElem?_snoc ha
  · exact h i a ha
  · exact hv

theorem Received.holds (h : s.Received args received) (hargs : s.Accepts args) {i : Nat}
    (ht : s.TypeAt i type) (hw : received[i]? = some w) : type.Holds w := by
  have hlt : i < args.length := by
    rw [← h.length]
    exact (List.getElem?_eq_some_iff.1 hw).1
  have hv := List.getElem?_eq_getElem hlt
  exact (h.becomes i _ w hv hw).holds (hargs.admits i _ hv) ht

end

end Signature

namespace Evaluation

/-- How going through the arguments ends from some position on. What those in front of it
have become is `before`. -/
inductive Adapted (f : HostFunction) (args before : List Value) :
    Except Error (List Value) → Prop
  | ok {more : List Value} : (∀ i v, args[i]? = some v → f.signature.Admits i v) →
      f.signature.Received args (before ++ more) → Adapted f args before (.ok more)
  | error {i : Nat} {type : ParamType} {v : Value} : f.signature.FirstOffence args i type v →
      Adapted f args before (.error (.argumentType f i type v))

variable {f : HostFunction}

theorem Adapted.cons {args before : List Value} {v : Value} {rest : Except Error (List Value)}
    (h : Adapted f args (before ++ [v]) rest) : Adapted f args before (rest.map (v :: ·)) := by
  cases h with
  | ok hadmits hreceived =>
    refine .ok hadmits ?_
    rwa [List.append_assoc] at hreceived
  | error hoffence => exact .error hoffence

-- The induction is on the arguments that are left. Those that came before are part of the
-- statement, so that a position is always their number.
theorem adapted_adapt (passed left : List Value) {before : List Value}
    (hcount : f.signature.Allows (passed ++ left).length)
    (hadmits : ∀ i v, passed[i]? = some v → f.signature.Admits i v)
    (hbefore : f.signature.Received passed before) :
    Adapted f (passed ++ left) before (adapt f passed.length left) := by
  induction left generalizing passed before with
  | nil =>
    rw [List.append_nil]
    exact .ok hadmits (by rwa [List.append_nil])
  | cons v left ih =>
    obtain ⟨type, htype⟩ := hcount.typeAt (show passed.length < _ by simp)
    have next {w : Value} (hv : f.signature.Admits passed.length v)
        (hw : f.signature.Becomes passed.length v w) :
        Adapted f (passed ++ v :: left) before
          ((adapt f (passed.length + 1) left).map (w :: ·)) := by
      have hrest := ih (passed ++ [v]) (by simpa using hcount)
        (Signature.admits_snoc hadmits hv) (hbefore.snoc hw)
      simpa using hrest.cons
    rw [adapt, Signature.param?_eq_some_iff.2 htype]
    dsimp only
    split
    · next hnil =>
      rw [Value.isNil_iff] at hnil
      subst hnil
      exact next (.inl rfl) (.zero htype type.zero_zero)
    · next hnil =>
      rw [Value.isNil_iff] at hnil
      split
      · next haccepts =>
        exact next (.inr ⟨type, htype, ParamType.accepts_iff_holds.1 haccepts⟩) (.kept hnil)
      · next haccepts =>
        rw [ParamType.accepts_iff_holds] at haccepts
        refine .error ⟨by simp, htype, ?_, fun j w hj hw => ?_⟩
        · rw [htype.admits_iff]
          exact fun h => h.elim hnil haccepts
        · rw [List.getElem?_append_left hj] at hw
          exact hadmits j w hw

inductive Refused (f : HostFunction) (args : List Value) : Error → Prop
  | arity : ¬ f.signature.Allows args.length → Refused f args (.arity f args.length)
  | argumentType {i : Nat} {type : ParamType} {v : Value} : f.signature.Allows args.length →
      f.signature.FirstOffence args i type v → Refused f args (.argumentType f i type v)

theorem Refused.not_accepts {args : List Value} {e : Error} (h : Refused f args e) :
    ¬ f.signature.Accepts args := by
  intro haccepts
  cases h with
  | arity hcount => exact hcount haccepts.count
  | argumentType _ hoffence => exact hoffence.refused (haccepts.admits _ _ hoffence.arg)

theorem prepare_cases (f : HostFunction) (args : List Value) :
    (f.signature.Accepts args ∧
      ∃ received, f.signature.Received args received ∧ prepare f args = .ok received) ∨
    ∃ e, Refused f args e ∧ prepare f args = .error e := by
  unfold prepare
  by_cases hcount : f.signature.Allows args.length
  · rw [if_pos (Signature.acceptsCount_iff.2 hcount)]
    have hadapt : Adapted f args [] (adapt f 0 args) :=
      adapted_adapt [] args hcount (by simp) ⟨rfl, by simp⟩
    generalize adapt f 0 args = adapted at hadapt
    cases hadapt with
    | ok hadmits hreceived => exact .inl ⟨⟨hcount, hadmits⟩, _, hreceived, rfl⟩
    | error hoffence => exact .inr ⟨_, .argumentType hcount hoffence, rfl⟩
  · rw [if_neg (mt Signature.acceptsCount_iff.1 hcount)]
    exact .inr ⟨_, .arity hcount, rfl⟩

inductive Answered {τ : Type} (f : HostFunction) (after : τ) :
    Reply → EStateM.Result Stop τ (List Value) → Prop
  | values {outputs : List Value} : outputs.length = f.signature.returns →
      Answered f after (.values outputs) (.ok outputs after)
  | returnArity {outputs : List Value} : outputs.length ≠ f.signature.returns →
      Answered f after (.values outputs)
        (.error (.error (.returnArity f outputs.length)) after)
  | failed (message : String) :
      Answered f after (.failed message) (.error (.error (.host f message)) after)
  | crashed (detail : Option String) :
      Answered f after (.crashed detail) (.error (.crashed detail) after)
  | exited (code : Int64) : Answered f after (.exited code) (.error (.exited code) after)

variable {σ : Type}

theorem answered_call (host : Host σ) {args received : List Value}
    (h : prepare f args = .ok received) (world : σ) :
    Answered f (host f.reference received world).2 (host f.reference received world).1
      (call host f args world) := by
  unfold call
  rw [h]
  dsimp only
  cases (host f.reference received world).1 with
  | values outputs =>
    simp only [settle]
    by_cases hlen : outputs.length = f.signature.returns
    · rw [if_pos hlen]
      exact .values hlen
    · rw [if_neg hlen]
      exact .returnArity hlen
  | failed message => exact .failed message
  | crashed detail => exact .crashed detail
  | exited code => exact .exited code

theorem call_refused (host : Host σ) {args : List Value} {e : Error}
    (h : prepare f args = .error e) (world : σ) :
    call host f args world = .error (.error e) world := by
  unfold call
  rw [h]

end Evaluation

structure Event where
  reference : Reference Builtin
  args : List Value
  reply : Reply

section
variable {σ α : Type}

/-- A host that keeps a log of what it is asked. -/
def Host.recorded (host : Host σ) : Host (σ × List Event) := fun r args s =>
  ((host r args s.1).1, (host r args s.1).2, s.2 ++ [⟨r, args, (host r args s.1).1⟩])

namespace Evaluation

def unlogged : EStateM.Result Stop (σ × List Event) α → EStateM.Result Stop σ α
  | .ok v s => .ok v s.1
  | .error stop s => .error stop s.1

def logged : EStateM.Result Stop (σ × List Event) α → List Event
  | .ok _ s => s.2
  | .error _ s => s.2

theorem unlogged_call (host : Host σ) (f : HostFunction) (args : List Value) (world : σ)
    (log : List Event) :
    unlogged (call host.recorded f args (world, log)) = call host f args world := by
  unfold call Host.recorded
  cases prepare f args with
  | error e => rfl
  | ok received =>
    dsimp only
    cases settle f (host f.reference received world).1 <;> rfl

theorem Answered.logged {f : HostFunction} {after : σ × List Event} {reply : Reply}
    {ended : EStateM.Result Stop (σ × List Event) (List Value)} (h : Answered f after reply ended) :
    Evaluation.logged ended = after.2 := by
  cases h <;> rfl

end Evaluation

end

open Evaluation

/-- A host function is asked once if the number of arguments is allowed and each of them may
stand where it does, and otherwise not at all. It gets as many arguments, those that are not
nil as they are and zero values for nil, so that each has the type of its position and nil is
left only where any value may stand. What is wrong otherwise is the number of arguments or
else the first that may not stand there. The answer decides how the call ends. A position
that an allowed number of arguments reaches has a type. -/
theorem host_function_asked_once_if_accepted {σ : Type} (host : Host σ) (f : HostFunction)
    (args : List Value) (world : σ) (log : List Event) :
    (∃ events, logged (call host.recorded f args (world, log)) = log ++ events ∧
      events.length ≤ 1 ∧ (events.length = 1 ↔ f.signature.Accepts args)) ∧
    (f.signature.Accepts args → ∃ received, f.signature.Received args received ∧
      (∀ i type v, f.signature.TypeAt i type → received[i]? = some v →
        type.Holds v ∧ (v = .nil → type = .any)) ∧
      ∃ reply after, host f.reference received world = (reply, after) ∧
        Answered f (after, log ++ [⟨f.reference, received, reply⟩]) reply
          (call host.recorded f args (world, log))) ∧
    (¬ f.signature.Accepts args → ∃ e, Refused f args e ∧
      call host.recorded f args (world, log) = .error (.error e) (world, log)) ∧
    (f.signature.Allows args.length → ∀ i < args.length,
      ∃ type, f.signature.param? i = some type ∧ f.signature.TypeAt i type) ∧
    unlogged (call host.recorded f args (world, log)) = call host f args world := by
  have htyped : f.signature.Allows args.length → ∀ i < args.length,
      ∃ type, f.signature.param? i = some type ∧ f.signature.TypeAt i type := by
    intro hcount i hi
    obtain ⟨type, ht⟩ := hcount.typeAt hi
    exact ⟨type, Signature.param?_eq_some_iff.2 ht, ht⟩
  obtain ⟨haccepts, received, hreceived, hprepare⟩ | ⟨e, hrefused, hprepare⟩ :=
    prepare_cases f args
  · have hanswered := answered_call host.recorded hprepare (world, log)
    refine ⟨⟨_, hanswered.logged, by simp, by simpa using haccepts⟩, fun _ => ?_,
      fun hnot => absurd haccepts hnot, htyped, unlogged_call host f args world log⟩
    refine ⟨received, hreceived, fun i type v ht hv => ?_, _, _, rfl, hanswered⟩
    have hv := hreceived.holds haccepts ht hv
    exact ⟨hv, fun hnil => (hnil ▸ hv).eq_any⟩
  · have hnot := hrefused.not_accepts
    have hcall := call_refused host.recorded hprepare (world, log)
    refine ⟨⟨[], ?_, by simp, by simpa using hnot⟩, fun h => absurd h hnot,
      fun _ => ⟨e, hrefused, hcall⟩, htyped, unlogged_call host f args world log⟩
    rw [hcall, logged, List.append_nil]

theorem nil_becomes_zero_and_text_is_refused :
    let f : HostFunction := ⟨.foreign 0, "f", ⟨[.int], some .str, 1⟩⟩
    let host : Host Unit := fun _ args world => (.values [.list args], world)
    let received : List Value := [.int 0, .str "b"]
    f.signature.Accepts [.nil, .str "b"] ∧ ¬ f.signature.Accepts [.str "b"] ∧
    call host.recorded f [.nil, .str "b"] ((), []) =
      .ok [.list received] ((), [⟨f.reference, received, .values [.list received]⟩]) ∧
    call host.recorded f [.str "b"] ((), []) =
      .error (.error (.argumentType f 0 .int (.str "b"))) ((), []) := by
  intro f host received
  have hint : f.signature.TypeAt 0 .int := .fixed rfl
  have haccepts : f.signature.Accepts [.nil, .str "b"] := by
    refine ⟨.inr ⟨rfl, by decide⟩, fun i v hv => ?_⟩
    match i with
    | 0 =>
      obtain rfl : Value.nil = v := Option.some.inj hv
      exact .inl rfl
    | 1 =>
      obtain rfl : Value.str "b" = v := Option.some.inj hv
      exact .inr ⟨.str, .further (by decide) rfl, .str "b"⟩
    | i + 2 => cases hv
  have hrefused : ¬ f.signature.Admits 0 (.str "b") := by
    rw [hint.admits_iff]
    rintro (h | h) <;> cases h
  have hnot : ¬ f.signature.Accepts [.str "b"] := fun h => hrefused (h.admits 0 _ rfl)
  refine ⟨haccepts, hnot, ?_, ?_⟩
  · obtain ⟨got, hgot, _, reply, after, hreply, hanswered⟩ :=
      (host_function_asked_once_if_accepted host f [.nil, .str "b"] () []).2.1 haccepts
    obtain ⟨v, rest, rfl⟩ := List.exists_cons_of_length_eq_add_one hgot.length
    obtain ⟨w, rfl⟩ := List.length_eq_one_iff.1 (Nat.succ.inj hgot.length)
    obtain rfl : v = .int 0 := by
      cases hgot.becomes 0 .nil v rfl rfl with
      | kept h => exact absurd rfl h
      | zero ht hzero =>
        obtain rfl := ht.unique hint
        cases hzero
        rfl
    obtain rfl : w = .str "b" := by
      cases hgot.becomes 1 (.str "b") w rfl rfl with
      | kept _ => rfl
    cases hreply
    generalize call host.recorded f [.nil, .str "b"] ((), []) = ended at hanswered
    cases hanswered with
    | values _ => rfl
    | returnArity h => exact absurd rfl h
  · obtain ⟨e, he, hcall⟩ :=
      (host_function_asked_once_if_accepted host f [.str "b"] () []).2.2.1 hnot
    rw [hcall]
    cases he with
    | arity hcount => exact absurd (.inr ⟨rfl, by decide⟩) hcount
    | @argumentType i type v _ hoffence =>
      cases i with
      | zero =>
        obtain rfl : Value.str "b" = v := Option.some.inj hoffence.arg
        obtain rfl := hoffence.type.unique hint
        rfl
      | succ i => cases hoffence.arg

end EmbeddedLisp
