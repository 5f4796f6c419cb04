import EmbeddedLisp.Proofs.Calling
import EmbeddedLisp.Proofs.Commuting
import EmbeddedLisp.Proofs.Scope

/-!
# What was printed and what was taken

The texts that a session prints, one behind another, tell what its output holds, and what
each printing function was told. An output may have room for some number of bytes only, it
may take everything, or it may refuse every flush. Each of the three is a regime: what is
held of all texts so far, and which text succeeds behind those before it. A log of the calls
carries a regime through every run, whatever fails on the way. Since no text succeeds that
is not held in full, the numbers reported never exceed what was taken.
-/

set_option autoImplicit false

namespace EmbeddedLisp

section
variable {σ : Type} {host : Host σ} {P : σ → List Event → Prop}

/-- A property of the state and the log that every answer of the host keeps. -/
def Host.Logs (host : Host σ) (P : σ → List Event → Prop) : Prop :=
  ∀ r args s log, P s log → P (host r args s).2 (log ++ [⟨r, args, (host r args s).1⟩])

/-- A machine with a log next to one without. -/
structure Records (P : σ → List Event → Prop) (m : Machine (σ × List Event)) (m' : Machine σ) :
    Prop where
  environment : m.environment = m'.environment
  world : m.world.1 = m'.world
  log : P m.world.1 m.world.2

theorem records_coupling (hP : host.Logs P) :
    Evaluation.Coupling host.recorded host (fun _ => True) (fun _ => True) (Records P) where
  lookup h _ := by rw [h.environment]
  define _ h _ := ⟨by rw [h.environment], h.world, h.log⟩
  answer r args h := by
    rw [← h.world]
    exact ⟨rfl, h.environment, rfl, hP r args _ _ h.log⟩

namespace Records
variable {m : Machine (σ × List Event)} {m' : Machine σ}

theorem evaluate (h : Records P m m') (hP : host.Logs P) (v : Value) :
    Records P (m.evaluate host.recorded v).2 (m'.evaluate host v).2 := by
  have hkeeps : ∀ u ∈ v.evaluated, u.Keeps (fun _ => True) (fun _ => True) :=
    fun _ _ => ⟨fun _ _ => trivial, fun _ _ => trivial⟩
  have hends : Evaluation.EndAlike (Records P) (fun _ => False)
      (Evaluation.evaluate host.recorded v m) (Evaluation.evaluate host v m') :=
    (records_coupling hP).coupled_evalAt (.refl 0) v hkeeps m m' h
  rw [Machine.evaluate_snd, Machine.evaluate_snd]
  exact hends.same.2

theorem perform (h : Records P m m') (hP : host.Logs P) (step : Step) :
    Records P (m.perform host.recorded step) (m'.perform host step) := by
  cases step with
  | define name v => exact (records_coupling hP).define v h trivial
  | get name => exact h
  | evaluate v => exact h.evaluate hP v
  | eval source =>
    simp only [Machine.perform, Machine.eval]
    cases readSource source with
    | error e => exact h
    | ok program => exact h.evaluate hP program
  | push => exact ⟨congrArg Environment.push h.environment, h.world, h.log⟩
  | pop => exact ⟨congrArg Environment.pop h.environment, h.world, h.log⟩

theorem performAll (h : Records P m m') (hP : host.Logs P) (steps : List Step) :
    Records P (m.performAll host.recorded steps) (m'.performAll host steps) := by
  induction steps generalizing m m' with
  | nil => exact h
  | cons step steps ih => exact ih (h.perform hP step)

end Records

def Machine.recordAll (host : Host σ) (steps : List Step) (m : Machine σ) :
    Machine (σ × List Event) :=
  Machine.performAll host.recorded steps ⟨m.environment, m.world, []⟩

theorem Machine.records_recordAll (hP : host.Logs P) (steps : List Step) (m : Machine σ)
    (hm : P m.world []) : Records P (m.recordAll host steps) (m.performAll host steps) :=
  Records.performAll ⟨rfl, rfl, hm⟩ hP steps

end

def Builtin.render? : Builtin → Option (List Value → List Char)
  | .print => some Format.joined
  | .printf => some Format.formatted
  | .println => some Format.line
  | _ => none

/-- A text that was to be printed, and what the function was told. -/
structure Printed where
  text : List UInt8
  reply : Reply

namespace Printed

def Succeeds (p : Printed) : Prop :=
  p.reply = .values [.int (Int64.ofNat p.text.length), .nil]

def Fails (p : Printed) : Prop := ∃ message, p.reply = .values [.int 0, .str message]

def count (p : Printed) : Int :=
  match p.reply with
  | .values (.int n :: _) => n.toInt
  | _ => 0

def reported (ps : List Printed) : Int := ps.foldl (fun total p => total + p.count) 0

theorem reported_snoc (ps : List Printed) (p : Printed) :
    reported (ps ++ [p]) = reported ps + p.count := by
  simp [reported]

def texts (ps : List Printed) : List UInt8 := ps.flatMap text

theorem texts_snoc (ps : List Printed) (p : Printed) : texts (ps ++ [p]) = texts ps ++ p.text := by
  simp [texts]

variable {p : Printed}

theorem Succeeds.count_le (h : p.Succeeds) : p.count ≤ p.text.length := by
  have hle : (p.text.length : Int).bmod Int64.size ≤ p.text.length := by
    rw [Int.bmod_def, Int64.size]
    split <;> omega
  rw [← Int64.toInt_ofNat'] at hle
  rw [count, h]
  exact hle

theorem Fails.count_eq (h : p.Fails) : p.count = 0 := by
  obtain ⟨message, hreply⟩ := h
  rw [count, hreply]
  rfl

end Printed

open Printed (texts)

def Event.printed? (event : Event) : Option Printed :=
  match event.reference with
  | .builtin b => b.render?.map fun render =>
    ⟨utf8 (String.ofList (render event.args)), event.reply⟩
  | .foreign _ => none

def printed (log : List Event) : List Printed := log.filterMap Event.printed?

theorem printed_snoc (log : List Event) (event : Event) :
    printed (log ++ [event]) = printed log ++ event.printed?.toList := by
  cases h : event.printed? <;> simp [printed, h]

/-- What an output holds of all texts so far, and which text succeeds behind those before
it. What succeeds is held in full. -/
structure Regime where
  holds : List UInt8 → List UInt8
  succeeds : List UInt8 → List UInt8 → Prop
  empty : holds [] = []
  grows : ∀ before text, (holds before).length ≤ (holds (before ++ text)).length
  full : ∀ before text, succeeds before text →
    (holds before).length + text.length ≤ (holds (before ++ text)).length

namespace Regime

def unlimited : Regime where
  holds before := before
  succeeds _ _ := True
  empty := rfl
  grows _ _ := by simp
  full _ _ _ := by simp

def unflushed : Regime where
  holds before := before
  succeeds _ _ := False
  empty := rfl
  grows _ _ := by simp
  full _ _ h := h.elim

def limited (n : Nat) : Regime where
  holds before := before.take n
  succeeds before text := text = [] ∨ before.length + text.length ≤ n
  empty := List.take_nil
  grows before text := by simp only [List.length_take, List.length_append]; omega
  full before text h := by
    obtain rfl | h := h
    · simp
    · simp only [List.length_take, List.length_append]
      omega

inductive Ledger (r : Regime) : List Printed → Prop
  | nil : Ledger r []
  | snoc {ps : List Printed} {p : Printed} : Ledger r ps → p.Succeeds ∨ p.Fails →
      (p.Succeeds ↔ r.succeeds (texts ps) p.text) → Ledger r (ps ++ [p])

variable {r : Regime} {ps : List Printed}

theorem Ledger.call (h : r.Ledger ps) {before after : List Printed} {p : Printed}
    (hps : ps = before ++ p :: after) :
    (p.Succeeds ↔ r.succeeds (texts before) p.text) ∧ (p.Succeeds ∨ p.Fails) := by
  induction h generalizing after with
  | nil => simp at hps
  | snoc hledger hends hiff ih =>
    obtain rfl | ⟨init, last, rfl⟩ := List.eq_nil_or_concat after
    · obtain ⟨rfl, hlast⟩ := List.append_inj' hps rfl
      obtain rfl := List.head_eq_of_cons_eq hlast
      exact ⟨hiff, hends⟩
    · rw [List.concat_eq_append, ← List.cons_append, ← List.append_assoc] at hps
      exact ih (List.append_inj' hps rfl).1

theorem Ledger.mem (h : r.Ledger ps) {p : Printed} (hp : p ∈ ps) :
    ∃ before, (p.Succeeds ↔ r.succeeds before p.text) ∧ (p.Succeeds ∨ p.Fails) := by
  obtain ⟨before, after, hps⟩ := List.append_of_mem hp
  exact ⟨texts before, h.call hps⟩

theorem Ledger.reported_le (h : r.Ledger ps) :
    Printed.reported ps ≤ (r.holds (texts ps)).length := by
  induction h with
  | nil => simp [Printed.reported]
  | @snoc ps p _ hends hiff ih =>
    rw [Printed.reported_snoc, Printed.texts_snoc]
    obtain hok | hfails := hends
    · have hfull := r.full _ _ (hiff.1 hok)
      have hcount := hok.count_le
      omega
    · have hgrows := r.grows (texts ps) p.text
      rw [hfails.count_eq]
      omega

end Regime

variable {ω : Type} {w : Writer ω} {isOpen : ω → Prop} {taken : ω → List UInt8} {r : Regime}

/-- From an open state that holds what the regime says, the writer goes on as it says. -/
def Writer.Obeys (w : Writer ω) (isOpen : ω → Prop) (taken : ω → List UInt8) (r : Regime) : Prop :=
  ∀ {s : ω} {before : List UInt8} (bytes : List UInt8), isOpen s → taken s = r.holds before →
    ∃ result s', w.emit bytes s = (result, s') ∧ isOpen s' ∧
      taken s' = r.holds (before ++ bytes) ∧ (result = .ok () ↔ r.succeeds before bytes)

theorem Writer.Accepts.obeys (hw : w.Accepts isOpen taken) : w.Obeys isOpen taken .unlimited := by
  intro s before bytes hs hbefore
  obtain ⟨s', hemit, hopen, htaken⟩ := hw.emit bytes hs
  exact ⟨.ok (), s', hemit, hopen, by rw [htaken, hbefore]; rfl, by simp [Regime.unlimited]⟩

/-- The writer takes every write, at least in part, and refuses every flush. -/
structure Writer.RefusesFlushes (w : Writer ω) (isOpen : ω → Prop) (taken : ω → List UInt8) : Prop
    extends w.Takes isOpen taken where
  flush {s : ω} : isOpen s → ∃ message s',
    w.flush s = (.error message, s') ∧ isOpen s' ∧ taken s' = taken s

theorem Writer.RefusesFlushes.obeys (hw : w.RefusesFlushes isOpen taken) :
    w.Obeys isOpen taken .unflushed := by
  intro s before bytes hs hbefore
  obtain ⟨s₁, hwrite, hopen, htaken⟩ := hw.toTakes.writeAll bytes hs
  obtain ⟨message, s₂, hflush, hopen', htaken'⟩ := hw.flush hopen
  refine ⟨.error message, s₂, ?_, hopen', ?_, by simp [Regime.unflushed]⟩
  · rw [Writer.emit, hwrite]
    exact hflush
  · rw [htaken', htaken, hbefore]
    rfl

/-- The writer takes so many bytes and no more. While there is room it takes every write, at
least in part. When it is full it refuses them. It never refuses a flush. -/
structure Writer.Limited (w : Writer ω) (isOpen : ω → Prop) (taken : ω → List UInt8)
    (capacity : Nat) : Prop where
  write {s : ω} {bytes : List UInt8} : isOpen s → bytes ≠ [] → (taken s).length < capacity →
    ∃ n s', w.write bytes s = (.ok (n + 1), s') ∧ n < bytes.length ∧ isOpen s' ∧
      taken s' = taken s ++ bytes.take (n + 1) ∧ (taken s').length ≤ capacity
  refuse {s : ω} {bytes : List UInt8} : isOpen s → bytes ≠ [] → capacity ≤ (taken s).length →
    ∃ message s', w.write bytes s = (.error message, s') ∧ isOpen s' ∧ taken s' = taken s
  flush {s : ω} : isOpen s → ∃ s', w.flush s = (.ok (), s') ∧ isOpen s' ∧ taken s' = taken s

namespace Writer.Limited
variable {capacity : Nat}

theorem writeAll (hw : w.Limited isOpen taken capacity) (bytes : List UInt8) {s : ω}
    (hs : isOpen s) :
    ∃ result s', w.writeAll bytes s = (result, s') ∧ isOpen s' ∧
      taken s' = taken s ++ bytes.take (capacity - (taken s).length) ∧
      (result = .ok () ↔ bytes = [] ∨ (taken s).length + bytes.length ≤ capacity) := by
  match bytes with
  | [] => exact ⟨.ok (), s, by rw [Writer.writeAll], hs, by simp, by simp⟩
  | b :: rest =>
    by_cases hroom : (taken s).length < capacity
    · obtain ⟨n, s₁, hwrite, hn, hopen, htaken, hle⟩ :=
        hw.write hs (List.cons_ne_nil b rest) hroom
      obtain ⟨result, s₂, hrest, hopen', htaken', hiff⟩ := writeAll hw (rest.drop n) hopen
      have hlen : (taken s₁).length = (taken s).length + (n + 1) := by
        rw [htaken, List.length_append, List.length_take, Nat.min_eq_left hn]
      refine ⟨result, s₂, ?_, hopen', ?_, ?_⟩
      · rw [Writer.writeAll, hwrite]
        exact hrest
      · have hsplit : capacity - (taken s).length =
            (n + 1) + (capacity - (taken s₁).length) := by omega
        rw [htaken', hsplit, List.take_add, htaken, List.append_assoc, List.drop_succ_cons]
      · rw [List.length_cons] at hn ⊢
        rw [hiff, hlen, List.length_drop, List.drop_eq_nil_iff]
        simp only [reduceCtorEq, false_or]
        omega
    · obtain ⟨message, s₁, hwrite, hopen, htaken⟩ :=
        hw.refuse hs (List.cons_ne_nil b rest) (Nat.not_lt.1 hroom)
      refine ⟨.error message, s₁, ?_, hopen, ?_, ?_⟩
      · rw [Writer.writeAll, hwrite]
      · rw [htaken, Nat.sub_eq_zero_of_le (Nat.not_lt.1 hroom), List.take_zero, List.append_nil]
      · simp only [reduceCtorEq, false_or, false_iff, List.length_cons]
        omega
termination_by bytes.length

theorem obeys (hw : w.Limited isOpen taken capacity) :
    w.Obeys isOpen taken (.limited capacity) := by
  intro s before bytes hs hbefore
  obtain ⟨result, s₁, hwrite, hopen, htaken, hiff⟩ := hw.writeAll bytes hs
  have hlen : (taken s).length = min capacity before.length := by
    rw [hbefore]
    exact List.length_take
  have hheld : taken s₁ = (before ++ bytes).take capacity := by
    have hroom : capacity - (taken s).length = capacity - before.length := by omega
    rw [htaken, hroom, hbefore, List.take_append]
    rfl
  have hsucceeds : (bytes = [] ∨ (taken s).length + bytes.length ≤ capacity) ↔
      (bytes = [] ∨ before.length + bytes.length ≤ capacity) := by
    rw [hlen, ← List.length_eq_zero_iff]
    omega
  cases result with
  | error message =>
    refine ⟨.error message, s₁, ?_, hopen, hheld, hiff.trans hsucceeds⟩
    rw [Writer.emit, hwrite]
  | ok =>
    obtain ⟨s₂, hflush, hopen', htaken'⟩ := hw.flush hopen
    refine ⟨.ok (), s₂, ?_, hopen', htaken'.trans hheld, hiff.trans hsucceeds⟩
    rw [Writer.emit, hwrite]
    exact hflush

end Writer.Limited

namespace Builtin
variable {b : Builtin} {render : List Value → List Char}

theorem run_of_render (h : b.render? = some render) (args : List Value) (s : ω) :
    b.run w args s = printText w (render args) s := by
  cases b <;> cases h <;> rfl

theorem run_silent (h : b.render? = none) (args : List Value) (s : ω) :
    (b.run w args s).2 = s := by
  cases b <;> first | rfl | cases h

theorem returns_of_render (h : b.render? = some render) : b.signature.returns = 2 := by
  cases b <;> cases h <;> rfl

theorem printText_told (text : List Char) (s : ω) :
    let p : Printed := ⟨utf8 (String.ofList text), (printText w text s).1⟩
    p.Succeeds ∨ p.Fails := by
  simp only [printText]
  split
  · exact .inl rfl
  · exact .inr ⟨_, rfl⟩

theorem printText_obeys (hw : w.Obeys isOpen taken r) (text : List Char) {s : ω}
    {before : List UInt8} (hs : isOpen s) (hbefore : taken s = r.holds before) :
    let p : Printed := ⟨utf8 (String.ofList text), (printText w text s).1⟩
    isOpen (printText w text s).2 ∧ taken (printText w text s).2 = r.holds (before ++ p.text) ∧
      (p.Succeeds ↔ r.succeeds before p.text) := by
  obtain ⟨result, s', hemit, hopen, htaken, hiff⟩ := hw (utf8 (String.ofList text)) hs hbefore
  simp only [printText, hemit]
  cases result with
  | ok => exact ⟨hopen, htaken, by simpa [Printed.Succeeds] using hiff⟩
  | error message => exact ⟨hopen, htaken, by simpa [Printed.Succeeds] using hiff⟩

end Builtin

/-- The output is open, it holds what the regime says of the texts in the log, and these went
as it says. -/
structure Kept (isOpen : ω → Prop) (taken : ω → List UInt8) (r : Regime) (s : ω)
    (log : List Event) : Prop where
  isOpen : isOpen s
  taken : taken s = r.holds (texts (printed log))
  ledger : r.Ledger (printed log)

theorem Kept.silent {s s' : ω} {log : List Event} {event : Event} (h : Kept isOpen taken r s log)
    (hevent : event.printed? = none) (hopen : isOpen s') (htaken : taken s' = taken s) :
    Kept isOpen taken r s' (log ++ [event]) := by
  have hprinted : printed (log ++ [event]) = printed log := by simp [printed_snoc, hevent]
  exact ⟨hopen, by rw [htaken, h.taken, hprinted], by rw [hprinted]; exact h.ledger⟩

theorem Kept.print {s s' : ω} {log : List Event} {event : Event} {p : Printed}
    (h : Kept isOpen taken r s log) (hevent : event.printed? = some p)
    (htold : p.Succeeds ∨ p.Fails) (hopen : isOpen s')
    (htaken : taken s' = r.holds (texts (printed log) ++ p.text))
    (hiff : p.Succeeds ↔ r.succeeds (texts (printed log)) p.text) :
    Kept isOpen taken r s' (log ++ [event]) := by
  have hprinted : printed (log ++ [event]) = printed log ++ [p] := by simp [printed_snoc, hevent]
  refine ⟨hopen, ?_, ?_⟩
  · rw [htaken, hprinted, Printed.texts_snoc]
  · rw [hprinted]
    exact .snoc h.ledger htold hiff

def Foreign.LeavesOutput (foreign : Foreign ω) (isOpen : ω → Prop) (taken : ω → List UInt8) :
    Prop :=
  ∀ number args s, isOpen s →
    isOpen (foreign number args s).2 ∧ taken (foreign number args s).2 = taken s

theorem Host.logs_kept {foreign : Foreign ω} (hw : w.Obeys isOpen taken r)
    (hf : foreign.LeavesOutput isOpen taken) :
    (Host.standard w foreign).Logs (Kept isOpen taken r) := by
  intro reference args s log h
  cases reference with
  | foreign number =>
    obtain ⟨hopen, htaken⟩ := hf number args s h.isOpen
    exact h.silent rfl hopen htaken
  | builtin b =>
    rw [Host.standard]
    cases hb : b.render? with
    | none =>
      rw [b.run_silent hb args s]
      exact h.silent (by simp [Event.printed?, hb]) h.isOpen rfl
    | some render =>
      rw [b.run_of_render hb args s]
      obtain ⟨hopen, htaken, hiff⟩ := Builtin.printText_obeys hw (render args) h.isOpen h.taken
      refine h.print ?_ (Builtin.printText_told (render args) s) hopen htaken hiff
      simp [Event.printed?, hb]

/-- The printing that steps do, as a log of the host has it. -/
def Machine.prints {σ : Type} (host : Host σ) (steps : List Step) (m : Machine σ) : List Printed :=
  printed (m.recordAll host steps).world.2

theorem Machine.kept_prints {foreign : Foreign ω} (hw : w.Obeys isOpen taken r)
    (hf : foreign.LeavesOutput isOpen taken) {m : Machine ω} (hm : isOpen m.world)
    (hnew : taken m.world = []) (steps : List Step) :
    taken (m.performAll (Host.standard w foreign) steps).world =
      r.holds (texts (m.prints (Host.standard w foreign) steps)) ∧
    r.Ledger (m.prints (Host.standard w foreign) steps) := by
  have hstart : Kept isOpen taken r m.world [] := ⟨hm, hnew.trans r.empty.symm, .nil⟩
  have hrun := Machine.records_recordAll (Host.logs_kept hw hf) steps m hstart
  exact ⟨by rw [← hrun.world]; exact hrun.log.taken, hrun.log.ledger⟩

namespace Evaluation
variable {σ : Type} {host : Host σ} {f : HostFunction} {args : List Value} {m : Machine σ}

theorem callValue_ok {outputs : List Value} {after : σ}
    (h : call host f args m.world = .ok outputs after) :
    callValue host args (.function f) m = .ok (bundle outputs) { m with world := after } := by
  change EStateM.map bundle (onWorld (call host f args)) m = _
  rw [EStateM.map, onWorld, h]

theorem callValue_error {stop : Stop} {after : σ}
    (h : call host f args m.world = .error stop after) :
    callValue host args (.function f) m = .error stop { m with world := after } := by
  change EStateM.map bundle (onWorld (call host f args)) m = _
  rw [EStateM.map, onWorld, h]

end Evaluation

open Evaluation

theorem callValue_print {foreign : Foreign ω} {b : Builtin} (hb : b.render?.isSome = true)
    (args : List Value) (m : Machine (ω × List Event)) :
    let host := (Host.standard w foreign).recorded
    (∃ e, Refused ⟨.builtin b, b.name, b.signature⟩ args e ∧
      callValue host args b.function m = .error (.error e) m) ∨
    ∃ p outputs m', p.reply = .values outputs ∧
      callValue host args b.function m = .ok (.apply outputs) m' ∧
      printed m'.world.2 = printed m.world.2 ++ [p] := by
  intro host
  obtain ⟨render, hb⟩ := Option.isSome_iff_exists.1 hb
  let f : HostFunction := ⟨.builtin b, b.name, b.signature⟩
  obtain ⟨_, received, _, hprepare⟩ | ⟨e, hrefused, hprepare⟩ := prepare_cases f args
  · right
    obtain ⟨x, y, hreply⟩ :
        ∃ x y, (Builtin.printText w (render received) m.world.1).1 = .values [x, y] := by
      obtain hok | ⟨message, hfails⟩ := Builtin.printText_told (w := w) (render received) m.world.1
      · exact ⟨_, _, hok⟩
      · exact ⟨_, _, hfails⟩
    have hhost : host f.reference received m.world =
        (.values [x, y], (Builtin.printText w (render received) m.world.1).2,
          m.world.2 ++ [⟨.builtin b, received, .values [x, y]⟩]) := by
      simp only [host, f, Host.recorded, Host.standard, b.run_of_render hb, hreply]
    have hanswered := answered_call host hprepare m.world
    rw [hhost] at hanswered
    generalize hended : call host f args m.world = ended at hanswered
    cases hanswered with
    | values _ =>
      refine ⟨⟨utf8 (String.ofList (render received)), .values [x, y]⟩, [x, y], _, rfl,
        callValue_ok hended, ?_⟩
      simp [printed_snoc, Event.printed?, hb]
    | returnArity hlen => exact absurd (b.returns_of_render hb).symm hlen
  · exact .inl ⟨e, hrefused, callValue_error (call_refused host hprepare m.world)⟩

theorem Sink.limited_writer (n : Nat) :
    Sink.writer.Limited (fun s => s.policy = .limited n) Sink.written n where
  write {s bytes} hs hne hroom := by
    have hlen := List.length_pos_iff.2 hne
    obtain ⟨k, hk⟩ : ∃ k, min bytes.length (n - s.written.length) = k + 1 :=
      Nat.exists_eq_succ_of_ne_zero (by omega)
    refine ⟨k, s.take (k + 1) bytes, ?_, by omega, hs, rfl, ?_⟩
    · simp only [Sink.writer, Sink.write, hs, if_neg (Nat.not_le.2 hroom), hk]
    · simp only [Sink.take, List.length_append, List.length_take]
      omega
  refuse {s bytes} hs hne hfull := by
    refine ⟨"limit reached", s, ?_, hs, rfl⟩
    simp only [Sink.writer, Sink.write, hs, if_pos hfull]
  flush {s} hs := by
    refine ⟨s, ?_, hs, rfl⟩
    simp only [Sink.writer, Sink.flush, hs]

theorem Sink.refusesFlushes_writer :
    Sink.writer.RefusesFlushes (fun s => s.policy = .refusesFlushes) Sink.written where
  write := (Sink.takes (.inr rfl)).write
  flush {s} hs := by
    refine ⟨"flush refused", s, ?_, hs, rfl⟩
    simp only [Sink.writer, Sink.flush, hs]

theorem Foreign.leavesOutput_none (isOpen : ω → Prop) (taken : ω → List UInt8) :
    (Foreign.none : Foreign ω).LeavesOutput isOpen taken :=
  fun _ _ _ hs => ⟨hs, rfl⟩

/-- Let the functions of the embedding program leave the output alone, and let it hold
nothing at first. After any steps an output with room for `n` bytes holds the first `n` bytes
of all that was to be printed. A call that is to print nothing succeeds, and another exactly
if it and all before it fit. An output that takes everything holds everything, and every call
succeeds. One that refuses every flush holds everything too, and every call fails. The
numbers that are reported add up to no more than what is held. The log that tells the calls
changes nothing else, and a call has the value that the log says. -/
theorem output_accounts_for_what_is_printed {ω : Type} (w : Writer ω) (foreign : Foreign ω)
    (isOpen : ω → Prop) (taken : ω → List UInt8) (hf : foreign.LeavesOutput isOpen taken)
    (m : Machine ω) (hm : isOpen m.world) (hnew : taken m.world = []) (steps : List Step) :
    let host := Host.standard w foreign
    let last := m.performAll host steps
    let ps := m.prints host steps
    (∀ n, w.Limited isOpen taken n → taken last.world = (texts ps).take n ∧
      ∀ before p after, ps = before ++ p :: after →
        (p.Succeeds ↔ p.text = [] ∨ (texts (before ++ [p])).length ≤ n) ∧
        (p.Succeeds ∨ p.Fails)) ∧
    (w.Accepts isOpen taken → taken last.world = texts ps ∧ ∀ p ∈ ps, p.Succeeds) ∧
    (w.RefusesFlushes isOpen taken → taken last.world = texts ps ∧ ∀ p ∈ ps, p.Fails) ∧
    ((∃ n, w.Limited isOpen taken n) ∨ w.Accepts isOpen taken ∨ w.RefusesFlushes isOpen taken →
      Printed.reported ps ≤ (taken last.world).length) ∧
    (m.recordAll host steps).environment = last.environment ∧
    (m.recordAll host steps).world.1 = last.world ∧
    ∀ b args, b.render?.isSome = true → ∀ m : Machine (ω × List Event),
      (∃ e, Refused ⟨.builtin b, b.name, b.signature⟩ args e ∧
        callValue host.recorded args b.function m = .error (.error e) m) ∨
      ∃ p outputs m', p.reply = .values outputs ∧
        callValue host.recorded args b.function m = .ok (.apply outputs) m' ∧
        printed m'.world.2 = printed m.world.2 ++ [p] := by
  intro host last ps
  have kept {r : Regime} (hw : w.Obeys isOpen taken r) :
      taken last.world = r.holds (texts ps) ∧ r.Ledger ps :=
    Machine.kept_prints hw hf hm hnew steps
  have hrecords : Records (fun _ _ => True) (m.recordAll host steps) last :=
    Machine.records_recordAll (fun _ _ _ _ _ => trivial) steps m trivial
  refine ⟨fun n hw => ?_, fun hw => ?_, fun hw => ?_, fun hw => ?_, hrecords.environment,
    hrecords.world, fun b args hb => callValue_print hb args⟩
  · obtain ⟨hheld, hledger⟩ := kept hw.obeys
    refine ⟨hheld, fun before p after hps => ?_⟩
    rw [Printed.texts_snoc, List.length_append]
    exact hledger.call hps
  · obtain ⟨hheld, hledger⟩ := kept hw.obeys
    refine ⟨hheld, fun p hp => ?_⟩
    obtain ⟨_, hiff, _⟩ := hledger.mem hp
    exact hiff.2 trivial
  · obtain ⟨hheld, hledger⟩ := kept hw.obeys
    refine ⟨hheld, fun p hp => ?_⟩
    obtain ⟨_, hiff, htold⟩ := hledger.mem hp
    exact htold.resolve_left hiff.1
  · have within {r : Regime} (hw : w.Obeys isOpen taken r) :
        Printed.reported ps ≤ (taken last.world).length := by
      rw [(kept hw).1]
      exact (kept hw).2.reported_le
    obtain ⟨n, hw⟩ | hw | hw := hw
    · exact within hw.obeys
    · exact within hw.obeys
    · exact within hw.obeys

/-- A print among the operands of another, one before a failure, and one of no text. Only
four bytes of it find room. -/
theorem nested_prints_fill_output :
    let host := Host.standard Sink.writer Foreign.none
    let steps : List Step := [
      .evaluate (.apply [Builtin.println.function, .apply [Builtin.print.function, .str "é"]]),
      .evaluate (.list [.apply [Builtin.print.function, .str "ab"], .apply [.int 1]]),
      .evaluate (.apply [Builtin.printf.function, .str ""])]
    let start : Sink.Policy → Machine Sink := fun policy => ⟨.standard, .ofPolicy policy⟩
    let prints := fun policy => (start policy).prints host steps
    ((start (.limited 4)).performAll host steps).world.written = [195, 169, 40, 50] ∧
    ((prints .unlimited).length = 4 ∧ ∀ p ∈ prints .unlimited, p.Succeeds) ∧
    ((prints .refusesFlushes).length = 4 ∧ ∀ p ∈ prints .refusesFlushes, p.Fails) := by
  intro host steps start prints
  have accounts (policy : Sink.Policy) := output_accounts_for_what_is_printed Sink.writer
    Foreign.none (fun s => s.policy = policy) Sink.written (Foreign.leavesOutput_none _ _)
    (start policy) rfl rfl steps
  have htexts : (texts (prints (.limited 4))).take 4 = [195, 169, 40, 50] := by decide +kernel
  refine ⟨((accounts (.limited 4)).1 4 (Sink.limited_writer 4)).1.trans htexts, ⟨?_, ?_⟩, ?_, ?_⟩
  · decide +kernel
  · exact ((accounts .unlimited).2.1 Sink.accepts_unlimited).2
  · decide +kernel
  · exact ((accounts .refusesFlushes).2.2.1 Sink.refusesFlushes_writer).2

end EmbeddedLisp
