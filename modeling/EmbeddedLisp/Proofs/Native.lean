import EmbeddedLisp.Builtin.Basic
import EmbeddedLisp.Proofs.Forms
import EmbeddedLisp.Proofs.Reading

/-!
# Values without foreign functions

A value is native when every function in it, however deep, is a built-in one under its own
name and signature, and every drill in it has a base. All that is bound from the start is
native, what is read from a text is, and evaluation keeps it so. The built-in functions
are then called with the arguments for which they are written, and with no others: a host
that crashes on any other call makes no difference.
-/

set_option autoImplicit false

namespace EmbeddedLisp

namespace Bindings
variable {α : Type} {P : α → Prop} {b : Bindings α}

def All (P : α → Prop) (b : Bindings α) : Prop := ∀ binding ∈ b, P binding.2

theorem All.insert (h : All P b) (name : String) {value : α} (hv : P value) :
    All P (b.insert name value) := by
  induction b with
  | nil => simpa [All, Bindings.insert] using hv
  | cons entry rest ih =>
    obtain ⟨n, v⟩ := entry
    obtain ⟨hentry, hrest⟩ := List.forall_mem_cons.1 h
    simp only [Bindings.insert]
    split
    · exact List.forall_mem_cons.2 ⟨hv, h⟩
    · split
      · exact List.forall_mem_cons.2 ⟨hv, hrest⟩
      · exact List.forall_mem_cons.2 ⟨hentry, ih hrest⟩

theorem all_ofEntries {entries : List (String × α)} (h : ∀ entry ∈ entries, P entry.2) :
    All P (ofEntries entries) := by
  have extend (entries : List (String × α)) (h : ∀ entry ∈ entries, P entry.2) (b : Bindings α)
      (hb : All P b) : All P (entries.foldl (fun b entry => b.insert entry.1 entry.2) b) := by
    induction entries generalizing b with
    | nil => exact hb
    | cons entry rest ih =>
      obtain ⟨hentry, hrest⟩ := List.forall_mem_cons.1 h
      exact ih hrest _ (hb.insert entry.1 hentry)
  exact extend entries h [] (by simp [All])

theorem All.find? (h : All P b) {name : String} {value : α} (hf : find? name b = some value) :
    P value := by
  induction b with
  | nil => simp [Bindings.find?] at hf
  | cons entry rest ih =>
    obtain ⟨n, v⟩ := entry
    obtain ⟨hentry, hrest⟩ := List.forall_mem_cons.1 h
    simp only [Bindings.find?] at hf
    split at hf
    · exact Option.some.inj hf ▸ hentry
    · exact ih hrest hf

end Bindings

/-- Every function inside is a built-in one as it was bound, and every drill has a base. -/
inductive Value.Native : Value → Prop
  | nil : Native .nil
  | int (n : Int64) : Native (.int n)
  | float (x : Binary64) : Native (.float x)
  | str (text : String) : Native (.str text)
  | symbol (name : String) : Native (.symbol name)
  | apply {items : List Value} : (∀ v ∈ items, Native v) → Native (.apply items)
  | list {items : List Value} : (∀ v ∈ items, Native v) → Native (.list items)
  | map {entries : List (Value × Value)} : (∀ e ∈ entries, Native e.1) →
      (∀ e ∈ entries, Native e.2) → Native (.map entries)
  | drill {chain : List Value} : chain ≠ [] → (∀ v ∈ chain, Native v) → Native (.drill chain)
  | quote {body : Value} : Native body → Native (.quote body)
  | unquote {body : Value} : Native body → Native (.unquote body)
  | function (b : Builtin) : Native b.function
  | table {r : Reference Library} {name : String} {fields : Bindings Value} :
      (∀ field ∈ fields, Native field.2) → Native (.table r name fields)

def Environment.Native (e : Environment) : Prop :=
  ∀ frame ∈ e.frames, Bindings.All Value.Native frame

namespace Environment
variable {e : Environment}

theorem Native.get? (h : e.Native) {name : String} {v : Value} (hv : e.get? name = some v) :
    v.Native := by
  obtain ⟨frame, hmem, hf⟩ := List.exists_of_findSome?_eq_some hv
  exact (h frame hmem).find? hf

theorem Native.define (h : e.Native) (name : String) {v : Value} (hv : v.Native) :
    (e.define name v).Native := by
  obtain ⟨hinner, houter⟩ := List.forall_mem_cons.1 h
  exact List.forall_mem_cons.2 ⟨hinner.insert name hv, houter⟩

theorem native_standard : Environment.standard.Native := by
  have hentries : ∀ entry ∈ standardBindings, entry.2.Native := by
    intro entry hmem
    rcases List.mem_append.1 hmem with hl | hb
    · obtain ⟨l, _, rfl⟩ := List.mem_map.1 hl
      refine .table (Bindings.all_ofEntries fun field hf => ?_)
      obtain ⟨⟨name, b⟩, _, rfl⟩ := List.mem_map.1 hf
      exact .function b
    · obtain ⟨b, _, rfl⟩ := List.mem_map.1 hb
      exact .function b
  simpa [Environment.Native, frames, standard] using Bindings.all_ofEntries hentries

end Environment

namespace Evaluation
variable {σ α β : Type}

/-- Errors that no program is meant to cause. -/
def Error.isFault : Error → Bool
  | .internal _ | .returnArity _ _ => true
  | _ => false

def Stop.isFault : Stop → Bool
  | .error e => e.isFault
  | .crashed _ => true
  | .exited _ => false

def Proper (P : α → Prop) : Except Error α → Prop
  | .ok v => P v
  | .error e => e.isFault = false

theorem Proper.map {P : α → Prop} {Q : β → Prop} {r : Except Error α} {f : α → β}
    (h : Proper P r) (hf : ∀ v, P v → Q (f v)) : Proper Q (r.map f) := by
  cases r with
  | ok v => exact hf v h
  | error e => exact h

theorem item_proper {P : α → Prop} {items : List α} (h : ∀ v ∈ items, P v) (whole : Value)
    (i : Int64) : Proper P (item whole items i) := by
  unfold item
  split
  · next v hv =>
    split at hv
    · exact h v (List.mem_of_getElem? hv)
    · simp at hv
  · rfl

theorem entryValue_proper {entries : List (Value × Value)} (h : ∀ e ∈ entries, e.2.Native)
    (whole key : Value) : Proper Value.Native (entryValue whole entries key) := by
  unfold entryValue
  split
  · next entry he => exact h entry (List.mem_of_find?_eq_some he)
  · rfl

theorem field_proper {fields : Bindings Value} (h : Bindings.All Value.Native fields)
    (whole key : Value) (name : String) : Proper Value.Native (field whole fields key name) := by
  unfold field
  split
  · next v hv => exact h.find? hv
  · rfl

theorem access_proper {v : Value} (hv : v.Native) (key : Value) :
    Proper Value.Native (access v key) := by
  unfold access
  split
  · cases hv with | apply hitems => exact item_proper hitems _ _
  · cases hv with | list hitems => exact item_proper hitems _ _
  · cases hv with
    | map hkeys hvalues =>
      refine (item_proper (fun e he => And.intro (hkeys e he) (hvalues e he)) _ _).map ?_
      exact fun e he => .apply (by simpa using he)
  · cases hv with | map _ hvalues => exact entryValue_proper hvalues _ _
  · cases hv with | map _ hvalues => exact entryValue_proper hvalues _ _
  · cases hv with | table hfields => exact field_proper hfields _ _ _
  · cases hv with | table hfields => exact field_proper hfields _ _ _
  · rfl

theorem drill_proper {v : Value} (hv : v.Native) (keys : List Value) :
    Proper Value.Native (drill v keys) := by
  induction keys generalizing v with
  | nil => exact hv
  | cons key keys ih =>
    have ha := access_proper hv key
    unfold drill
    split
    · next w hw =>
      rw [hw] at ha
      exact ih ha
    · next e he =>
      rw [he] at ha
      exact ha

theorem addTo_proper (total : Int64) (v : Value) : Proper (fun _ => True) (addTo total v) := by
  unfold addTo
  split
  · split
    · trivial
    · rfl
  · rfl

theorem assignFault_proper {args : List Value} {e : Error} (h : assignFault args = some e) :
    e.isFault = false := by
  unfold assignFault at h
  split at h
  · simp at h
  · cases h; rfl
  · cases h; rfl

end Evaluation

theorem ParamType.accepts_zero (type : ParamType) : type.accepts type.zero = true := by
  cases type <;> rfl

theorem ParamType.native_zero (type : ParamType) : type.zero.Native := by
  cases type with
  | any => exact .nil
  | int => exact .int 0
  | float => exact .float _
  | str => exact .str ""

namespace Evaluation
variable {f : HostFunction} {args prepared : List Value}

theorem adapt_proper (ha : ∀ v ∈ args, v.Native) (position : Nat) :
    Proper (fun ws => ∀ w ∈ ws, w.Native) (adapt f position args) := by
  induction args generalizing position with
  | nil => exact fun w hw => absurd hw (by simp)
  | cons v args ih =>
    obtain ⟨hv, hargs⟩ := List.forall_mem_cons.1 ha
    have ih := ih hargs (position + 1)
    have pass {w : Value} (hw : w.Native) :
        Proper (fun ws => ∀ w ∈ ws, w.Native) ((adapt f (position + 1) args).map (w :: ·)) :=
      ih.map fun ws hws => List.forall_mem_cons.2 ⟨hw, hws⟩
    unfold adapt
    split
    · exact pass hv
    · next type _ =>
      split
      · exact pass type.native_zero
      · split
        · exact pass hv
        · rfl

theorem prepare_proper (ha : ∀ v ∈ args, v.Native) :
    Proper (fun ws => ∀ w ∈ ws, w.Native) (prepare f args) := by
  unfold prepare
  split
  · exact adapt_proper ha 0
  · rfl

theorem prepare_first {type : ParamType} {types : List ParamType}
    (hs : f.signature.params = type :: types) (h : prepare f args = .ok prepared) :
    ∃ w ws, prepared = w :: ws ∧ type.accepts w = true := by
  unfold prepare at h
  split at h
  · next hcount =>
    cases args with
    | nil =>
      unfold Signature.acceptsCount at hcount
      split at hcount <;> simp [hs] at hcount
    | cons v args =>
      have later {w : Value} (hw : type.accepts w = true)
          (hm : (adapt f 1 args).map (w :: ·) = .ok prepared) :
          ∃ w ws, prepared = w :: ws ∧ type.accepts w = true := by
        cases ha : adapt f 1 args with
        | error e => simp [ha, Except.map] at hm
        | ok ws =>
          rw [ha] at hm
          exact ⟨w, ws, (Except.ok.inj hm).symm, hw⟩
      have hp : f.signature.param? 0 = some type := by simp [Signature.param?, hs]
      simp only [adapt, hp] at h
      split at h
      · exact later type.accepts_zero h
      · split at h
        · next hacc => exact later hacc h
        · simp at h
  · simp at h

end Evaluation

namespace Builtin

/-- The arguments for which a built-in function is written. -/
def admits : Builtin → List Value → Bool
  | .print, _ | .println, _ | .list, _ => true
  | .printf, .str _ :: _ => true
  | .exit, .int _ :: _ => true
  | .symbol, .str _ :: _ => true
  | .integer _, _ :: _ | .float64, _ :: _ | .quote, _ :: _ => true
  | _, _ => false

def asBound (b : Builtin) : HostFunction := ⟨.builtin b, b.name, b.signature⟩

theorem admits_of_prepare {b : Builtin} {args prepared : List Value}
    (h : Evaluation.prepare b.asBound args = .ok prepared) : b.admits prepared = true := by
  cases b with
  | print => rfl
  | println => rfl
  | list => rfl
  | printf =>
    obtain ⟨w, ws, rfl, hw⟩ := Evaluation.prepare_first (f := asBound .printf) rfl h
    cases w <;> simp_all [ParamType.accepts, admits]
  | exit =>
    obtain ⟨w, ws, rfl, hw⟩ := Evaluation.prepare_first (f := asBound .exit) rfl h
    cases w <;> simp_all [ParamType.accepts, admits]
  | symbol =>
    obtain ⟨w, ws, rfl, hw⟩ := Evaluation.prepare_first (f := asBound .symbol) rfl h
    cases w <;> simp_all [ParamType.accepts, admits]
  | integer type =>
    obtain ⟨w, ws, rfl, _⟩ := Evaluation.prepare_first (f := asBound (.integer type)) rfl h
    rfl
  | float64 =>
    obtain ⟨w, ws, rfl, _⟩ := Evaluation.prepare_first (f := asBound .float64) rfl h
    rfl
  | quote =>
    obtain ⟨w, ws, rfl, _⟩ := Evaluation.prepare_first (f := asBound .quote) rfl h
    rfl

end Builtin

def Reply.Sound (returns : Nat) : Reply → Prop
  | .values outputs => outputs.length = returns ∧ ∀ v ∈ outputs, v.Native
  | .failed _ | .exited _ => True
  | .crashed _ => False

section
variable {ω : Type}

theorem Builtin.printText_sound (w : Writer ω) (text : List Char) (output : ω) :
    (printText w text output).1.Sound 2 := by
  unfold printText
  dsimp only
  split
  · exact ⟨rfl, by simp [Value.Native.int, Value.Native.nil]⟩
  · exact ⟨rfl, by simp [Value.Native.int, Value.Native.str]⟩

theorem Builtin.run_sound (w : Writer ω) {b : Builtin} {args : List Value}
    (hadmits : b.admits args = true) (hargs : ∀ v ∈ args, v.Native) (output : ω) :
    (b.run w args output).1.Sound b.signature.returns := by
  have single {v : Value} (hv : v.Native) : (Reply.values [v]).Sound 1 :=
    ⟨rfl, by simpa using hv⟩
  have first {b : Builtin} (h : b.admits args = true) (hnil : b.admits [] = false) :
      ∃ v rest, args = v :: rest := by
    cases args with
    | nil => simp [hnil] at h
    | cons v rest => exact ⟨v, rest, rfl⟩
  cases b with
  | print => exact printText_sound w _ output
  | printf => exact printText_sound w _ output
  | println => exact printText_sound w _ output
  | list => exact single (.list hargs)
  | exit =>
    obtain ⟨v, rest, rfl⟩ := first hadmits (by simp [admits])
    cases v with
    | int code => trivial
    | _ => simp [admits] at hadmits
  | symbol =>
    obtain ⟨v, rest, rfl⟩ := first hadmits (by simp [admits])
    cases v with
    | str name => exact single (.symbol name)
    | _ => simp [admits] at hadmits
  | integer type =>
    obtain ⟨v, rest, rfl⟩ := first hadmits (by simp [admits])
    simp only [run, unary, convertInteger]
    split
    · exact single (.int _)
    · trivial
  | float64 =>
    obtain ⟨v, rest, rfl⟩ := first hadmits (by simp [admits])
    simp only [run, unary, convertFloat]
    split
    · exact single (.float _)
    · exact single (.float _)
    · trivial
  | quote =>
    obtain ⟨v, rest, rfl⟩ := first hadmits (by simp [admits])
    exact single (.quote (hargs v (by simp)))

/-- The host that knows the built-in functions alone, and crashes when one is called with
arguments for which it is not written. -/
def Host.guarded (w : Writer ω) : Host ω
  | .builtin b, args, output =>
    if b.admits args then b.run w args output
    else (.crashed (some "arguments beyond the signature"), output)
  | .foreign _, _, output => (.crashed (some "foreign function"), output)

end

namespace Evaluation
variable {ω α β : Type}

/-- An evaluation ended with a value of the given property or without a fault, and left
nothing bound that is not native. -/
def Settled (P : α → Prop) : EStateM.Result Stop (Machine ω) α → Prop
  | .ok v m => P v ∧ m.environment.Native
  | .error stop m => stop.isFault = false ∧ m.environment.Native

/-- Two computations agree wherever all that is bound is native, and settle there. -/
def Agree (P : α → Prop) (act act' : Eval ω α) : Prop :=
  ∀ m, m.environment.Native → act m = act' m ∧ Settled P (act m)

section
variable {P : α → Prop} {Q : β → Prop}

theorem agree_pure {v : α} (hv : P v) : Agree P (pure v : Eval ω α) (pure v) :=
  fun _ hm => ⟨rfl, hv, hm⟩

theorem agree_fail {e : Error} (he : e.isFault = false) :
    Agree P (fail e : Eval ω α) (fail e) :=
  fun _ hm => ⟨rfl, he, hm⟩

theorem agree_lift {r : Except Error α} (hr : Proper P r) :
    Agree P (lift r : Eval ω α) (lift r) := by
  cases r with
  | ok v => exact agree_pure hr
  | error e => exact agree_fail hr

theorem agree_bind {act act' : Eval ω α} {f f' : α → Eval ω β} (ha : Agree P act act')
    (hf : ∀ v, P v → Agree Q (f v) (f' v)) : Agree Q (act >>= f) (act' >>= f') := by
  intro m hm
  obtain ⟨heq, hs⟩ := ha m hm
  change EStateM.bind act f m = EStateM.bind act' f' m ∧ Settled Q (EStateM.bind act f m)
  unfold EStateM.bind
  rw [← heq]
  cases hr : act m with
  | ok v left =>
    rw [hr] at hs
    exact hf v hs.1 left hs.2
  | error stop left =>
    rw [hr] at hs
    exact ⟨rfl, hs⟩

theorem agree_map {act act' : Eval ω α} {f : α → β} (ha : Agree P act act')
    (hf : ∀ v, P v → Q (f v)) : Agree Q (f <$> act) (f <$> act') := by
  rw [map_eq_pure_bind, map_eq_pure_bind]
  exact agree_bind ha fun v hv => agree_pure (hf v hv)

theorem agree_within {act act' : Eval ω α} (limit : Option Nat) (depth : Nat)
    (ha : Agree P act act') : Agree P (within limit depth act) (within limit depth act') := by
  unfold within
  split
  · exact ha
  · split
    · exact agree_fail rfl
    · exact ha

theorem agree_lookup (name : String) :
    Agree Value.Native (lookup name : Eval ω Value) (lookup name) := by
  intro m hm
  refine ⟨rfl, ?_, hm⟩
  cases hv : m.environment.get? name with
  | none => exact .nil
  | some v => exact hm.get? hv

theorem agree_define (name : String) {v : Value} (hv : v.Native) :
    Agree (fun _ => True) (define name v : Eval ω Unit) (define name v) :=
  fun _ hm => ⟨rfl, trivial, hm.define name hv⟩

end

theorem settle_sound {f : HostFunction} {reply : Reply} (h : reply.Sound f.signature.returns) :
    match settle f reply with
    | .ok outputs => ∀ v ∈ outputs, v.Native
    | .error stop => stop.isFault = false := by
  cases reply with
  | values outputs => simpa [settle, h.1] using h.2
  | failed message => rfl
  | exited code => rfl
  | crashed detail => exact h.elim

theorem agree_call (w : Writer ω) (foreign : Foreign ω) (b : Builtin) {args : List Value}
    (ha : ∀ v ∈ args, v.Native) :
    Agree (fun outputs => ∀ v ∈ outputs, v.Native)
      (onWorld (call (Host.standard w foreign) b.asBound args))
      (onWorld (call (Host.guarded w) b.asBound args)) := by
  intro m hm
  have hproper := prepare_proper (f := b.asBound) ha
  unfold onWorld call
  cases hp : prepare b.asBound args with
  | error e =>
    rw [hp] at hproper
    exact ⟨rfl, hproper, hm⟩
  | ok prepared =>
    rw [hp] at hproper
    have hadmits := Builtin.admits_of_prepare hp
    have hguarded : Host.guarded w b.asBound.reference prepared m.world =
        b.run w prepared m.world := if_pos hadmits
    have hstandard : Host.standard w foreign b.asBound.reference prepared m.world =
        b.run w prepared m.world := rfl
    have hs := settle_sound (f := b.asBound) (Builtin.run_sound w hadmits hproper m.world)
    simp only [hguarded, hstandard, true_and]
    cases hr : settle b.asBound (b.run w prepared m.world).1 with
    | ok outputs =>
      rw [hr] at hs
      exact ⟨hs, hm⟩
    | error stop =>
      rw [hr] at hs
      exact ⟨hs, hm⟩

theorem bundle_native {outputs : List Value} (h : ∀ v ∈ outputs, v.Native) :
    (bundle outputs).Native := by
  unfold bundle
  split
  · exact h _ (by simp)
  · exact .apply h

theorem agree_callValue (w : Writer ω) (foreign : Foreign ω) {args : List Value} {callee : Value}
    (ha : ∀ v ∈ args, v.Native) (hc : callee.Native) :
    Agree Value.Native (callValue (Host.standard w foreign) args callee)
      (callValue (Host.guarded w) args callee) := by
  cases hc with
  | function b => exact agree_map (agree_call w foreign b ha) fun _ => bundle_native
  | _ => exact agree_fail rfl

section
variable (w : Writer ω) (foreign : Foreign ω) (limit : Option Nat)

mutual

theorem agree_evalAt {v : Value} (hv : v.Native) (depth : Nat) :
    Agree Value.Native (evalAt (Host.standard w foreign) limit v depth)
      (evalAt (Host.guarded w) limit v depth) := by
  match v with
  | .apply items =>
    cases hv with
    | apply hitems =>
      simpa only [evalAt] using agree_within limit depth (agree_evalApply hitems (depth + 1))
  | .symbol name =>
    simpa only [evalAt] using agree_within limit depth (agree_lookup name)
  | .list items =>
    cases hv with
    | list hitems =>
      simpa only [evalAt] using agree_within limit depth
        (agree_map (agree_evalItems hitems (depth + 1)) fun _ => .list)
  | .map entries =>
    cases hv with
    | map hkeys hvalues =>
      simpa only [evalAt] using agree_within limit depth
        (agree_map (agree_evalEntries hkeys hvalues (depth + 1)) fun _ h => .map h.1 h.2)
  | .drill chain =>
    cases hv with
    | drill hne hchain =>
      simpa only [evalAt] using agree_within limit depth (agree_evalChain hne hchain (depth + 1))
  | .nil => simpa only [evalAt] using agree_within limit depth (agree_pure hv)
  | .int n => simpa only [evalAt] using agree_within limit depth (agree_pure hv)
  | .float x => simpa only [evalAt] using agree_within limit depth (agree_pure hv)
  | .str s => simpa only [evalAt] using agree_within limit depth (agree_pure hv)
  | .quote body => simpa only [evalAt] using agree_within limit depth (agree_pure hv)
  | .unquote body => simpa only [evalAt] using agree_within limit depth (agree_pure hv)
  | .function f => simpa only [evalAt] using agree_within limit depth (agree_pure hv)
  | .table r name fields => simpa only [evalAt] using agree_within limit depth (agree_pure hv)

theorem agree_evalApply {items : List Value} (hitems : ∀ v ∈ items, v.Native) (depth : Nat) :
    Agree Value.Native (evalApply (Host.standard w foreign) limit items depth)
      (evalApply (Host.guarded w) limit items depth) := by
  match items with
  | [] => simpa only [evalApply] using agree_pure .nil
  | callee :: args =>
    obtain ⟨hcallee, hargs⟩ := List.forall_mem_cons.1 hitems
    cases hf : Form.of? callee with
    | none =>
      rw [evalApply_call hf, evalApply_call hf]
      refine agree_bind (agree_evalAt hcallee depth) fun f hfn => ?_
      refine agree_bind (agree_evalItems hargs depth) fun ws hws => ?_
      exact agree_callValue w foreign hws hfn
    | some form =>
      cases form with
      | sequence =>
        rw [evalApply_sequence hf, evalApply_sequence hf]
        exact agree_evalSequence hargs .nil depth
      | sum =>
        rw [evalApply_sum hf, evalApply_sum hf]
        exact agree_evalSum hargs 0 depth
      | assign =>
        cases he : assignFault args with
        | some e =>
          rw [evalApply_assignFault hf he, evalApply_assignFault hf he]
          exact agree_fail (assignFault_proper he)
        | none =>
          obtain ⟨name, v, rfl⟩ := assignFault_eq_none he
          rw [evalApply_assign hf, evalApply_assign hf]
          refine agree_bind (agree_evalAt (hargs v (by simp)) depth) fun u hu => ?_
          exact agree_bind (agree_define name hu) fun _ _ => agree_pure .nil
      | access =>
        match args with
        | [] =>
          rw [evalApply_access_nil hf, evalApply_access_nil hf]
          exact agree_fail rfl
        | base :: keys =>
          rw [evalApply_access hf, evalApply_access hf]
          exact agree_evalChain (by simp) hargs depth

theorem agree_evalChain {chain : List Value} (hne : chain ≠ [])
    (hchain : ∀ v ∈ chain, v.Native) (depth : Nat) :
    Agree Value.Native (evalChain (Host.standard w foreign) limit chain depth)
      (evalChain (Host.guarded w) limit chain depth) := by
  match chain with
  | [] => exact absurd rfl hne
  | base :: keys =>
    simp only [evalChain]
    refine agree_bind (agree_evalAt (hchain base (by simp)) depth) fun u hu => ?_
    exact agree_lift (drill_proper hu keys)

theorem agree_evalSequence {vs : List Value} (hvs : ∀ v ∈ vs, v.Native) {last : Value}
    (hlast : last.Native) (depth : Nat) :
    Agree Value.Native (evalSequence (Host.standard w foreign) limit vs last depth)
      (evalSequence (Host.guarded w) limit vs last depth) := by
  match vs with
  | [] => simpa only [evalSequence] using agree_pure hlast
  | v :: vs =>
    obtain ⟨hv, hvs⟩ := List.forall_mem_cons.1 hvs
    simp only [evalSequence]
    exact agree_bind (agree_evalAt hv depth) fun u hu => agree_evalSequence hvs hu depth

theorem agree_evalSum {vs : List Value} (hvs : ∀ v ∈ vs, v.Native) (total : Int64)
    (depth : Nat) : Agree Value.Native (evalSum (Host.standard w foreign) limit vs total depth)
      (evalSum (Host.guarded w) limit vs total depth) := by
  match vs with
  | [] => simpa only [evalSum] using agree_pure (.int total)
  | v :: vs =>
    obtain ⟨hv, hvs⟩ := List.forall_mem_cons.1 hvs
    simp only [evalSum]
    refine agree_bind (agree_evalAt hv depth) fun u _ => ?_
    exact agree_bind (agree_lift (addTo_proper total u)) fun sum _ => agree_evalSum hvs sum depth

theorem agree_evalItems {vs : List Value} (hvs : ∀ v ∈ vs, v.Native) (depth : Nat) :
    Agree (fun ws => ∀ u ∈ ws, u.Native) (evalItems (Host.standard w foreign) limit vs depth)
      (evalItems (Host.guarded w) limit vs depth) := by
  match vs with
  | [] => simpa only [evalItems] using agree_pure (by simp)
  | v :: vs =>
    obtain ⟨hv, hvs⟩ := List.forall_mem_cons.1 hvs
    simp only [evalItems]
    refine agree_bind (agree_evalAt hv depth) fun u hu => ?_
    exact agree_bind (agree_evalItems hvs depth) fun us hus =>
      agree_pure (List.forall_mem_cons.2 ⟨hu, hus⟩)

theorem agree_evalEntries {es : List (Value × Value)} (hkeys : ∀ e ∈ es, e.1.Native)
    (hvalues : ∀ e ∈ es, e.2.Native) (depth : Nat) :
    Agree (fun fs => (∀ e ∈ fs, e.1.Native) ∧ ∀ e ∈ fs, e.2.Native)
      (evalEntries (Host.standard w foreign) limit es depth)
      (evalEntries (Host.guarded w) limit es depth) := by
  match es with
  | [] => simpa only [evalEntries] using agree_pure (by simp)
  | (k, v) :: es =>
    obtain ⟨hk, hkeys⟩ := List.forall_mem_cons.1 hkeys
    obtain ⟨hv, hvalues⟩ := List.forall_mem_cons.1 hvalues
    simp only [evalEntries]
    refine agree_bind (agree_evalAt hk depth) fun k' hk' => ?_
    refine agree_bind (agree_evalAt hv depth) fun v' hv' => ?_
    refine agree_bind (agree_evalEntries hkeys hvalues depth) fun fs hfs => ?_
    exact agree_pure ⟨List.forall_mem_cons.2 ⟨hk', hfs.1⟩, List.forall_mem_cons.2 ⟨hv', hfs.2⟩⟩

end

end

end Evaluation

namespace Grammar

theorem Leaf.native {t : Token} {v : Value} (h : Leaf t v) : v.Native := by
  cases h with
  | identifier _ => exact .symbol _
  | integer _ _ => exact .int _
  | float _ _ => exact .float _
  | string _ _ _ => exact .str _

theorem Accessors.native {ts : List Token} {keys : List Value} (h : Accessors ts keys) :
    ∀ v ∈ keys, v.Native := by
  induction h with
  | nil => simp
  | cons _ hl _ _ ih => exact List.forall_mem_cons.2 ⟨hl.native, ih⟩

theorem Sequence.forall {α : Type} {R : List Token → α → Prop} {P : α → Prop} {ts : List Token}
    {vs : List α} (h : Sequence R ts vs) (hR : ∀ ts v, R ts v → P v) : ∀ v ∈ vs, P v := by
  induction h with
  | nil => simp
  | cons hv _ ih => exact List.forall_mem_cons.2 ⟨hR _ _ hv, ih⟩

theorem native_closed : Closed fun _ v => v.Native where
  leaf hl := hl.native
  apply _ hs _ := .apply (hs.forall fun _ _ h => h)
  list _ hs _ := .list (hs.forall fun _ _ h => h)
  map _ hs _ := .map (hs.forall fun _ _ ⟨hk, _⟩ => hk) (hs.forall fun _ _ ⟨_, hv⟩ => hv)
  quote _ hb := .quote hb
  unquote _ hb := .unquote hb
  drill _ _ hb ha _ := .drill (by simp) (List.forall_mem_cons.2 ⟨hb, ha.native⟩)

end Grammar

theorem native_of_readSource {source : String} {program : Value}
    (h : readSource source = .ok program) : program.Native := by
  obtain ⟨ts, vs, _, rfl, hS, _⟩ := readSource_ok_iff.1 h
  have hvs := (hS.of_closed Grammar.native_closed).forall fun _ _ h => h
  exact .apply (List.forall_mem_cons.2 ⟨.symbol "do", hvs⟩)

end EmbeddedLisp
