import EmbeddedLisp.Output.Sink
import EmbeddedLisp.Proofs.Footprint

/-!
# Independent statements commute

With an output that takes all that is written and functions that only look at their
arguments, a run has the same outcome and writes the same text wherever in a session it
stands. Two values of which neither sets what the other looks up or sets can then be
evaluated in either order. Only the order of their texts tells which came first.
-/

set_option autoImplicit false

namespace EmbeddedLisp
variable {ω : Type} {isOpen : ω → Prop} {taken : ω → List UInt8}

/-- From a state that is open the writer takes every write, at least in part. -/
structure Writer.Takes (w : Writer ω) (isOpen : ω → Prop) (taken : ω → List UInt8) : Prop where
  write {s : ω} {bytes : List UInt8} : isOpen s → bytes ≠ [] → ∃ n s',
    w.write bytes s = (.ok (n + 1), s') ∧ isOpen s' ∧ taken s' = taken s ++ bytes.take (n + 1)

theorem Writer.Takes.writeAll {w : Writer ω} (hw : w.Takes isOpen taken) (bytes : List UInt8)
    {s : ω} (hs : isOpen s) :
    ∃ s', w.writeAll bytes s = (.ok (), s') ∧ isOpen s' ∧ taken s' = taken s ++ bytes := by
  match bytes with
  | [] => exact ⟨s, by rw [Writer.writeAll], hs, by simp⟩
  | b :: rest =>
    obtain ⟨n, s₁, hwrite, hopen, htaken⟩ := hw.write hs (List.cons_ne_nil b rest)
    obtain ⟨s₂, hrest, hopen', htaken'⟩ := Writer.Takes.writeAll hw (rest.drop n) hopen
    refine ⟨s₂, ?_, hopen', ?_⟩
    · rw [Writer.writeAll, hwrite]
      exact hrest
    · rw [htaken', htaken, List.take_succ_cons, List.append_assoc, List.cons_append,
        List.take_append_drop]
termination_by bytes.length

structure Writer.Accepts (w : Writer ω) (isOpen : ω → Prop) (taken : ω → List UInt8) : Prop where
  write {s : ω} {bytes : List UInt8} : isOpen s → bytes ≠ [] → ∃ n s',
    w.write bytes s = (.ok (n + 1), s') ∧ isOpen s' ∧ taken s' = taken s ++ bytes.take (n + 1)
  flush {s : ω} : isOpen s → ∃ s', w.flush s = (.ok (), s') ∧ isOpen s' ∧ taken s' = taken s

theorem Writer.Accepts.takes {w : Writer ω} (hw : w.Accepts isOpen taken) :
    w.Takes isOpen taken :=
  ⟨hw.write⟩

theorem Writer.Accepts.emit {w : Writer ω} (hw : w.Accepts isOpen taken) (bytes : List UInt8)
    {s : ω} (hs : isOpen s) :
    ∃ s', w.emit bytes s = (.ok (), s') ∧ isOpen s' ∧ taken s' = taken s ++ bytes := by
  obtain ⟨s₁, hwrite, hopen, htaken⟩ := hw.takes.writeAll bytes hs
  obtain ⟨s₂, hflush, hopen', htaken'⟩ := hw.flush hopen
  refine ⟨s₂, ?_, hopen', by rw [htaken', htaken]⟩
  rw [Writer.emit, hwrite]
  exact hflush

/-- The reply of a function and the text that it writes depend on the arguments alone. -/
def Steady (isOpen : ω → Prop) (taken : ω → List UInt8) (f : List Value → ω → Reply × ω) : Prop :=
  ∀ args, ∃ reply text, ∀ s, isOpen s →
    ∃ s', f args s = (reply, s') ∧ isOpen s' ∧ taken s' = taken s ++ text

theorem steady_of_silent {f : List Value → ω → Reply × ω} (reply : List Value → Reply)
    (hf : ∀ args s, f args s = (reply args, s)) : Steady isOpen taken f :=
  fun args => ⟨reply args, [], fun s hs => ⟨s, hf args s, hs, by simp⟩⟩

theorem Builtin.steady_printText {w : Writer ω} (hw : w.Accepts isOpen taken)
    (text : List Value → List Char) :
    Steady isOpen taken fun args s => printText w (text args) s := by
  intro args
  let bytes := utf8 (String.ofList (text args))
  refine ⟨.values [.int (Int64.ofNat bytes.length), .nil], bytes, fun s hs => ?_⟩
  obtain ⟨s', hemit, hopen, htaken⟩ := hw.emit bytes hs
  refine ⟨s', ?_, hopen, htaken⟩
  simp only [printText]
  rw [hemit]

theorem Builtin.steady_run {w : Writer ω} (hw : w.Accepts isOpen taken) (b : Builtin) :
    Steady isOpen taken (b.run w) := by
  cases b with
  | print => exact steady_printText hw Format.joined
  | printf => exact steady_printText hw Format.formatted
  | println => exact steady_printText hw Format.line
  | exit => exact steady_of_silent (unary leave) fun _ _ => rfl
  | integer type => exact steady_of_silent (unary (convertInteger type)) fun _ _ => rfl
  | float64 => exact steady_of_silent (unary convertFloat) fun _ _ => rfl
  | quote => exact steady_of_silent (unary fun v => .values [.quote v]) fun _ _ => rfl
  | symbol => exact steady_of_silent (unary convertSymbol) fun _ _ => rfl
  | list => exact steady_of_silent (fun args => .values [.list args]) fun _ _ => rfl

theorem Host.steady_standard {w : Writer ω} {foreign : Foreign ω} (hw : w.Accepts isOpen taken)
    (hf : ∀ number, Steady isOpen taken (foreign number)) (r : Reference Builtin) :
    Steady isOpen taken (Host.standard w foreign r) := by
  cases r with
  | builtin b => exact b.steady_run hw
  | foreign number => exact hf number

/-- Two open states that have taken the same text since two earlier states. -/
structure Abreast (isOpen : ω → Prop) (taken : ω → List UInt8) (start start' s s' : ω) : Prop where
  first : isOpen s
  second : isOpen s'
  text : ∃ text, taken s = taken start ++ text ∧ taken s' = taken start' ++ text

theorem Abreast.refl {s s' : ω} (hs : isOpen s) (hs' : isOpen s') :
    Abreast isOpen taken s s' s s' :=
  ⟨hs, hs', [], by simp, by simp⟩

theorem Host.respects_abreast {host : Host ω} (hhost : ∀ r, Steady isOpen taken (host r))
    (start start' : ω) : host.Respects (Abreast isOpen taken start start') := by
  intro r args s s' h
  obtain ⟨reply, text, hreply⟩ := hhost r args
  obtain ⟨s₁, heq, hopen, htaken⟩ := hreply s h.first
  obtain ⟨s₁', heq', hopen', htaken'⟩ := hreply s' h.second
  obtain ⟨earlier, hearlier, hearlier'⟩ := h.text
  rw [heq, heq']
  refine ⟨rfl, hopen, hopen', earlier ++ text, ?_, ?_⟩
  · rw [htaken, hearlier, List.append_assoc]
  · rw [htaken', hearlier', List.append_assoc]

/-- Neither of two values may set a name that the other may look up or set. -/
structure Value.Independent (a b : Value) : Prop where
  left : ∀ name ∈ a.targets, name ∉ b.live ∧ name ∉ b.targets
  right : ∀ name ∈ b.targets, name ∉ a.live ∧ name ∉ a.targets

theorem Environment.get?_bindAll_comm {made made' : List (String × Value)}
    (h : ∀ binding ∈ made, ∀ binding' ∈ made', binding.1 ≠ binding'.1) (e : Environment)
    (name : String) :
    ((e.bindAll made).bindAll made').get? name = ((e.bindAll made').bindAll made).get? name := by
  by_cases hmem : ∃ binding ∈ made, binding.1 = name
  · obtain ⟨binding, hb, rfl⟩ := hmem
    have hother : ∀ binding' ∈ made', binding'.1 ≠ binding.1 :=
      fun binding' hb' => (h binding hb binding' hb').symm
    rw [get?_bindAll_of_not_mem _ hother, get?_bindAll, get?_bindAll,
      get?_bindAll_of_not_mem _ hother]
  · have hother : ∀ binding ∈ made, binding.1 ≠ name :=
      fun binding hb heq => hmem ⟨binding, hb, heq⟩
    rw [get?_bindAll_of_not_mem _ hother]
    exact get?_bindAll_congr (get?_bindAll_of_not_mem _ hother) made'

namespace Evaluation
variable {host : Host ω}

theorem EndAlike.ok_left {σ α : Type} {I : Machine σ → Machine σ → Prop}
    {ended : EStateM.Result Stop (Machine σ) α} {v : α} {m' : Machine σ}
    (h : EndAlike I (fun _ => False) ended (.ok v m')) : ∃ m, ended = .ok v m ∧ I m m' := by
  cases h with
  | ok hI => exact ⟨_, rfl, hI⟩

theorem evaluate_elsewhere (hhost : ∀ r, Steady isOpen taken (host r)) {v u : Value}
    {m m' last' : Machine ω}
    (hagree : ∀ name ∈ v.live, m.environment.get? name = m'.environment.get? name)
    (hm : isOpen m.world) (hm' : isOpen m'.world) (hrun : evaluate host v m' = .ok u last') :
    ∃ last, evaluate host v m = .ok u last ∧
      Grown (Abreast isOpen taken m.world m'.world) (· ∈ v.targets) m.environment m'.environment
        last last' := by
  have hends := evaluate_grown (Host.respects_abreast hhost m.world m'.world) hagree
    (Abreast.refl hm hm')
  rw [hrun] at hends
  exact hends.ok_left

end Evaluation

theorem Machine.evaluate_eq_ok_iff {σ : Type} {host : Host σ} {v u : Value} {m m' : Machine σ} :
    m.evaluate host v = (.ok u, m') ↔ Evaluation.evaluate host v m = .ok u m' := by
  unfold Machine.evaluate
  cases Evaluation.evaluate host v m <;> simp

theorem Evaluation.evaluate_swap {host : Host ω} (hhost : ∀ r, Steady isOpen taken (host r))
    {a b u v : Value} (hab : a.Independent b) {m mid last : Machine ω} (hm : isOpen m.world)
    (ha : evaluate host a m = .ok u mid) (hb : evaluate host b mid = .ok v last) :
    ∃ mid' last', evaluate host b m = .ok v mid' ∧ evaluate host a mid' = .ok u last' ∧
      (∀ name, last'.environment.get? name = last.environment.get? name) ∧
      ∃ text text', taken mid.world = taken m.world ++ text ∧
        taken last.world = taken m.world ++ text ++ text' ∧
        taken mid'.world = taken m.world ++ text' ∧
        taken last'.world = taken m.world ++ text' ++ text := by
  -- what the first run sets is not live in the second, which therefore runs from the start
  obtain ⟨_, _, hself⟩ := evaluate_elsewhere hhost (fun _ _ => rfl) hm hm ha
  obtain ⟨early, hearly, _, hmid⟩ := hself.made
  have hb' : ∀ name ∈ b.live, m.environment.get? name = mid.environment.get? name := by
    intro name hname
    rw [hmid, Environment.get?_bindAll_of_not_mem _ fun binding hbind heq => ?_]
    exact (hab.left binding.1 (hearly binding hbind)).1 (heq ▸ hname)
  obtain ⟨mid', hrunb, hgrownb⟩ := evaluate_elsewhere hhost hb' hm hself.world.second hb
  obtain ⟨made', hmade', hmid', hlast⟩ := hgrownb.made
  have ha' : ∀ name ∈ a.live, mid'.environment.get? name = m.environment.get? name := by
    intro name hname
    rw [hmid', Environment.get?_bindAll_of_not_mem _ fun binding hbind heq => ?_]
    exact (hab.right binding.1 (hmade' binding hbind)).1 (heq ▸ hname)
  obtain ⟨last', hruna, hgrowna⟩ := evaluate_elsewhere hhost ha' hgrownb.world.first hm ha
  obtain ⟨made, hmade, hlast', hmid⟩ := hgrowna.made
  obtain ⟨text', htext', htextlast⟩ := hgrownb.world.text
  obtain ⟨text, htextlast', htext⟩ := hgrowna.world.text
  refine ⟨mid', last', hrunb, hruna, fun name => ?_, text, text', htext, ?_, htext', ?_⟩
  · rw [hlast', hmid', hlast, hmid]
    refine Environment.get?_bindAll_comm (fun binding' hbind' binding hbind heq => ?_) _ name
    exact (hab.left binding.1 (hmade binding hbind)).2 (heq ▸ hmade' binding' hbind')
  · rw [htextlast, htext]
  · rw [htextlast', htext']

theorem Machine.exists_of_isOk {σ : Type} {step : Except Halt Value × Machine σ}
    (h : step.1.isOk = true) : ∃ v m, step = (.ok v, m) := by
  obtain ⟨result, m⟩ := step
  cases result with
  | ok v => exact ⟨v, m, rfl⟩
  | error halt => simp [Except.isOk, Except.toBool] at h

theorem Sink.takes {policy : Sink.Policy} (h : policy = .unlimited ∨ policy = .refusesFlushes) :
    Sink.writer.Takes (fun s => s.policy = policy) Sink.written where
  write {s bytes} hs hne := by
    obtain ⟨n, hn⟩ := Nat.exists_eq_succ_of_ne_zero (mt List.length_eq_zero_iff.1 hne)
    refine ⟨n, s.take bytes.length bytes, ?_, hs, ?_⟩
    · rcases h with rfl | rfl <;> simp only [Sink.writer, Sink.write, hs, hn]
    · rw [← Nat.succ_eq_add_one, ← hn]
      rfl

theorem Sink.accepts_unlimited :
    Sink.writer.Accepts (fun s => s.policy = .unlimited) Sink.written where
  write := (Sink.takes (.inl rfl)).write
  flush {s} hs := by
    refine ⟨s, ?_, hs, rfl⟩
    simp only [Sink.writer, Sink.flush, hs]

/-- Let an output take all that is written, and let functions look at their arguments
alone. Two values that succeed one after the other, and of which neither may set what the
other may look up or set, succeed in the other order as well, with the same values. Every
name has the same binding in the end, and the texts have changed places. -/
theorem independent_statements_commute {ω : Type} (w : Writer ω) (foreign : Foreign ω)
    (isOpen : ω → Prop) (taken : ω → List UInt8) (hw : w.Accepts isOpen taken)
    (hf : ∀ number, Steady isOpen taken (foreign number)) (a b u v : Value)
    (hab : a.Independent b) (m mid last : Machine ω) (hm : isOpen m.world)
    (ha : m.evaluate (Host.standard w foreign) a = (.ok u, mid))
    (hb : mid.evaluate (Host.standard w foreign) b = (.ok v, last)) :
    ∃ mid' last', m.evaluate (Host.standard w foreign) b = (.ok v, mid') ∧
      mid'.evaluate (Host.standard w foreign) a = (.ok u, last') ∧
      (∀ name, last'.environment.get? name = last.environment.get? name) ∧
      ∃ text text', taken mid.world = taken m.world ++ text ∧
        taken last.world = taken m.world ++ text ++ text' ∧
        taken mid'.world = taken m.world ++ text' ∧
        taken last'.world = taken m.world ++ text' ++ text := by
  simp only [Machine.evaluate_eq_ok_iff] at ha hb ⊢
  exact Evaluation.evaluate_swap (Host.steady_standard hw hf) hab hm ha hb

theorem printed_lines_change_places :
    let host := Host.standard Sink.writer Foreign.none
    let m : Machine Sink := ⟨(Environment.empty.define "say" Builtin.println.function).define "x"
      (.int 1), .ofPolicy .unlimited⟩
    let a : Value := .apply [.symbol "do", .apply [.symbol "say", .symbol "x"],
      .apply [.symbol "set!", .symbol "y", .symbol "x"]]
    let b : Value := .list [.apply [.symbol "say", .str "b"],
      .apply [.symbol "set!", .symbol "z", .int 2]]
    a.Independent b ∧ ∃ u v mid last mid' last', m.evaluate host a = (.ok u, mid) ∧
      mid.evaluate host b = (.ok v, last) ∧ m.evaluate host b = (.ok v, mid') ∧
      mid'.evaluate host a = (.ok u, last') ∧
      ∀ name, last'.environment.get? name = last.environment.get? name := by
  intro host m a b
  have hab : a.Independent b := ⟨by decide, by decide⟩
  have hsilent : ∀ number, Steady (fun s : Sink => s.policy = .unlimited) Sink.written
      (Foreign.none number) :=
    fun _ => steady_of_silent (fun _ => .failed "unknown function") fun _ _ => rfl
  have ha : (m.evaluate host a).1.isOk = true := by decide +kernel
  have hb : ((m.evaluate host a).2.evaluate host b).1.isOk = true := by decide +kernel
  obtain ⟨u, mid, ha⟩ : ∃ u mid, m.evaluate host a = (.ok u, mid) := Machine.exists_of_isOk ha
  rw [ha] at hb
  obtain ⟨v, last, hb⟩ : ∃ v last, mid.evaluate host b = (.ok v, last) := Machine.exists_of_isOk hb
  obtain ⟨mid', last', hb', ha', henv, _⟩ := independent_statements_commute Sink.writer
    Foreign.none _ Sink.written Sink.accepts_unlimited hsilent a b u v hab m mid last rfl ha hb
  exact ⟨hab, u, v, mid, last, mid', last', ha, hb, hb', ha', henv⟩

end EmbeddedLisp
