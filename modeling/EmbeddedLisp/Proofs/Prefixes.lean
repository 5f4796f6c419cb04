import EmbeddedLisp.Proofs.Parsing

/-!
# Input cut short and input gone wrong

An error of a reader says something about every input that begins in the same way. The
end of the input is complained about exactly where more tokens could still complete it.
A token is complained about where the tokens before it could be completed and no longer
can be with it. Nesting beyond the limit cannot be mended by any tokens. This is shown
for each reader from the readers it is made of.

Longer inputs end elsewhere, so that readers are taken here as families over the offset
at which the input ends.
-/

set_option autoImplicit false

namespace EmbeddedLisp.Reader
open Grammar
variable {α β : Type}

theorem bind_eq_error {r : Reader α} {f : α → Reader β} {tokens rest : List Token} {e : Error} :
    (r >>= f) tokens = .error e rest ↔ r tokens = .error e rest ∨
      ∃ a left, r tokens = .ok a left ∧ f a left = .error e rest := by
  change EStateM.bind r f tokens = .error e rest ↔ _
  unfold EStateM.bind
  cases r tokens with
  | ok a left =>
    simp only [reduceCtorEq, EStateM.Result.ok.injEq, false_or]
    constructor
    · intro h
      exact ⟨a, left, ⟨rfl, rfl⟩, h⟩
    · rintro ⟨_, _, ⟨rfl, rfl⟩, h⟩
      exact h
  | error e' left => simp

theorem map_eq_error {r : Reader α} {f : α → β} {tokens rest : List Token} {e : Error} :
    (f <$> r) tokens = .error e rest ↔ r tokens = .error e rest := by
  change EStateM.map f r tokens = .error e rest ↔ _
  unfold EStateM.map
  cases r tokens with
  | ok a left => simp
  | error e' left => simp

theorem pure_ne_error {tokens rest : List Token} {a : α} {e : Error} :
    (pure a : Reader α) tokens ≠ .error e rest := by
  simp [pure, EStateM.pure]

/-- Some more tokens make these into what the relation derives. -/
def Completable (R : List Token → α → Prop) (ts : List Token) : Prop :=
  ∃ us v, WellQuoted us ∧ R (ts ++ us) v

/-- Whatever follows these tokens, the reader fails. -/
def Hopeless (r : Nat → Reader α) (ts : List Token) : Prop :=
  ∀ ending us, ∃ e rest, r ending (ts ++ us) = .error e rest

/-- What an error tells about the input of a reader. -/
def Explains (r : Nat → Reader α) (R : List Token → α → Prop) (tokens : List Token) :
    Error → Prop
  | .endOfInput _ _ => Completable R tokens
  | .unexpected _ t | .invalidNumber t _ => ∃ before after, tokens = before ++ t :: after ∧
      Completable R before ∧ Hopeless r (before ++ [t])
  | .tooDeep _ => Hopeless r tokens
  | .unquoted _ => False

/-- A reader that follows a relation and whose errors tell what they should. -/
structure Faithful (r : Nat → Reader α) (R : List Token → α → Prop) : Prop where
  sound : ∀ ending, Sound (r ending) R
  complete : ∀ ending, Complete (r ending) R
  explains {ending : Nat} {tokens rest : List Token} {e : Error} :
    WellQuoted tokens → r ending tokens = .error e rest → Explains r R tokens e

def filler : Token := ⟨.identifier, "x", 0⟩

def closer (b : Bracket) : Token := ⟨.punctuation, spelling (.closing b), 0⟩

theorem filler_leaf : Leaf filler (.symbol "x") := .identifier rfl

theorem closer_isMark (b : Bracket) : IsMark (.closing b) (closer b) := ⟨rfl, rfl⟩

theorem wellQuoted_nil : WellQuoted [] := by simp [WellQuoted]

theorem wellQuoted_filler : WellQuoted [filler] := by simp [WellQuoted, filler]

theorem wellQuoted_closer (b : Bracket) : WellQuoted [closer b] := by simp [WellQuoted, closer]

theorem wellQuoted_append {ts us : List Token} (ht : WellQuoted ts) (hu : WellQuoted us) :
    WellQuoted (ts ++ us) := by
  intro t h
  rcases List.mem_append.1 h with h | h
  · exact ht t h
  · exact hu t h

theorem shallow_filler {n : Nat} (h : 0 < n) : Shallow n [filler] (.symbol "x") :=
  ⟨.bare (.leaf filler_leaf), h⟩

theorem Shallow.pos {n : Nat} {ts : List Token} {v : Value} (h : Shallow n ts v) : 0 < n :=
  Nat.lt_of_lt_of_le h.1.nesting_pos h.2

/-- Tokens stay completable inside a larger derivation, which has `x` before them and may
take some more tokens behind them. -/
theorem Completable.inside {R : List Token → α → Prop} {S : List Token → β → Prop}
    {x ts more : List Token} (h : Completable R ts) (hm : WellQuoted more)
    (f : ∀ us v, R us v → ∃ w, S (x ++ us ++ more) w) : Completable S (x ++ ts) := by
  obtain ⟨us, v, hq, hR⟩ := h
  obtain ⟨w, hS⟩ := f _ _ hR
  exact ⟨us ++ more, w, wellQuoted_append hq hm, by simpa using hS⟩

/-- An error of an inner reader, met behind the tokens `x`, is explained for the outer one.
The outer reader may have looked at the first token that the inner one got. -/
theorem Explains.outer {r : Nat → Reader α} {s : Nat → Reader β} {R : List Token → α → Prop}
    {S : List Token → β → Prop} {x y : List Token} {e : Error} (h : Explains r R y e)
    (hc : ∀ ts, Completable R ts → Completable S (x ++ ts))
    (hh : ∀ ts, ts.head? = y.head? → Hopeless r ts → Hopeless s (x ++ ts)) :
    Explains s S (x ++ y) e := by
  have located {t : Token} (h : ∃ before after, y = before ++ t :: after ∧ Completable R before ∧
      Hopeless r (before ++ [t])) : ∃ before after, x ++ y = before ++ t :: after ∧
      Completable S before ∧ Hopeless s (before ++ [t]) := by
    obtain ⟨before, after, rfl, hb, ht⟩ := h
    have hhead : (before ++ [t]).head? = (before ++ t :: after).head? := by
      cases before <;> rfl
    refine ⟨x ++ before, after, by rw [List.append_assoc], hc _ hb, ?_⟩
    rw [List.append_assoc]
    exact hh _ hhead ht
  cases e with
  | endOfInput expected offset => exact hc _ h
  | unexpected expected t => exact located h
  | invalidNumber t fault => exact located h
  | tooDeep span => exact hh _ rfl h
  | unquoted t => exact h

theorem noDot_of_head? {ts us : List Token} (h : NoDot us) (hh : ts.head? = us.head?)
    (hne : us ≠ []) (more : List Token) : NoDot (ts ++ more) := by
  cases us with
  | nil => exact absurd rfl hne
  | cons u us =>
    obtain ⟨ts', rfl⟩ := List.head?_eq_some_iff.1 hh
    simpa [NoDot] using h

theorem many_error {stops : Token → Bool} {item : Reader α} {shortens : Shortens item}
    {t : Token} {left rest : List Token} {e : Error} (ht : stops t = false)
    (h : item (t :: left) = .error e rest) :
    many stops item shortens (t :: left) = .error e rest := by
  rw [many.eq_def]
  simp only [ht, Bool.false_eq_true, if_false]
  split
  · next he =>
    rw [h, EStateM.Result.error.injEq] at he
    rw [he.1, he.2]
  · next he => simp [h] at he

theorem many_later_error {stops : Token → Bool} {item : Reader α} {shortens : Shortens item}
    {t : Token} {left rest last : List Token} {v : α} {e : Error} (ht : stops t = false)
    (h : item (t :: left) = .ok v rest) (hm : many stops item shortens rest = .error e last) :
    many stops item shortens (t :: left) = .error e last := by
  rw [many.eq_def]
  simp only [ht, Bool.false_eq_true, if_false]
  split
  · next he => simp [h] at he
  · next he =>
    rw [h, EStateM.Result.ok.injEq] at he
    obtain ⟨rfl, rfl⟩ := he
    rw [hm]

section
variable {stops : Token → Bool} {item : Nat → Reader α} {R : List Token → α → Prop}
  (shortens : ∀ ending, Shortens (item ending))

theorem many_explains (hf : Faithful item R) {ending : Nat} {tokens rest : List Token} {e : Error}
    (hq : WellQuoted tokens)
    (h : many stops (item ending) (shortens ending) tokens = .error e rest) :
    Explains (fun ending => many stops (item ending) (shortens ending)) (Sequence R) tokens e := by
  fun_induction many stops (item ending) (shortens ending) tokens generalizing rest with
  | case1 => simp at h
  | case2 => simp at h
  | case3 t left ht e' rest' he =>
    simp only [EStateM.Result.error.injEq] at h
    obtain ⟨rfl, rfl⟩ := h
    have ht' : stops t = false := by simpa using ht
    refine Explains.outer (x := []) (hf.explains hq he) ?_ ?_
    · intro ts hts
      exact hts.inside wellQuoted_nil fun us v hR => ⟨[v], by simpa using Sequence.cons hR .nil⟩
    · intro ts hhead hts ending us
      obtain ⟨ts', rfl⟩ := List.head?_eq_some_iff.1 hhead
      obtain ⟨e, last, he⟩ := hts ending us
      exact ⟨e, last, many_error ht' he⟩
  | case4 t left ht v next hv e' rest' hm ih =>
    simp only [EStateM.Result.error.injEq] at h
    obtain ⟨rfl, rfl⟩ := h
    have ht' : stops t = false := by simpa using ht
    have hnext : next ≠ [] := by
      rintro rfl
      rw [many_stop (by simp)] at hm
      simp at hm
    obtain ⟨ts, hts, hR, hd⟩ := hf.sound ending _ _ _ hq hv
    obtain ⟨ts', rfl⟩ : ∃ ts', ts = t :: ts' := by
      cases ts with
      | nil =>
        have hlt := shortens ending _ _ _ hv
        rw [hts] at hlt
        simp at hlt
      | cons u ts' => exact ⟨ts', by rw [(List.cons.inj hts).1]⟩
    rw [hts]
    refine (ih (hts ▸ hq).right hm).outer ?_ ?_
    · intro us hus
      exact hus.inside wellQuoted_nil fun ws vs hS =>
        ⟨v :: vs, by simpa using Sequence.cons hR hS⟩
    · intro us hhead hus ending more
      obtain ⟨e, last, he⟩ := hus ending more
      have hitem := hf.complete ending _ _ _ hR (noDot_of_head? hd hhead hnext more)
      rw [List.append_assoc]
      exact ⟨e, last, many_later_error ht' hitem he⟩
  | case5 => simp at h

def Enclosed (b : Bracket) (R : List Token → α → Prop) (ts : List Token) (vs : List α) : Prop :=
  ∃ inner last, ts = inner ++ [last] ∧ Sequence R inner vs ∧ IsMark (.closing b) last

theorem bracketed_explains (b : Bracket) (hf : Faithful item R) {ending : Nat}
    {tokens rest : List Token} {e : Error} (hq : WellQuoted tokens)
    (h : bracketed ending b (item ending) (shortens ending) tokens = .error e rest) :
    Explains (fun ending => bracketed ending b (item ending) (shortens ending)) (Enclosed b R)
      tokens e := by
  rcases bind_eq_error.1 h with hm | ⟨vs, left, hm, hclose⟩
  · refine Explains.outer (x := []) (many_explains shortens hf hq hm) ?_ ?_
    · intro ts hts
      exact hts.inside (wellQuoted_closer b) fun us vs hS =>
        ⟨vs, us, closer b, rfl, hS, closer_isMark b⟩
    · intro ts _ hts ending us
      obtain ⟨e, last, he⟩ := hts ending us
      exact ⟨e, last, bind_eq_error.2 (.inl he)⟩
  · obtain ⟨ts, rfl, hS, hstop⟩ := many_sound (hf.sound ending) hq hm
    cases left with
    | nil =>
      rcases bind_eq_error.1 hclose with he | ⟨_, _, he, _⟩
      · simp only [expect, unexpected, EStateM.Result.error.injEq] at he
        rw [← he.1]
        exact ⟨[closer b], vs, wellQuoted_closer b, ts, closer b, by simp, hS, closer_isMark b⟩
      · simp [expect, unexpected] at he
    | cons t left =>
      have hmark : mark? t = some (.closing b) := by simpa using hstop t (by simp)
      rcases bind_eq_error.1 hclose with he | ⟨_, _, _, he⟩
      · simp [expect, hmark] at he
      · exact absurd he pure_ne_error

end

theorem valueFollows_error {ending : Nat} {key : Value} {tokens rest : List Token} {e : Error}
    (h : valueFollows ending key tokens = .error e rest) :
    ∃ t left, tokens = t :: left ∧ IsMark (.closing .curly) t ∧
      e = .unexpected (.entryValue key) t := by
  cases tokens with
  | nil => simp [valueFollows] at h
  | cons t left =>
    simp only [valueFollows] at h
    split at h
    · next hm =>
      simp only [unexpected, EStateM.Result.error.injEq] at h
      exact ⟨t, left, rfl, mark?_eq_some_iff.1 hm, h.1.symm⟩
    · simp at h

theorem valueFollows_ok {ending : Nat} {key : Value} {u : Unit} {t : Token}
    {left rest : List Token} (h : valueFollows ending key (t :: left) = .ok u rest) (other : Nat)
    (more : List Token) : valueFollows other key (t :: more) = .ok () (t :: more) := by
  simp only [valueFollows] at h ⊢
  split at h
  · exact absurd h unexpected_ne_ok
  · next hm => rw [if_neg hm]

section
variable {n : Nat} {nested : Nat → Reader Value}

theorem entry_faithful (hf : Faithful nested (Shallow n)) :
    Faithful (fun ending => entry ending (nested ending)) (Grammar.Entry (Shallow n)) where
  sound ending := entry_sound (hf.sound ending)
  complete ending := entry_complete (hf.complete ending)
  explains {ending tokens rest e} hq h := by
    rcases bind_eq_error.1 h with hk | ⟨key, left, hk, hvalue⟩
    · refine Explains.outer (x := []) (hf.explains hq hk) ?_ ?_
      · intro ts hts
        exact hts.inside wellQuoted_filler fun us v hv => ⟨(v, _), hv, shallow_filler hv.pos⟩
      · intro ts _ hts ending us
        obtain ⟨e, last, he⟩ := hts ending us
        exact ⟨e, last, bind_eq_error.2 (.inl he)⟩
    obtain ⟨ts, rfl, hK, hd⟩ := hf.sound ending _ _ _ hq hk
    rcases bind_eq_error.1 hvalue with hv | ⟨_, left', hv, hsecond⟩
    · -- the map is closed behind the key
      obtain ⟨t, left, rfl, ht, rfl⟩ := valueFollows_error hv
      refine ⟨ts, left, rfl, ⟨[filler], _, wellQuoted_filler, hK, shallow_filler hK.pos⟩, ?_⟩
      intro ending us
      have hnoDot : NoDot ([t] ++ us) := noDot_of_head? hd rfl (by simp) us
      have hkey := hf.complete ending _ _ _ hK hnoDot
      have hfollow : valueFollows ending key ([t] ++ us) =
          .error (.unexpected (.entryValue key) t) ([t] ++ us) := by
        simp [valueFollows, mark?_eq_some_iff.2 ht, unexpected]
      rw [List.append_assoc]
      exact ⟨_, _, bind_eq_error.2 (.inr ⟨key, _, hkey, bind_eq_error.2 (.inl hfollow)⟩)⟩
    obtain rfl := valueFollows_same hv
    rcases bind_eq_error.1 hsecond with hw | ⟨_, _, _, hpure⟩
    · refine (hf.explains hq.right hw).outer ?_ ?_
      · intro us hus
        exact hus.inside wellQuoted_nil fun ws w hw =>
          ⟨(key, w), by simpa using Entry.mk hK hw⟩
      · intro us hhead hus ending more
        cases left' with
        | nil =>
          obtain rfl : us = [] := List.head?_eq_none_iff.1 hhead
          obtain ⟨e, last, he⟩ := hus ending [filler]
          have hfill := hf.complete ending _ [] _ (shallow_filler hK.pos) (by simp [NoDot])
          rw [List.append_nil] at hfill
          rw [List.nil_append, hfill] at he
          simp at he
        | cons t left =>
          obtain ⟨e, last, he⟩ := hus ending more
          have hkey := hf.complete ending _ _ _ hK (noDot_of_head? hd hhead (by simp) more)
          obtain ⟨us', rfl⟩ := List.head?_eq_some_iff.1 hhead
          have hfollow := valueFollows_ok hv ending (us' ++ more)
          rw [List.append_assoc]
          exact ⟨e, last, bind_eq_error.2 (.inr ⟨key, _, hkey,
            bind_eq_error.2 (.inr ⟨(), _, hfollow, bind_eq_error.2 (.inl he)⟩)⟩)⟩
    · exact absurd hpure pure_ne_error

theorem literalError_eq {t : Token} {fault : LiteralFault}
    (hq : t.kind = .string → ∃ body, t.literal.toList = '"' :: body ++ ['"'])
    (h : literal? t = some (.error fault)) : ∃ f, literalError t fault = .invalidNumber t f := by
  cases fault with
  | number f => exact ⟨f, rfl⟩
  | unquoted =>
    obtain ⟨kind, literal, offset⟩ := t
    cases kind with
    | string =>
      obtain ⟨body, hb⟩ := hq rfl
      simp only at hb
      simp only [literal?, hb, stringBody?_quoted] at h
      simp at h
    | integer =>
      simp only [literal?, Option.some.injEq] at h
      split at h <;> simp at h
    | float =>
      simp only [literal?, Option.some.injEq] at h
      split at h <;> simp at h
    | _ => simp [literal?] at h

def Shaped (n : Nat) (ts : List Token) (v : Value) : Prop := Form ts v ∧ v.nesting ≤ n + 1

theorem Shaped.shallow {n : Nat} {ts : List Token} {v : Value} (h : Shaped n ts v) :
    Shallow (n + 1) ts v :=
  ⟨.bare h.1, h.2⟩

theorem completable_nil (n : Nat) : Completable (Shaped n) [] :=
  ⟨[filler], _, wellQuoted_filler, .leaf filler_leaf, Nat.succ_le_succ (Nat.zero_le n)⟩

variable (shortens : ∀ ending, Shortens (nested ending))

theorem Explains.behind {γ : Type} {r : Nat → Reader γ} {S : List Token → γ → Prop} {t : Token}
    {left : List Token} {e : Error} (h : Explains r S left e) (f : γ → Value)
    (hv : ∀ ending us, value ending (nested ending) (shortens ending) (t :: us) =
      (f <$> r ending) us)
    (hS : ∀ us w, S us w → Shaped n (t :: us) (f w)) :
    Explains (fun ending => value ending (nested ending) (shortens ending)) (Shaped n)
      (t :: left) e := by
  refine Explains.outer (x := [t]) h ?_ ?_
  · intro ts hts
    exact hts.inside wellQuoted_nil fun us w hw => ⟨f w, by simpa using hS us w hw⟩
  · intro ts _ hts ending us
    obtain ⟨e, last, he⟩ := hts ending us
    exact ⟨e, last, (hv ending (ts ++ us)).trans (map_eq_error.2 he)⟩

theorem value_explains (hf : Faithful nested (Shallow n)) {ending : Nat}
    {tokens rest : List Token} {e : Error} (hq : WellQuoted tokens)
    (h : value ending (nested ending) (shortens ending) tokens = .error e rest) :
    Explains (fun ending => value ending (nested ending) (shortens ending)) (Shaped n) tokens
      e := by
  cases tokens with
  | nil =>
    simp only [value, unexpected, EStateM.Result.error.injEq] at h
    rw [← h.1]
    exact completable_nil n
  | cons t left =>
    have hq' : WellQuoted left := fun u hu => hq u (by simp [hu])
    have first (he : ∀ ending us, ∃ e' last,
          value ending (nested ending) (shortens ending) (t :: us) = .error e' last) :
        ∃ before after, t :: left = before ++ t :: after ∧ Completable (Shaped n) before ∧
          Hopeless (fun ending => value ending (nested ending) (shortens ending))
            (before ++ [t]) :=
      ⟨[], left, rfl, completable_nil n, he⟩
    simp only [value] at h
    split at h
    · next hm =>
      have hx := bracketed_explains shortens .round hf hq' (map_eq_error.1 h)
      refine hx.behind shortens Value.apply (fun _ _ => by simp only [value, hm]) ?_
      rintro us vs ⟨inner, last, rfl, hS, hl⟩
      obtain ⟨hE, hn⟩ := sequence_shallow.1 hS
      exact ⟨.apply (mark?_eq_some_iff.1 hm) hE hl, Nat.succ_le_succ hn⟩
    · next hm =>
      have hx := bracketed_explains shortens .square hf hq' (map_eq_error.1 h)
      refine hx.behind shortens Value.list (fun _ _ => by simp only [value, hm]) ?_
      rintro us vs ⟨inner, last, rfl, hS, hl⟩
      obtain ⟨hE, hn⟩ := sequence_shallow.1 hS
      exact ⟨.list (mark?_eq_some_iff.1 hm) hE hl, Nat.succ_le_succ hn⟩
    · next hm =>
      have hx := bracketed_explains (fun ending => entry_shortens ending (shortens ending))
        .curly (entry_faithful hf) hq' (map_eq_error.1 h)
      refine hx.behind shortens Value.map (fun _ _ => by simp only [value, hm]) ?_
      rintro us es ⟨inner, last, rfl, hS, hl⟩
      obtain ⟨hE, hn⟩ := entries_shallow.1 hS
      exact ⟨.map (mark?_eq_some_iff.1 hm) hE hl, Nat.succ_le_succ hn⟩
    · next hm =>
      have hx := hf.explains hq' (map_eq_error.1 h)
      refine hx.behind shortens Value.quote (fun _ _ => by simp only [value, hm]) ?_
      rintro us v ⟨hE, hn⟩
      exact ⟨.quote (mark?_eq_some_iff.1 hm) hE, Nat.succ_le_succ hn⟩
    · next hm =>
      have hx := hf.explains hq' (map_eq_error.1 h)
      refine hx.behind shortens Value.unquote (fun _ _ => by simp only [value, hm]) ?_
      rintro us v ⟨hE, hn⟩
      exact ⟨.unquote (mark?_eq_some_iff.1 hm) hE, Nat.succ_le_succ hn⟩
    · split at h
      · simp at h
      · next fault hl =>
        obtain ⟨f, hf⟩ := literalError_eq (hq t (by simp)) hl
        simp only [EStateM.Result.error.injEq, hf] at h
        rw [← h.1]
        exact first fun ending us => ⟨literalError t fault, us, by simp only [value, hl]⟩
      · next hl =>
        simp only [unexpected, EStateM.Result.error.injEq] at h
        rw [← h.1]
        exact first fun ending us =>
          ⟨.unexpected .value t, t :: us, by simp only [value, hl, unexpected]⟩

end

theorem accessors_explains {ending : Nat} {tokens rest : List Token} {e : Error}
    (hq : WellQuoted tokens) (h : accessors ending tokens = .error e rest) :
    Explains accessors Accessors tokens e := by
  have completable {dot : Token} (hd : mark? dot = some .dot) : Completable Accessors [dot] :=
    ⟨[filler], _, wellQuoted_filler,
      .cons (mark?_eq_some_iff.1 hd) filler_leaf (by simp [filler]) .nil⟩
  have second {dot key : Token} {left : List Token} (hd : mark? dot = some .dot)
      (he : ∀ ending us, ∃ e' last, accessors ending (dot :: key :: us) = .error e' last) :
      ∃ before after, dot :: key :: left = before ++ key :: after ∧
        Completable Accessors before ∧ Hopeless accessors (before ++ [key]) :=
    ⟨[dot], left, rfl, completable hd, he⟩
  fun_induction accessors ending tokens generalizing rest with
  | case1 => simp at h
  | case2 dot hd =>
    simp only [unexpected, EStateM.Result.error.injEq] at h
    rw [← h.1]
    exact completable hd
  | case3 => simp at h
  | case4 dot hd key left ha v hv e' rest' he ih =>
    simp only [EStateM.Result.error.injEq] at h
    obtain ⟨rfl, rfl⟩ := h
    have hk : Leaf key v := leaf_of_literal hv (hq key (by simp))
    have hkind : key.kind ≠ .float := fun hk => by simp [isAccessor, hk] at ha
    refine Explains.outer (x := [dot, key]) (ih (fun u hu => hq u (by simp [hu])) he) ?_ ?_
    · intro ts hts
      exact hts.inside wellQuoted_nil fun us vs hA =>
        ⟨v :: vs, by simpa using Accessors.cons (mark?_eq_some_iff.1 hd) hk hkind hA⟩
    · intro ts _ hts ending us
      obtain ⟨e, last, he⟩ := hts ending us
      exact ⟨e, last, by simp [accessors, hd, ha, hv, he]⟩
  | case5 dot hd key left ha fault hl =>
    obtain ⟨f, hf⟩ := literalError_eq (hq key (by simp)) hl
    simp only [EStateM.Result.error.injEq, hf] at h
    rw [← h.1]
    exact second hd fun ending us =>
      ⟨literalError key fault, us, by simp only [accessors, hd, ha, hl, if_true]⟩
  | case6 dot hd key left ha hl =>
    simp only [unexpected, EStateM.Result.error.injEq] at h
    rw [← h.1]
    exact second hd fun ending us =>
      ⟨.unexpected .accessor key, key :: us, by simp [accessors, hd, ha, hl, unexpected]⟩
  | case7 dot hd key left ha =>
    simp only [unexpected, EStateM.Result.error.injEq] at h
    rw [← h.1]
    exact second hd fun ending us =>
      ⟨.unexpected .accessor key, key :: us, by simp [accessors, hd, ha, unexpected]⟩
  | case8 => simp at h

theorem link_faithful {n : Nat} {nested : Nat → Reader Value}
    (shortens : ∀ ending, Shortens (nested ending)) (hf : Faithful nested (Shallow n)) :
    Faithful (fun ending => link ending (nested ending) (shortens ending)) (Shallow (n + 1)) where
  sound ending := link_sound (hf.sound ending)
  complete ending := link_complete (hf.complete ending)
  explains {ending tokens rest e} hq h := by
    rcases bind_eq_error.1 h with hb | ⟨base, left, hb, hkeys⟩
    · refine Explains.outer (x := []) (value_explains shortens hf hq hb) ?_ ?_
      · intro ts hts
        exact hts.inside wellQuoted_nil fun us v hv =>
          ⟨v, by simpa using hv.shallow⟩
      · intro ts _ hts ending us
        obtain ⟨e, last, he⟩ := hts ending us
        exact ⟨e, last, bind_eq_error.2 (.inl he)⟩
    obtain ⟨ts, rfl, hF, hn, hd⟩ := value_sound (hf.sound ending) hq hb
    rcases bind_eq_error.1 hkeys with ha | ⟨_, _, _, hpure⟩
    · -- a chain that goes wrong has begun, so that its base is not quoted
      have hB : base.isQuoted = false := by
        cases hQ : base.isQuoted with
        | false => rfl
        | true =>
          have hok := accessors_complete ending _ _ _ .nil (hd hQ)
          rw [List.nil_append, ha] at hok
          simp at hok
      refine (accessors_explains hq.right ha).outer ?_ ?_
      · intro us hus
        refine hus.inside wellQuoted_nil fun ws keys hA => ?_
        rw [List.append_nil]
        cases hA with
        | nil => exact ⟨base, by simpa using Shaped.shallow ⟨hF, hn⟩⟩
        | cons hm hk hkind hA =>
          exact ⟨_, .drill hF hB (.cons hm hk hkind hA) (by simp), hn⟩
      · intro us _ hus ending more
        obtain ⟨e, last, he⟩ := hus ending more
        have hbase : value ending (nested ending) (shortens ending) (ts ++ (us ++ more)) =
            .ok base (us ++ more) := value_complete (hf.complete ending) hF hn (by simp [hB])
        rw [List.append_assoc]
        exact ⟨e, last, bind_eq_error.2 (.inr ⟨base, _, hbase, bind_eq_error.2 (.inl he)⟩)⟩
    · exact absurd hpure pure_ne_error

theorem expression_faithful (n : Nat) : Faithful (expression · n) (Shallow n) := by
  induction n with
  | zero =>
    refine ⟨(expression_sound · 0), (expression_complete · 0), fun _ h => ?_⟩
    simp only [expression_zero, tooDeep, EStateM.Result.error.injEq] at h
    rw [← h.1]
    exact fun ending us => ⟨_, _, rfl⟩
  | succ n ih => exact link_faithful (expression_shortens · n) ih

def statements (ending : Nat) : Reader (List Value) :=
  many (fun _ => false) (expression ending nestingLimit) (expression_shortens ending nestingLimit)

theorem program_eq_error {ending : Nat} {tokens rest : List Token} {e : Error} :
    program ending tokens = .error e rest ↔ statements ending tokens = .error e rest := by
  refine bind_eq_error.trans ⟨?_, .inl⟩
  rintro (h | ⟨_, _, _, hpure⟩)
  · exact h
  · exact absurd hpure pure_ne_error

theorem program_explains {ending : Nat} {tokens rest : List Token} {e : Error}
    (hq : WellQuoted tokens) (h : program ending tokens = .error e rest) :
    Explains statements (Sequence (Shallow nestingLimit)) tokens e :=
  many_explains (expression_shortens · nestingLimit) (expression_faithful nestingLimit) hq
    (program_eq_error.1 h)

end EmbeddedLisp.Reader

namespace EmbeddedLisp
open Grammar Reader

def Accepted (ts : List Token) : Prop := ∃ w, readProgram ts = .ok w

def Extensible (ts : List Token) : Prop := ∃ us, Accepted (ts ++ us)

def Reader.Error.isLocated : Reader.Error → Bool
  | .unexpected _ _ | .invalidNumber _ _ => true
  | _ => false

theorem Parser.step_error {α : Type} {p : Parser} {r : Reader α} {e : Reader.Error} :
    (p.step r).1 = .error e ↔ ∃ rest, r p.rest = .error e rest := by
  unfold Parser.step
  cases r p.rest with
  | ok w left => simp
  | error e' left => simp

theorem readProgram_error {ts : List Token} (hq : WellQuoted ts) {e : Reader.Error}
    (h : readProgram ts = .error e) :
    Explains statements (Sequence (Shallow nestingLimit)) ts e := by
  obtain ⟨rest, h⟩ := Parser.step_error.1 h
  exact program_explains hq h

theorem extensible_of_completable {ts : List Token} (hq : WellQuoted ts)
    (h : Completable (Sequence (Shallow nestingLimit)) ts) : Extensible ts := by
  obtain ⟨us, vs, hu, hS⟩ := h
  obtain ⟨hE, hn⟩ := Sequence.and_iff.1 hS
  exact ⟨us, _, (readProgram_ok_iff (wellQuoted_append hq hu)).2 ⟨vs, rfl, hE, hn⟩⟩

theorem not_extensible_of_hopeless {ts : List Token} (h : Hopeless statements ts) :
    ¬ Extensible ts := by
  rintro ⟨us, w, hw⟩
  obtain ⟨rest, hok⟩ := Parser.step_ok.1 hw
  obtain ⟨e, left, he⟩ := h (endOf (ts ++ us)) us
  have hbad := program_eq_error.2 he
  simp only [Parser.ofTokens] at hok
  rw [hok] at hbad
  simp at hbad

theorem not_accepted_of_error {ts : List Token} {e : Reader.Error}
    (h : readProgram ts = .error e) : ¬ Accepted ts := by
  rintro ⟨w, hw⟩
  simp [h] at hw

theorem not_extensible_of_error {ts : List Token} (hq : WellQuoted ts) {e : Reader.Error}
    (h : readProgram ts = .error e) (he : ∀ expected offset, e ≠ .endOfInput expected offset) :
    ¬ Extensible ts := by
  have hx := readProgram_error hq h
  have located {t : Token} (hx : ∃ before after, ts = before ++ t :: after ∧
      Completable (Sequence (Shallow nestingLimit)) before ∧
      Hopeless statements (before ++ [t])) : ¬ Extensible ts := by
    obtain ⟨before, after, rfl, _, ht⟩ := hx
    rintro ⟨us, ha⟩
    exact not_extensible_of_hopeless ht ⟨after ++ us, by simpa using ha⟩
  cases e with
  | endOfInput expected offset => exact absurd rfl (he expected offset)
  | unexpected expected t => exact located hx
  | invalidNumber t fault => exact located hx
  | tooDeep span => exact not_extensible_of_hopeless hx
  | unquoted t => exact hx.elim

theorem error_points {ts : List Token} (hq : WellQuoted ts) {t : Token}
    (h : ∃ before after, ts = before ++ t :: after ∧
      Completable (Sequence (Shallow nestingLimit)) before ∧ Hopeless statements (before ++ [t])) :
    ∃ i, ts[i]? = some t ∧ Extensible (ts.take i) ∧ ¬ Extensible (ts.take (i + 1)) := by
  obtain ⟨before, after, rfl, hb, ht⟩ := h
  refine ⟨before.length, by simp, ?_, ?_⟩
  · rw [List.take_left]
    exact extensible_of_completable hq.left hb
  · rw [List.take_length_add_append]
    exact not_extensible_of_hopeless ht

/-- Errors tell unfinished input from wrong input: the end of the input is reported exactly
where more tokens can complete it, a token is reported where it is the first one with which
none can, and where the nesting is too deep none can either. -/
theorem errors_tell_unfinished_from_wrong (ts : List Token) (hq : WellQuoted ts) :
    ((∃ expected offset, readProgram ts = .error (.endOfInput expected offset)) ↔
      ¬ Accepted ts ∧ Extensible ts) ∧
    (∀ e, readProgram ts = .error e → e.isLocated = true →
      ∃ i t, ts[i]? = some t ∧ e.labels.map Prod.snd = [t.span] ∧
        Extensible (ts.take i) ∧ ¬ Extensible (ts.take (i + 1))) ∧
    (∀ span, readProgram ts = .error (.tooDeep span) → ¬ Extensible ts) ∧
    (∀ t, readProgram ts ≠ .error (.unquoted t)) := by
  refine ⟨⟨?_, ?_⟩, ?_, ?_, ?_⟩
  · rintro ⟨expected, offset, h⟩
    exact ⟨not_accepted_of_error h, extensible_of_completable hq (readProgram_error hq h)⟩
  · rintro ⟨ha, hx⟩
    cases h : readProgram ts with
    | ok w => exact absurd ⟨w, h⟩ ha
    | error e =>
      cases e with
      | endOfInput expected offset => exact ⟨expected, offset, rfl⟩
      | _ => exact absurd hx (not_extensible_of_error hq h (by simp))
  · intro e h hl
    have hx := readProgram_error hq h
    cases e with
    | unexpected expected t =>
      obtain ⟨i, hi, hx⟩ := error_points hq hx
      exact ⟨i, t, hi, rfl, hx⟩
    | invalidNumber t fault =>
      obtain ⟨i, hi, hx⟩ := error_points hq hx
      exact ⟨i, t, hi, rfl, hx⟩
    | endOfInput expected offset => simp [Reader.Error.isLocated] at hl
    | tooDeep span => simp [Reader.Error.isLocated] at hl
    | unquoted t => exact hx.elim
  · intro span h
    exact not_extensible_of_error hq h (by simp)
  · intro t h
    exact (readProgram_error hq h).elim

def Reader.blames (span : Span) : Except Reader.Error Value → Bool
  | .error e => e.isLocated && e.labels.map Prod.snd = [span]
  | .ok _ => false

theorem Reader.blames_iff {span : Span} {result : Except Reader.Error Value} :
    blames span result = true ↔ ∃ e, result = .error e ∧ e.isLocated = true ∧
      e.labels.map Prod.snd = [span] := by
  cases result <;> simp [blames]

theorem closed_behind_key_is_wrong :
    ∃ i t, [Token.mk .punctuation "\x7b" 0, ⟨.identifier, "k", 1⟩, ⟨.punctuation, "\x7d", 3⟩][i]? =
        some t ∧ t.span = ⟨3, 1⟩ ∧
      Extensible ([Token.mk .punctuation "\x7b" 0, ⟨.identifier, "k", 1⟩,
        ⟨.punctuation, "\x7d", 3⟩].take i) ∧
      ¬ Extensible ([Token.mk .punctuation "\x7b" 0, ⟨.identifier, "k", 1⟩,
        ⟨.punctuation, "\x7d", 3⟩].take (i + 1)) := by
  have hq : WellQuoted [⟨.punctuation, "\x7b", 0⟩, ⟨.identifier, "k", 1⟩,
      ⟨.punctuation, "\x7d", 3⟩] := by
    simp [WellQuoted]
  have hplace : Reader.blames ⟨3, 1⟩ (readProgram [⟨.punctuation, "\x7b", 0⟩,
      ⟨.identifier, "k", 1⟩, ⟨.punctuation, "\x7d", 3⟩]) = true := by decide +kernel
  obtain ⟨e, he, hl, hspan⟩ := Reader.blames_iff.1 hplace
  obtain ⟨i, t, hi, ht, hx⟩ := (errors_tell_unfinished_from_wrong _ hq).2.1 e he hl
  rw [hspan] at ht
  exact ⟨i, t, hi, (List.cons.inj ht).1.symm, hx⟩

end EmbeddedLisp
