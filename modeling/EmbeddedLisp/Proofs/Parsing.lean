import EmbeddedLisp.Proofs.Grammar

/-!
# Reading follows the grammar

A reader is sound for a relation when it only takes what the relation derives, and
complete when it takes all of it, provided no dot comes next. Both are shown for
one level of nesting at a time, given the same for the level below. The limit on
levels is the only thing that keeps a derivation from being read.
-/

set_option autoImplicit false

namespace EmbeddedLisp.Reader
open Grammar
variable {α : Type}

def Sound (r : Reader α) (R : List Token → α → Prop) : Prop :=
  ∀ (tokens rest : List Token) (v : α), WellQuoted tokens → r tokens = .ok v rest →
    ∃ ts, tokens = ts ++ rest ∧ R ts v ∧ NoDot rest

def Complete (r : Reader α) (R : List Token → α → Prop) : Prop :=
  ∀ (ts rest : List Token) (v : α), R ts v → NoDot rest → r (ts ++ rest) = .ok v rest

def Opening (R : List Token → α → Prop) : Prop :=
  ∀ (ts : List Token) (v : α), R ts v → ∃ t us, ts = t :: us ∧ Begins t

theorem expect_ok {ending : Nat} {m : Mark} {tokens rest : List Token} {u : Unit} :
    expect ending m tokens = .ok u rest ↔ ∃ t, tokens = t :: rest ∧ IsMark m t := by
  cases tokens with
  | nil => simp [expect, unexpected]
  | cons t left =>
    simp only [expect, mark?_eq_some_iff]
    split
    · next hm =>
      constructor
      · intro h
        exact ⟨t, by rw [EStateM.Result.ok.inj h |>.2], hm⟩
      · rintro ⟨_, ht, _⟩
        rw [(List.cons.inj ht).2]
    · next hm =>
      constructor
      · intro h
        exact absurd h unexpected_ne_ok
      · rintro ⟨_, ht, hm'⟩
        exact absurd ((List.cons.inj ht).1 ▸ hm') hm

theorem many_stop {stops : Token → Bool} {item : Reader α} {shortens : Shortens item}
    {rest : List Token} (h : ∀ t ∈ rest.head?, stops t = true) :
    many stops item shortens rest = .ok [] rest := by
  rw [many.eq_def]
  cases rest with
  | nil => rfl
  | cons t rest => simp [h t (by simp)]

theorem many_item {stops : Token → Bool} {item : Reader α} {shortens : Shortens item}
    {t : Token} {left rest : List Token} {v : α} (ht : stops t = false)
    (h : item (t :: left) = .ok v rest) {vs : List α} {last : List Token}
    (hm : many stops item shortens rest = .ok vs last) :
    many stops item shortens (t :: left) = .ok (v :: vs) last := by
  rw [many.eq_def]
  simp only [ht, Bool.false_eq_true, if_false]
  split
  · next he => simp [h] at he
  · next he =>
    rw [h, EStateM.Result.ok.injEq] at he
    obtain ⟨rfl, rfl⟩ := he
    rw [hm]

theorem many_sound {stops : Token → Bool} {item : Reader α} {shortens : Shortens item}
    {R : List Token → α → Prop} (hs : Sound item R) {tokens rest : List Token} {vs : List α}
    (hq : WellQuoted tokens) (h : many stops item shortens tokens = .ok vs rest) :
    ∃ ts, tokens = ts ++ rest ∧ Sequence R ts vs ∧ ∀ t ∈ rest.head?, stops t = true := by
  fun_induction many stops item shortens tokens generalizing vs rest with
  | case1 =>
    simp only [EStateM.Result.ok.injEq] at h
    obtain ⟨rfl, rfl⟩ := h
    exact ⟨[], rfl, .nil, by simp⟩
  | case2 t left ht =>
    simp only [EStateM.Result.ok.injEq] at h
    obtain ⟨rfl, rfl⟩ := h
    exact ⟨[], rfl, .nil, by simpa using ht⟩
  | case3 => simp at h
  | case4 => simp at h
  | case5 t left _ v next hv ws next' hw ih =>
    simp only [EStateM.Result.ok.injEq] at h
    obtain ⟨rfl, rfl⟩ := h
    obtain ⟨ts, hts, hR, _⟩ := hs _ _ _ hq hv
    obtain ⟨us, rfl, hS, hr⟩ := ih (hts ▸ hq).right hw
    exact ⟨ts ++ us, by rw [hts, List.append_assoc], .cons hR hS, hr⟩

theorem many_complete {stops : Token → Bool} {item : Reader α} {shortens : Shortens item}
    {R : List Token → α → Prop} (hc : Complete item R) (ho : Opening R)
    (hstop : ∀ t, Begins t → stops t = false) {ts rest : List Token} {vs : List α}
    (h : Sequence R ts vs) (hd : NoDot rest) (hr : ∀ t ∈ rest.head?, stops t = true) :
    many stops item shortens (ts ++ rest) = .ok vs rest := by
  induction h with
  | nil => exact many_stop hr
  | @cons ts us v vs hv hS ih =>
    obtain ⟨t, left, rfl, ht⟩ := ho _ _ hv
    have hnext : NoDot (us ++ rest) := by
      cases hS with
      | nil => exact hd
      | cons hw _ =>
        obtain ⟨t', _, rfl, ht'⟩ := ho _ _ hw
        simpa [NoDot] using ht'.1
    have hitem := hc _ _ _ hv hnext
    rw [List.append_assoc]
    exact many_item (hstop t ht) hitem ih

theorem bracketed_sound {ending : Nat} {b : Bracket} {item : Reader α} {shortens : Shortens item}
    {R : List Token → α → Prop} (hs : Sound item R) {tokens rest : List Token} {vs : List α}
    (hq : WellQuoted tokens) (h : bracketed ending b item shortens tokens = .ok vs rest) :
    ∃ ts last, tokens = ts ++ last :: rest ∧ Sequence R ts vs ∧ IsMark (.closing b) last := by
  obtain ⟨items, left, hi, h⟩ := bind_eq_ok.1 h
  obtain ⟨_, left', he, h⟩ := bind_eq_ok.1 h
  obtain ⟨rfl, rfl⟩ := pure_eq_ok.1 h
  obtain ⟨last, rfl, hl⟩ := expect_ok.1 he
  obtain ⟨ts, rfl, hS, _⟩ := many_sound hs hq hi
  exact ⟨ts, last, rfl, hS, hl⟩

theorem bracketed_complete {ending : Nat} {b : Bracket} {item : Reader α}
    {shortens : Shortens item} {R : List Token → α → Prop} (hc : Complete item R)
    (ho : Opening R) {ts rest : List Token} {last : Token} {vs : List α}
    (h : Sequence R ts vs) (hl : IsMark (.closing b) last) :
    bracketed ending b item shortens (ts ++ last :: rest) = .ok vs rest := by
  have hd : NoDot (last :: rest) := by
    simpa [NoDot] using fun hm : IsMark .dot last => by simpa using hl.unique hm
  have hm : many (fun t => mark? t = some (.closing b)) item shortens (ts ++ last :: rest) =
      .ok vs (last :: rest) := by
    apply many_complete hc ho _ h hd
    · simpa [mark?_eq_some_iff] using hl
    · intro t ht
      simpa [mark?_eq_some_iff] using ht.2 b
  exact bind_eq_ok.2 ⟨vs, _, hm, bind_eq_ok.2 ⟨(), rest, expect_ok.2 ⟨last, rfl, hl⟩,
    pure_eq_ok.2 ⟨rfl, rfl⟩⟩⟩

def Shallow (n : Nat) (ts : List Token) (v : Value) : Prop := Expression ts v ∧ v.nesting ≤ n

theorem shallow_opening (n : Nat) : Opening (Shallow n) := fun _ _ h => h.1.begins

theorem entry_opening (n : Nat) : Opening (Grammar.Entry (Shallow n)) := by
  rintro _ _ ⟨hk, hv⟩
  exact Entry.begins ⟨hk.1, hv.1⟩

theorem entry_sound {ending n : Nat} {nested : Reader Value} (hs : Sound nested (Shallow n)) :
    Sound (entry ending nested) (Grammar.Entry (Shallow n)) := by
  intro tokens rest e hq h
  obtain ⟨k, left, hk, h⟩ := bind_eq_ok.1 h
  obtain ⟨_, left', hf, h⟩ := bind_eq_ok.1 h
  obtain ⟨v, left'', hv, h⟩ := bind_eq_ok.1 h
  obtain ⟨rfl, rfl⟩ := pure_eq_ok.1 h
  rw [valueFollows_same hf] at hv
  obtain ⟨ts, rfl, hK, _⟩ := hs _ _ _ hq hk
  obtain ⟨us, rfl, hV, hd⟩ := hs _ _ _ hq.right hv
  exact ⟨ts ++ us, by rw [List.append_assoc], ⟨hK, hV⟩, hd⟩

theorem entry_complete {ending n : Nat} {nested : Reader Value}
    (hc : Complete nested (Shallow n)) :
    Complete (entry ending nested) (Grammar.Entry (Shallow n)) := by
  rintro _ rest _ ⟨hK, hV⟩ hd
  next ts us k v =>
  obtain ⟨t, left, rfl, ht⟩ := hV.1.begins
  have hnext : NoDot (t :: left ++ rest) := by simpa [NoDot] using ht.1
  have hf : valueFollows ending k (t :: left ++ rest) = .ok () (t :: left ++ rest) := by
    simp [valueFollows, mark?_eq_some_iff, ht.2]
  rw [List.append_assoc]
  exact bind_eq_ok.2 ⟨k, _, hc _ _ _ hK hnext, bind_eq_ok.2 ⟨(), _, hf, bind_eq_ok.2 ⟨v, rest,
    hc _ _ _ hV hd, pure_eq_ok.2 ⟨rfl, rfl⟩⟩⟩⟩

theorem accessors_sound (ending : Nat) : Sound (accessors ending) Accessors := by
  intro tokens rest ks hq h
  fun_induction accessors ending tokens generalizing ks rest with
  | case1 =>
    simp only [EStateM.Result.ok.injEq] at h
    obtain ⟨rfl, rfl⟩ := h
    exact ⟨[], rfl, .nil, by simp [NoDot]⟩
  | case2 => exact absurd h unexpected_ne_ok
  | case3 t hd key left ha v hv ws next hw ih =>
    simp only [EStateM.Result.ok.injEq] at h
    obtain ⟨rfl, rfl⟩ := h
    have hq' : WellQuoted left := fun u hu => hq u (by simp [hu])
    obtain ⟨us, rfl, hA, hr⟩ := ih _ _ hq' hw
    have hk : Leaf key v := leaf_of_literal hv (hq key (by simp))
    have hf : key.kind ≠ .float := fun hf => by simp [isAccessor, hf] at ha
    exact ⟨t :: key :: us, rfl, .cons (mark?_eq_some_iff.1 hd) hk hf hA, hr⟩
  | case4 => simp at h
  | case5 => simp at h
  | case6 => exact absurd h unexpected_ne_ok
  | case7 => exact absurd h unexpected_ne_ok
  | case8 t left hd =>
    simp only [EStateM.Result.ok.injEq] at h
    obtain ⟨rfl, rfl⟩ := h
    exact ⟨[], rfl, .nil, by simpa [NoDot, mark?_eq_some_iff] using hd⟩

theorem accessors_complete (ending : Nat) : Complete (accessors ending) Accessors := by
  intro us rest ks h hd
  induction h with
  | nil =>
    cases rest with
    | nil => simp [accessors]
    | cons t rest =>
      have ht : ¬ IsMark .dot t := hd t (by simp)
      rw [List.nil_append, accessors.eq_def]
      simp only [mark?_eq_some_iff, ht, if_false]
  | @cons dot key ts v vs hm hk hf _ ih =>
    have ha : isAccessor key = true := by
      cases hk <;> simp_all [isAccessor]
    simp [accessors, mark?_eq_some_iff, hm, ha, hk.literal, ih]

theorem accessors_of_noDot {ending : Nat} {tokens rest : List Token} {ks : List Value}
    (hd : NoDot tokens) (h : accessors ending tokens = .ok ks rest) : ks = [] ∧ rest = tokens := by
  have he : accessors ending tokens = .ok [] tokens := accessors_complete ending _ _ _ .nil hd
  rw [he, EStateM.Result.ok.injEq] at h
  exact ⟨h.1.symm, h.2.symm⟩

theorem sequence_shallow {n : Nat} {ts : List Token} {vs : List Value} :
    Sequence (Shallow n) ts vs ↔ Sequence Expression ts vs ∧ Value.nestingItems vs ≤ n := by
  rw [Value.nestingItems_le]
  exact Sequence.and_iff

theorem entries_shallow {n : Nat} {ts : List Token} {es : List (Value × Value)} :
    Sequence (Grammar.Entry (Shallow n)) ts es ↔
      Sequence (Grammar.Entry Expression) ts es ∧ Value.nestingEntries es ≤ n := by
  have split : Grammar.Entry (Shallow n) = fun us e =>
      Grammar.Entry Expression us e ∧ e.1.nesting ≤ n ∧ e.2.nesting ≤ n := by
    funext us e
    apply propext
    constructor
    · rintro ⟨hk, hv⟩
      exact ⟨⟨hk.1, hv.1⟩, hk.2, hv.2⟩
    · rintro ⟨⟨hk, hv⟩, hn, hm⟩
      exact ⟨⟨hk, hn⟩, ⟨hv, hm⟩⟩
  rw [split, Value.nestingEntries_le]
  exact Sequence.and_iff

theorem value_sound {ending n : Nat} {nested : Reader Value} {shortens : Shortens nested}
    (hs : Sound nested (Shallow n)) {tokens rest : List Token} {v : Value}
    (hq : WellQuoted tokens) (h : value ending nested shortens tokens = .ok v rest) :
    ∃ ts, tokens = ts ++ rest ∧ Form ts v ∧ v.nesting ≤ n + 1 ∧
      (v.isQuoted = true → NoDot rest) := by
  cases tokens with
  | nil => simp [value, unexpected] at h
  | cons t left =>
    have hq' : WellQuoted left := fun u hu => hq u (by simp [hu])
    simp only [value] at h
    split at h
    · next hm =>
      obtain ⟨vs, hb, rfl⟩ := map_eq_ok.1 h
      obtain ⟨ts, last, rfl, hS, hl⟩ := bracketed_sound hs hq' hb
      obtain ⟨hE, hn⟩ := sequence_shallow.1 hS
      exact ⟨t :: ts ++ [last], by simp, .apply (mark?_eq_some_iff.1 hm) hE hl,
        Nat.succ_le_succ hn, by simp [Value.isQuoted]⟩
    · next hm =>
      obtain ⟨vs, hb, rfl⟩ := map_eq_ok.1 h
      obtain ⟨ts, last, rfl, hS, hl⟩ := bracketed_sound hs hq' hb
      obtain ⟨hE, hn⟩ := sequence_shallow.1 hS
      exact ⟨t :: ts ++ [last], by simp, .list (mark?_eq_some_iff.1 hm) hE hl,
        Nat.succ_le_succ hn, by simp [Value.isQuoted]⟩
    · next hm =>
      obtain ⟨es, hb, rfl⟩ := map_eq_ok.1 h
      obtain ⟨ts, last, rfl, hS, hl⟩ := bracketed_sound (entry_sound hs) hq' hb
      obtain ⟨hE, hn⟩ := entries_shallow.1 hS
      exact ⟨t :: ts ++ [last], by simp, .map (mark?_eq_some_iff.1 hm) hE hl,
        Nat.succ_le_succ hn, by simp [Value.isQuoted]⟩
    · next hm =>
      obtain ⟨body, hb, rfl⟩ := map_eq_ok.1 h
      obtain ⟨ts, rfl, ⟨hE, hn⟩, hd⟩ := hs _ _ _ hq' hb
      exact ⟨t :: ts, rfl, .quote (mark?_eq_some_iff.1 hm) hE, Nat.succ_le_succ hn, fun _ => hd⟩
    · next hm =>
      obtain ⟨body, hb, rfl⟩ := map_eq_ok.1 h
      obtain ⟨ts, rfl, ⟨hE, hn⟩, hd⟩ := hs _ _ _ hq' hb
      exact ⟨t :: ts, rfl, .unquote (mark?_eq_some_iff.1 hm) hE, Nat.succ_le_succ hn, fun _ => hd⟩
    · split at h
      · next w hw =>
        simp only [EStateM.Result.ok.injEq] at h
        obtain ⟨rfl, rfl⟩ := h
        have hl : Leaf t w := leaf_of_literal hw (hq t (by simp))
        exact ⟨[t], rfl, .leaf hl, by simp [hl.nesting], by simp [hl.not_quoted]⟩
      · simp at h
      · exact absurd h unexpected_ne_ok

theorem value_complete {ending n : Nat} {nested : Reader Value} {shortens : Shortens nested}
    (hc : Complete nested (Shallow n)) {ts rest : List Token} {v : Value} (h : Form ts v)
    (hn : v.nesting ≤ n + 1) (hd : v.isQuoted = true → NoDot rest) :
    value ending nested shortens (ts ++ rest) = .ok v rest := by
  have inside {β : Type} {item : Reader β} {short : Shortens item} {R : List Token → β → Prop}
      {b : Bracket} {us : List Token} {last : Token} {vs : List β} (f : List β → Value)
      (hi : Complete item R) (ho : Opening R) (hS : Sequence R us vs)
      (hl : IsMark (.closing b) last) :
      (f <$> bracketed ending b item short) (us ++ last :: rest) = .ok (f vs) rest :=
    map_eq_ok.2 ⟨vs, bracketed_complete hi ho hS hl, rfl⟩
  cases h with
  | leaf hl => simp [value, mark?_eq_none hl.kind_ne, hl.literal]
  | apply hf hS hl =>
    have hS' := sequence_shallow.2 ⟨hS, Nat.le_of_succ_le_succ hn⟩
    simpa [value, mark?_eq_some_iff.2 hf] using inside _ hc (shallow_opening n) hS' hl
  | list hf hS hl =>
    have hS' := sequence_shallow.2 ⟨hS, Nat.le_of_succ_le_succ hn⟩
    simpa [value, mark?_eq_some_iff.2 hf] using inside _ hc (shallow_opening n) hS' hl
  | map hf hS hl =>
    have hS' := entries_shallow.2 ⟨hS, Nat.le_of_succ_le_succ hn⟩
    simpa [value, mark?_eq_some_iff.2 hf] using
      inside _ (entry_complete hc) (entry_opening n) hS' hl
  | quote hf hE =>
    have hb := hc _ _ _ ⟨hE, Nat.le_of_succ_le_succ hn⟩ (hd rfl)
    simp [value, mark?_eq_some_iff.2 hf, map_eq_ok, hb]
  | unquote hf hE =>
    have hb := hc _ _ _ ⟨hE, Nat.le_of_succ_le_succ hn⟩ (hd rfl)
    simp [value, mark?_eq_some_iff.2 hf, map_eq_ok, hb]

theorem link_sound {ending n : Nat} {nested : Reader Value} {shortens : Shortens nested}
    (hs : Sound nested (Shallow n)) :
    Sound (link ending nested shortens) (Shallow (n + 1)) := by
  intro tokens rest v hq h
  obtain ⟨base, left, hb, h⟩ := bind_eq_ok.1 h
  obtain ⟨keys, left', hk, h⟩ := bind_eq_ok.1 h
  obtain ⟨rfl, rfl⟩ := pure_eq_ok.1 h
  obtain ⟨ts, rfl, hF, hn, hd⟩ := value_sound hs hq hb
  obtain ⟨us, rfl, hA, hr⟩ := accessors_sound ending _ _ _ hq.right hk
  cases keys with
  | nil =>
    cases hA
    exact ⟨ts, rfl, ⟨.bare hF, hn⟩, hr⟩
  | cons key keys =>
    have hB : base.isQuoted = false := by
      cases hQ : base.isQuoted with
      | false => rfl
      | true => exact absurd (accessors_of_noDot (hd hQ) hk).1 (by simp)
    exact ⟨ts ++ us, by rw [List.append_assoc], ⟨.drill hF hB hA (by simp), hn⟩, hr⟩

theorem link_complete {ending n : Nat} {nested : Reader Value} {shortens : Shortens nested}
    (hc : Complete nested (Shallow n)) :
    Complete (link ending nested shortens) (Shallow (n + 1)) := by
  rintro _ rest _ ⟨hE, hn⟩ hd
  have joined {ts us : List Token} {base : Value} {keys : List Value} (hF : Form ts base)
      (hm : base.nesting ≤ n + 1) (hq : base.isQuoted = true → NoDot (us ++ rest))
      (hA : Accessors us keys) :
      link ending nested shortens (ts ++ (us ++ rest)) = .ok (chain base keys) rest :=
    bind_eq_ok.2 ⟨base, _, value_complete hc hF hm hq, bind_eq_ok.2 ⟨keys, rest,
      accessors_complete ending _ _ _ hA hd, pure_eq_ok.2 ⟨rfl, rfl⟩⟩⟩
  cases hE with
  | bare hF =>
    have hd' : NoDot ([] ++ rest) := hd
    exact joined hF hn (fun _ => hd') .nil
  | @drill ts us base keys hF hB hA hne =>
    cases keys with
    | nil => exact absurd rfl hne
    | cons key keys =>
      rw [List.append_assoc]
      exact joined hF hn (by simp [hB]) hA

theorem expression_sound (ending n : Nat) : Sound (expression ending n) (Shallow n) := by
  induction n with
  | zero =>
    intro tokens rest v _ h
    simp [expression_zero, tooDeep] at h
  | succ n ih => exact link_sound ih

theorem expression_complete (ending n : Nat) : Complete (expression ending n) (Shallow n) := by
  induction n with
  | zero =>
    rintro ts rest v ⟨hE, hn⟩ _
    exact absurd hn (Nat.not_le.2 hE.nesting_pos)
  | succ n ih => exact link_complete ih

theorem expression_ok_iff {ending n : Nat} {tokens rest : List Token} {v : Value}
    (hq : WellQuoted tokens) : expression ending n tokens = .ok v rest ↔
      ∃ ts, tokens = ts ++ rest ∧ Expression ts v ∧ v.nesting ≤ n ∧ NoDot rest := by
  constructor
  · intro h
    obtain ⟨ts, ht, ⟨hE, hn⟩, hd⟩ := expression_sound ending n _ _ _ hq h
    exact ⟨ts, ht, hE, hn, hd⟩
  · rintro ⟨ts, rfl, hE, hn, hd⟩
    exact expression_complete ending n _ _ _ ⟨hE, hn⟩ hd

theorem program_ok_iff {ending : Nat} {tokens rest : List Token} {w : Value}
    (hq : WellQuoted tokens) : program ending tokens = .ok w rest ↔
      rest = [] ∧ ∃ vs, w = .apply (.symbol "do" :: vs) ∧ Sequence Expression tokens vs ∧
        ∀ v ∈ vs, v.nesting ≤ nestingLimit := by
  refine bind_eq_ok.trans ?_
  constructor
  · rintro ⟨vs, left, hm, hp⟩
    obtain ⟨rfl, rfl⟩ := pure_eq_ok.1 hp
    obtain ⟨ts, rfl, hS, hr⟩ := many_sound (expression_sound ending nestingLimit) hq hm
    obtain ⟨hE, hn⟩ := Sequence.and_iff.1 hS
    have hnil : left = [] := by
      cases left with
      | nil => rfl
      | cons t left => simpa using hr t
    rw [hnil, List.append_nil]
    exact ⟨rfl, vs, rfl, hE, hn⟩
  · rintro ⟨rfl, vs, rfl, hE, hn⟩
    have hm : many (fun _ => false) (expression ending nestingLimit)
        (expression_shortens ending nestingLimit) (tokens ++ []) = .ok vs [] := by
      apply many_complete (expression_complete ending nestingLimit) (shallow_opening nestingLimit)
      · simp
      · exact Sequence.and_iff.2 ⟨hE, hn⟩
      · simp [NoDot]
      · simp
    rw [List.append_nil] at hm
    exact ⟨vs, [], hm, pure_eq_ok.2 ⟨rfl, rfl⟩⟩

end EmbeddedLisp.Reader

namespace EmbeddedLisp
open Grammar

theorem Parser.step_eq_ok {α : Type} {p q : Parser} {r : Reader α} {v : α} :
    p.step r = (.ok v, q) ↔ r p.rest = .ok v q.rest ∧ q.ending = p.ending := by
  obtain ⟨ending, rest⟩ := q
  unfold Parser.step
  cases r p.rest with
  | ok w left =>
    simp only [Prod.mk.injEq, Except.ok.injEq, Parser.mk.injEq, EStateM.Result.ok.injEq]
    constructor
    · rintro ⟨rfl, rfl, rfl⟩
      exact ⟨⟨rfl, rfl⟩, rfl⟩
    · rintro ⟨⟨rfl, rfl⟩, rfl⟩
      exact ⟨rfl, rfl, rfl⟩
  | error e left => simp

theorem Parser.step_ok {α : Type} {p : Parser} {r : Reader α} {v : α} :
    (p.step r).1 = .ok v ↔ ∃ rest, r p.rest = .ok v rest := by
  unfold Parser.step
  cases r p.rest with
  | ok w left => simp
  | error e left => simp

theorem readExpression_ok_iff {ts : List Token} {v : Value} (hq : WellQuoted ts) :
    readExpression ts = .ok v ↔ ∃ us rest, ts = us ++ rest ∧ Expression us v ∧
      v.nesting ≤ Reader.nestingLimit ∧ NoDot rest := by
  unfold readExpression Parser.expression
  rw [Parser.step_ok, exists_comm]
  simp only [Parser.ofTokens, Reader.expression_ok_iff hq]

theorem readProgram_ok_iff {ts : List Token} {w : Value} (hq : WellQuoted ts) :
    readProgram ts = .ok w ↔ ∃ vs, w = .apply (.symbol "do" :: vs) ∧ Sequence Expression ts vs ∧
      ∀ v ∈ vs, v.nesting ≤ Reader.nestingLimit := by
  unfold readProgram Parser.program
  rw [Parser.step_ok]
  simp only [Parser.ofTokens, Reader.program_ok_iff hq, exists_eq_left]

/-- The first `k` tokens derive the value within the limit, and no dot comes behind them. -/
def Grammar.Derives (ts : List Token) (k : Nat) (v : Value) : Prop :=
  k ≤ ts.length ∧ Expression (ts.take k) v ∧ v.nesting ≤ Reader.nestingLimit ∧
    ∀ t, ts[k]? = some t → ¬ IsMark .dot t

/-- A fresh parser gives the value and stands behind exactly `k` tokens. -/
def Parser.Reads (ts : List Token) (k : Nat) (v : Value) : Prop :=
  k ≤ ts.length ∧ (ofTokens ts).expression = (.ok v, { ofTokens ts with rest := ts.drop k })

theorem Parser.reads_iff {ts : List Token} (hq : WellQuoted ts) (k : Nat) (v : Value) :
    Reads ts k v ↔ Derives ts k v := by
  have hdot : NoDot (ts.drop k) ↔ ∀ t, ts[k]? = some t → ¬ IsMark .dot t := by
    simp [NoDot, List.head?_drop]
  unfold Reads Derives Parser.expression
  rw [Parser.step_eq_ok, ← hdot]
  simp only [Parser.ofTokens, and_true, Reader.expression_ok_iff hq]
  constructor
  · rintro ⟨hk, us, hts, hE, hn, hd⟩
    have hus : ts.take k = us :=
      List.append_cancel_right ((List.take_append_drop k ts).trans hts)
    exact ⟨hk, hus ▸ hE, hn, hd⟩
  · rintro ⟨hk, hE, hn, hd⟩
    exact ⟨hk, ts.take k, (List.take_append_drop k ts).symm, hE, hn, hd⟩

theorem Parser.reads_unique {ts : List Token} {v w : Value} {k l : Nat}
    (hv : Reads ts k v) (hw : Reads ts l w) : v = w ∧ k = l := by
  have heq := hv.2.symm.trans hw.2
  simp only [Prod.mk.injEq, Except.ok.injEq, Parser.mk.injEq, ofTokens, true_and] at heq
  have hlen := congrArg List.length heq.2
  simp only [List.length_drop] at hlen
  have hk := hv.1
  have hl := hw.1
  exact ⟨heq.1, by omega⟩

/-- The parser accepts exactly what the grammar derives within the limit on nesting: one
expression, which ends where no dot follows, or a program, which is cut into expressions
up to its end. -/
theorem parser_reads_grammar (ts : List Token) (hq : WellQuoted ts) :
    (∀ k v, Parser.Reads ts k v ↔ Derives ts k v) ∧
    (∀ k l v w, Derives ts k v → Derives ts l w → v = w ∧ k = l) ∧
    (∀ w, readProgram ts = .ok w ↔ ∃ vs, w = .apply (.symbol "do" :: vs) ∧
      Sequence Expression ts vs ∧ ∀ v ∈ vs, v.nesting ≤ Reader.nestingLimit) := by
  refine ⟨Parser.reads_iff hq, ?_, fun w => readProgram_ok_iff hq⟩
  intro k l v w hv hw
  exact Parser.reads_unique ((Parser.reads_iff hq k v).2 hv) ((Parser.reads_iff hq l w).2 hw)

theorem parser_reads_quoted_chain :
    let ts : List Token := [⟨.punctuation, "(", 0⟩, ⟨.punctuation, "#", 1⟩, ⟨.identifier, "a", 2⟩,
      ⟨.punctuation, ".", 3⟩, ⟨.string, "\"\\n\"", 4⟩, ⟨.integer, "5", 9⟩, ⟨.float, "2.5", 11⟩,
      ⟨.punctuation, ")", 14⟩, ⟨.identifier, "b", 16⟩]
    let v : Value := .apply [.quote (.drill [.symbol "a", .str "\n"]), .int 5,
      .float ⟨0x4004000000000000⟩]
    WellQuoted ts ∧ Parser.Reads ts 8 v := by
  intro ts v
  have hb : "\"\\n\"".toList = '"' :: ['\\', 'n'] ++ ['"'] := by decide
  have hq : WellQuoted ts := by
    simp only [ts, WellQuoted, List.forall_mem_cons, reduceCtorEq, false_implies, true_and]
    exact ⟨fun _ => ⟨_, hb⟩, by simp⟩
  have hl : Leaf ⟨.string, "\"\\n\"", 4⟩ (.str "\n") := .string rfl hb (.lineFeed .nil)
  have hk : Accessors [⟨.punctuation, ".", 3⟩, ⟨.string, "\"\\n\"", 4⟩] [.str "\n"] :=
    .cons ⟨rfl, rfl⟩ hl (by simp) .nil
  have hd : Expression [⟨.identifier, "a", 2⟩, ⟨.punctuation, ".", 3⟩, ⟨.string, "\"\\n\"", 4⟩]
      (.drill [.symbol "a", .str "\n"]) :=
    .drill (.leaf (.identifier rfl)) rfl hk (by simp)
  have hi : Leaf ⟨.integer, "5", 9⟩ (.int 5) := .integer rfl rfl
  have hx : Leaf ⟨.float, "2.5", 11⟩ (.float ⟨0x4004000000000000⟩) := by
    have hparse : (Binary64.parse "2.5".toList).toOption = some ⟨0x4004000000000000⟩ := by
      decide +kernel
    cases h : Binary64.parse "2.5".toList with
    | error e =>
      rw [h] at hparse
      cases hparse
    | ok x =>
      rw [h] at hparse
      obtain rfl := Option.some.inj hparse
      exact .float rfl h
  have hnumbers : Sequence Expression [⟨.integer, "5", 9⟩, ⟨.float, "2.5", 11⟩]
      [.int 5, .float ⟨0x4004000000000000⟩] :=
    .cons (Expression.bare (.leaf hi)) (.cons (Expression.bare (.leaf hx)) .nil)
  have he : Expression (ts.take 8) v :=
    .bare (.apply ⟨rfl, rfl⟩ (.cons (Expression.bare (.quote ⟨rfl, rfl⟩ hd)) hnumbers) ⟨rfl, rfl⟩)
  refine ⟨hq, ((parser_reads_grammar ts hq).1 8 v).2 ⟨by simp [ts], he, by decide, ?_⟩⟩
  intro t ht
  obtain rfl : (⟨.identifier, "b", 16⟩ : Token) = t := by simpa [ts] using ht
  decide

end EmbeddedLisp
