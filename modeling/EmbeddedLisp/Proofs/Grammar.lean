import EmbeddedLisp.Reader.Parser

/-!
# The grammar of expressions

The grammar is a derivation relation from sequences of tokens to values. It says
nothing about offsets, about the order in which tokens are looked at, or about
levels. Marks and the pairs inside of strings are spelled out here, and the reader
is shown to know the same ones. A number literal is any text that parses as such a
number. The one ambiguity is settled in the rule for drills: what begins with a quote
or unquote mark is never the base of a chain.
-/

set_option autoImplicit false

namespace EmbeddedLisp

mutual

/-- The depth of nested expressions. The accessors of a drill do not count, and its base
stands at the level of the drill. -/
def Value.nesting : Value → Nat
  | .apply items => Value.nestingItems items + 1
  | .list items => Value.nestingItems items + 1
  | .map entries => Value.nestingEntries entries + 1
  | .drill chain => Value.nestingBase chain
  | .quote body => Value.nesting body + 1
  | .unquote body => Value.nesting body + 1
  | _ => 1

def Value.nestingItems : List Value → Nat
  | [] => 0
  | v :: vs => max (Value.nesting v) (Value.nestingItems vs)

def Value.nestingEntries : List (Value × Value) → Nat
  | [] => 0
  | (k, v) :: es => max (max (Value.nesting k) (Value.nesting v)) (Value.nestingEntries es)

def Value.nestingBase : List Value → Nat
  | [] => 1
  | base :: _ => Value.nesting base

end

def Value.isQuoted : Value → Bool
  | .quote _ | .unquote _ => true
  | _ => false

namespace Grammar
open Reader (Mark Bracket)

def spelling : Mark → String
  | .opening .round => "("
  | .closing .round => ")"
  | .opening .square => "["
  | .closing .square => "]"
  | .opening .curly => "\x7b"
  | .closing .curly => "\x7d"
  | .quote => "#"
  | .unquote => "$"
  | .dot => "."

def IsMark (m : Mark) (t : Token) : Prop := t.kind = .punctuation ∧ t.literal = spelling m

/-- What stands between the quotes of a string, and the text that it is written for. -/
inductive Decoded : List Char → List Char → Prop
  | nil : Decoded [] []
  | lineFeed {body text : List Char} :
      Decoded body text → Decoded ('\\' :: 'n' :: body) ('\n' :: text)
  | tab {body text : List Char} :
      Decoded body text → Decoded ('\\' :: 't' :: body) ('\t' :: text)
  | pair {c : Char} {body text : List Char} :
      c ≠ 'n' → c ≠ 't' → Decoded body text → Decoded ('\\' :: c :: body) ('\\' :: c :: text)
  | dangling : Decoded ['\\'] ['\\']
  | bare {c : Char} {body text : List Char} :
      c ≠ '\\' → Decoded body text → Decoded (c :: body) (c :: text)

inductive Leaf : Token → Value → Prop
  | identifier {t : Token} : t.kind = .identifier → Leaf t (.symbol t.literal)
  | integer {t : Token} {n : Int64} :
      t.kind = .integer → Integer.parse t.literal.toList = .ok n → Leaf t (.int n)
  | float {t : Token} {x : Binary64} :
      t.kind = .float → Binary64.parse t.literal.toList = .ok x → Leaf t (.float x)
  | string {t : Token} {body text : List Char} :
      t.kind = .string → t.literal.toList = '"' :: body ++ ['"'] → Decoded body text →
      Leaf t (.str (String.ofList text))

/-- One accessor behind each dot. A float is no accessor. -/
inductive Accessors : List Token → List Value → Prop
  | nil : Accessors [] []
  | cons {dot key : Token} {ts : List Token} {v : Value} {vs : List Value} :
      IsMark .dot dot → Leaf key v → key.kind ≠ .float → Accessors ts vs →
      Accessors (dot :: key :: ts) (v :: vs)

inductive Sequence {α : Type} (R : List Token → α → Prop) : List Token → List α → Prop
  | nil : Sequence R [] []
  | cons {ts us : List Token} {v : α} {vs : List α} :
      R ts v → Sequence R us vs → Sequence R (ts ++ us) (v :: vs)

inductive Entry (R : List Token → Value → Prop) : List Token → Value × Value → Prop
  | mk {ts us : List Token} {k v : Value} : R ts k → R us v → Entry R (ts ++ us) (k, v)

mutual

inductive Expression : List Token → Value → Prop
  | bare {ts : List Token} {v : Value} : Form ts v → Expression ts v
  | drill {ts us : List Token} {base : Value} {keys : List Value} :
      Form ts base → base.isQuoted = false → Accessors us keys → keys ≠ [] →
      Expression (ts ++ us) (.drill (base :: keys))

/-- An expression without accessors of its own. -/
inductive Form : List Token → Value → Prop
  | leaf {t : Token} {v : Value} : Leaf t v → Form [t] v
  | apply {first last : Token} {ts : List Token} {vs : List Value} :
      IsMark (.opening .round) first → Sequence Expression ts vs →
      IsMark (.closing .round) last → Form (first :: ts ++ [last]) (.apply vs)
  | list {first last : Token} {ts : List Token} {vs : List Value} :
      IsMark (.opening .square) first → Sequence Expression ts vs →
      IsMark (.closing .square) last → Form (first :: ts ++ [last]) (.list vs)
  | map {first last : Token} {ts : List Token} {es : List (Value × Value)} :
      IsMark (.opening .curly) first → Sequence (Entry Expression) ts es →
      IsMark (.closing .curly) last → Form (first :: ts ++ [last]) (.map es)
  | quote {first : Token} {ts : List Token} {v : Value} :
      IsMark .quote first → Expression ts v → Form (first :: ts) (.quote v)
  | unquote {first : Token} {ts : List Token} {v : Value} :
      IsMark .unquote first → Expression ts v → Form (first :: ts) (.unquote v)

end

/-- A property that every rule of the grammar keeps. Of the base of a chain it is known that
it is derived without accessors of its own. -/
structure Closed (P : List Token → Value → Prop) : Prop where
  leaf {t : Token} {v : Value} : Leaf t v → P [t] v
  apply {first last : Token} {ts : List Token} {vs : List Value} :
    IsMark (.opening .round) first → Sequence P ts vs → IsMark (.closing .round) last →
    P (first :: ts ++ [last]) (.apply vs)
  list {first last : Token} {ts : List Token} {vs : List Value} :
    IsMark (.opening .square) first → Sequence P ts vs → IsMark (.closing .square) last →
    P (first :: ts ++ [last]) (.list vs)
  map {first last : Token} {ts : List Token} {es : List (Value × Value)} :
    IsMark (.opening .curly) first → Sequence (Entry P) ts es → IsMark (.closing .curly) last →
    P (first :: ts ++ [last]) (.map es)
  quote {first : Token} {ts : List Token} {v : Value} :
    IsMark .quote first → P ts v → P (first :: ts) (.quote v)
  unquote {first : Token} {ts : List Token} {v : Value} :
    IsMark .unquote first → P ts v → P (first :: ts) (.unquote v)
  drill {ts us : List Token} {base : Value} {keys : List Value} :
    Form ts base → base.isQuoted = false → P ts base → Accessors us keys → keys ≠ [] →
    P (ts ++ us) (.drill (base :: keys))

mutual

theorem Expression.of_closed {P : List Token → Value → Prop} (hP : Closed P) {ts : List Token}
    {v : Value} (h : Expression ts v) : P ts v := by
  match h with
  | .bare hf => exact Form.of_closed hP hf
  | .drill hf hq ha hk => exact hP.drill hf hq (Form.of_closed hP hf) ha hk

theorem Form.of_closed {P : List Token → Value → Prop} (hP : Closed P) {ts : List Token}
    {v : Value} (h : Form ts v) : P ts v := by
  match h with
  | .leaf hl => exact hP.leaf hl
  | .apply hf hs hl => exact hP.apply hf (Sequence.of_closed hP hs) hl
  | .list hf hs hl => exact hP.list hf (Sequence.of_closed hP hs) hl
  | .map hf hs hl => exact hP.map hf (Sequence.entries_of_closed hP hs) hl
  | .quote hf hb => exact hP.quote hf (Expression.of_closed hP hb)
  | .unquote hf hb => exact hP.unquote hf (Expression.of_closed hP hb)

theorem Sequence.of_closed {P : List Token → Value → Prop} (hP : Closed P) {ts : List Token}
    {vs : List Value} (h : Sequence Expression ts vs) : Sequence P ts vs := by
  match h with
  | .nil => exact .nil
  | .cons hv hs => exact .cons (Expression.of_closed hP hv) (Sequence.of_closed hP hs)

theorem Sequence.entries_of_closed {P : List Token → Value → Prop} (hP : Closed P)
    {ts : List Token} {es : List (Value × Value)} (h : Sequence (Entry Expression) ts es) :
    Sequence (Entry P) ts es := by
  match h with
  | .nil => exact .nil
  | .cons (.mk hk hv) hs =>
    exact .cons (.mk (Expression.of_closed hP hk) (Expression.of_closed hP hv))
      (Sequence.entries_of_closed hP hs)

end

def WellQuoted (ts : List Token) : Prop :=
  ∀ t ∈ ts, t.kind = .string → ∃ body, t.literal.toList = '"' :: body ++ ['"']

def NoDot (ts : List Token) : Prop := ∀ t ∈ ts.head?, ¬ IsMark .dot t

def Begins (t : Token) : Prop := ¬ IsMark .dot t ∧ ∀ b, ¬ IsMark (.closing b) t

instance (m : Mark) (t : Token) : Decidable (IsMark m t) := inferInstanceAs (Decidable (_ ∧ _))

theorem spelling_injective {m n : Mark} (h : spelling m = spelling n) : m = n := by
  revert h
  rcases m with (_ | _ | _) | (_ | _ | _) | _ | _ | _ <;>
    rcases n with (_ | _ | _) | (_ | _ | _) | _ | _ | _ <;> decide

theorem literal_eq_spelling (m : Mark) : m.literal = spelling m := by
  rcases m with (_ | _ | _) | (_ | _ | _) | _ | _ | _ <;> rfl

theorem IsMark.unique {m n : Mark} {t : Token} (hm : IsMark m t) (hn : IsMark n t) : m = n :=
  spelling_injective (hm.2.symm.trans hn.2)

theorem isMark_iff {m : Mark} {t : Token} : t.isMark m.literal = true ↔ IsMark m t := by
  simp [Token.isMark, IsMark, literal_eq_spelling]

theorem mark?_eq_some_iff {m : Mark} {t : Token} : Reader.mark? t = some m ↔ IsMark m t := by
  have found {n : Mark} (h : Reader.mark? t = some n) : IsMark n t :=
    isMark_iff.1 (List.find?_some (p := fun m : Mark => t.isMark m.literal) h)
  constructor
  · exact found
  · intro h
    have hall : m ∈ Mark.all := by
      rcases m with (_ | _ | _) | (_ | _ | _) | _ | _ | _ <;> decide
    cases hn : Reader.mark? t with
    | none => exact absurd (isMark_iff.2 h) (by simpa using List.find?_eq_none.1 hn m hall)
    | some n => rw [h.unique (found hn)]

theorem mark?_eq_none {t : Token} (h : t.kind ≠ .punctuation) : Reader.mark? t = none := by
  cases hm : Reader.mark? t with
  | none => rfl
  | some m => exact absurd (mark?_eq_some_iff.1 hm).1 h

theorem Leaf.kind_ne {t : Token} {v : Value} (h : Leaf t v) : t.kind ≠ .punctuation := by
  cases h <;> simp_all

theorem Leaf.not_quoted {t : Token} {v : Value} (h : Leaf t v) : v.isQuoted = false := by
  cases h <;> rfl

theorem Leaf.nesting {t : Token} {v : Value} (h : Leaf t v) : v.nesting = 1 := by
  cases h <;> rfl

theorem decoded_unescape (body : List Char) : Decoded body (Reader.unescape body) := by
  fun_induction Reader.unescape body with
  | case1 => exact .nil
  | case2 rest ih => exact .lineFeed ih
  | case3 rest ih => exact .tab ih
  | case4 c rest hn ht ih => exact .pair hn ht ih
  | case5 c rest hn ht hp ih =>
    by_cases hc : c = '\\'
    · subst hc
      cases rest with
      | nil => exact .dangling
      | cons d rest => exact absurd rfl (hp d rest rfl)
    · exact .bare hc ih

theorem Decoded.unescape_eq {body text : List Char} (h : Decoded body text) :
    Reader.unescape body = text := by
  induction h with
  | nil => rfl
  | lineFeed _ ih => rw [Reader.unescape, ih]
  | tab _ ih => rw [Reader.unescape, ih]
  | pair hn ht _ ih =>
    rw [Reader.unescape, ih]
    · exact hn
    · exact ht
  | dangling => rfl
  | bare hc _ ih =>
    rw [Reader.unescape, ih]
    · exact fun _ h _ => hc h
    · exact fun _ h _ => hc h
    · exact fun _ _ h _ => hc h

theorem stringBody?_quoted (body : List Char) :
    Reader.stringBody? ('"' :: body ++ ['"']) = some body := by
  have hq : ('"' : Char).utf8Size = 1 := by decide
  cases body with
  | nil => simp [Reader.stringBody?, hq]
  | cons c body =>
    have hlast : (c :: (body ++ ['"'])).getLast (by simp) = '"' :=
      (List.getLast_cons (by simp)).trans List.getLast_concat
    have hrest : (c :: (body ++ ['"'])).dropLast = c :: body := by
      rw [← List.cons_append, List.dropLast_concat]
    simp only [List.cons_append, Reader.stringBody?, hlast, hrest, hq, and_self, if_true]

theorem Leaf.literal {t : Token} {v : Value} (h : Leaf t v) : Reader.literal? t = some (.ok v) := by
  cases h with
  | identifier hk => simp [Reader.literal?, hk]
  | integer hk hp => simp [Reader.literal?, hk, hp]
  | float hk hp => simp [Reader.literal?, hk, hp]
  | string hk hl hd =>
    simp only [Reader.literal?, hk, hl, stringBody?_quoted, hd.unescape_eq]

theorem leaf_of_literal {t : Token} {v : Value} (h : Reader.literal? t = some (.ok v))
    (hq : t.kind = .string → ∃ body, t.literal.toList = '"' :: body ++ ['"']) : Leaf t v := by
  obtain ⟨kind, literal, offset⟩ := t
  cases kind with
  | identifier =>
    simp only [Reader.literal?, Option.some.injEq, Except.ok.injEq] at h
    exact h ▸ .identifier rfl
  | integer =>
    simp only [Reader.literal?, Option.some.injEq] at h
    split at h
    · next n hn => exact Except.ok.inj h ▸ .integer rfl hn
    · simp at h
  | float =>
    simp only [Reader.literal?, Option.some.injEq] at h
    split at h
    · next x hx => exact Except.ok.inj h ▸ .float rfl hx
    · simp at h
  | string =>
    obtain ⟨body, hb⟩ := hq rfl
    simp only at hb
    simp only [Reader.literal?, hb, stringBody?_quoted, Option.some.injEq, Except.ok.injEq] at h
    exact h ▸ .string rfl hb (decoded_unescape body)
  | comment => simp [Reader.literal?] at h
  | punctuation => simp [Reader.literal?] at h
  | whitespace => simp [Reader.literal?] at h

theorem Leaf.begins {t : Token} {v : Value} (h : Leaf t v) : Begins t :=
  ⟨fun hd => h.kind_ne hd.1, fun _ hc => h.kind_ne hc.1⟩

theorem IsMark.begins {m : Mark} {t : Token} (h : IsMark m t) (hd : m ≠ .dot)
    (hc : ∀ b, m ≠ .closing b) : Begins t :=
  ⟨fun hm => hd (h.unique hm), fun b hm => hc b (h.unique hm)⟩

theorem Form.begins {ts : List Token} {v : Value} (h : Form ts v) :
    ∃ t us, ts = t :: us ∧ Begins t := by
  cases h with
  | leaf hl => exact ⟨_, _, rfl, hl.begins⟩
  | apply hf _ _ => exact ⟨_, _, rfl, hf.begins (by simp) (by simp)⟩
  | list hf _ _ => exact ⟨_, _, rfl, hf.begins (by simp) (by simp)⟩
  | map hf _ _ => exact ⟨_, _, rfl, hf.begins (by simp) (by simp)⟩
  | quote hf _ => exact ⟨_, _, rfl, hf.begins (by simp) (by simp)⟩
  | unquote hf _ => exact ⟨_, _, rfl, hf.begins (by simp) (by simp)⟩

theorem Expression.begins {ts : List Token} {v : Value} (h : Expression ts v) :
    ∃ t us, ts = t :: us ∧ Begins t := by
  cases h with
  | bare hf => exact hf.begins
  | @drill ts us _ _ hf _ _ _ =>
    obtain ⟨t, ts', rfl, ht⟩ := hf.begins
    exact ⟨t, ts' ++ us, rfl, ht⟩

theorem Entry.begins {ts : List Token} {e : Value × Value} (h : Entry Expression ts e) :
    ∃ t us, ts = t :: us ∧ Begins t := by
  obtain @⟨ts, us, k, v, hk, _⟩ := h
  obtain ⟨t, ts', rfl, ht⟩ := hk.begins
  exact ⟨t, ts' ++ us, rfl, ht⟩

theorem Form.nesting_pos {ts : List Token} {v : Value} (h : Form ts v) : 0 < v.nesting := by
  cases h with
  | leaf hl => simp [hl.nesting]
  | _ => exact Nat.succ_pos _

theorem Expression.nesting_pos {ts : List Token} {v : Value} (h : Expression ts v) :
    0 < v.nesting := by
  cases h with
  | bare hf => exact hf.nesting_pos
  | drill hf _ _ _ => exact hf.nesting_pos

theorem WellQuoted.left {ts us : List Token} (h : WellQuoted (ts ++ us)) : WellQuoted ts :=
  fun t ht => h t (List.mem_append_left us ht)

theorem WellQuoted.right {ts us : List Token} (h : WellQuoted (ts ++ us)) : WellQuoted us :=
  fun t ht => h t (List.mem_append_right ts ht)

theorem Sequence.and_iff {α : Type} {R : List Token → α → Prop} {P : α → Prop}
    {ts : List Token} {vs : List α} :
    Sequence (fun us v => R us v ∧ P v) ts vs ↔ Sequence R ts vs ∧ ∀ v ∈ vs, P v := by
  constructor
  · intro h
    induction h with
    | nil => exact ⟨.nil, by simp⟩
    | cons hv _ ih => exact ⟨.cons hv.1 ih.1, by simpa using ⟨hv.2, ih.2⟩⟩
  · rintro ⟨h, hp⟩
    induction h with
    | nil => exact .nil
    | cons hv _ ih =>
      exact .cons ⟨hv, hp _ (by simp)⟩ (ih fun w hw => hp w (by simp [hw]))

end Grammar

namespace Value

theorem nestingItems_le {vs : List Value} {n : Nat} :
    nestingItems vs ≤ n ↔ ∀ v ∈ vs, v.nesting ≤ n := by
  induction vs with
  | nil => simp [nestingItems]
  | cons v vs ih => simp only [nestingItems, ih, Nat.max_le, List.forall_mem_cons]

theorem nestingEntries_le {es : List (Value × Value)} {n : Nat} :
    nestingEntries es ≤ n ↔ ∀ e ∈ es, e.1.nesting ≤ n ∧ e.2.nesting ≤ n := by
  induction es with
  | nil => simp [nestingEntries]
  | cons e es ih =>
    obtain ⟨k, v⟩ := e
    simp only [nestingEntries, Nat.max_le, ih, List.forall_mem_cons]

end Value

end EmbeddedLisp
