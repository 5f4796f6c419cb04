import EmbeddedLisp.Proofs.Literals
import EmbeddedLisp.Proofs.Reading

/-!
# Quotes left open

A quote that no other one closes begins a name. Such a name stays a name only as long as
no closing quote follows it, however far away, so that behind it no token of the source
text holds one. This is a property of the tokens alone: it does not depend on the blanks
and comments between them.
-/

set_option autoImplicit false

namespace EmbeddedLisp.Token

def Piece.Opens (p : Piece) : Prop := p.kind = .identifier ∧ p.text.head? = some '"'

def Piece.Quiet (p : Piece) : Prop := closing? p.text = none

theorem closing?_of_plain {text : List Char} (h : ∀ c ∈ text, Plain c) : closing? text = none := by
  have hnone : closing? (text ++ []) = none := (closing?_plain_append h).2 rfl
  rwa [List.append_nil] at hnone

theorem Fits.plain_float {text rest : List Char} (h : Fits .float text rest) :
    ∀ c ∈ text, Plain c := by
  obtain ⟨whole, part, rfl, _, _, hw, hp, _⟩ := h
  simp only [List.mem_append, List.mem_cons]
  rintro c (hc | rfl | hc)
  · exact (isDigit_cases (hw c hc)).2
  · decide
  · exact (isDigit_cases (hp c hc)).2

theorem Fits.plain_integer {text rest : List Char} (h : Fits .integer text rest) :
    ∀ c ∈ text, Plain c :=
  fun c hc => (isDigit_cases (h.2.1 c hc)).2

theorem Fits.closing? {kind : Kind} {text rest : List Char} (h : Fits kind text rest)
    (hc : closing? (text ++ rest) = none) :
    Token.closing? text = none ∧ Token.closing? rest = none := by
  have plain (hp : ∀ c ∈ text, Plain c) :
      Token.closing? text = none ∧ Token.closing? rest = none :=
    ⟨closing?_of_plain hp, (closing?_plain_append hp).1 hc⟩
  cases kind with
  | comment =>
    obtain ⟨line, rfl, _, hr⟩ := h
    cases rest with
    | nil => exact ⟨by simpa using hc, rfl⟩
    | cons c rest =>
      obtain rfl : c = '\n' := by simpa using hr c (by simp)
      have hn : Plain '\n' := by decide
      rw [closing?_plain_eq_none hn]
      exact (closing?_append hn).1 hc
  | float => exact plain h.plain_float
  | integer => exact plain h.plain_integer
  | string =>
    obtain ⟨body, rfl, _⟩ := h
    simp [Token.closing?] at hc
  | punctuation =>
    obtain ⟨c, rfl, hp⟩ := h
    exact plain (by simpa using (isPunctuation_cases hp).2.2.2.2)
  | whitespace => exact plain fun c hc => (isSpace_cases (h.2.1 c hc)).2.2.2.2
  | identifier => exact (closing?_stops h.2.2.1).1 hc

theorem Cut.quiet {input : List Char} {ps : List Piece} (h : Cut input ps)
    (hc : closing? input = none) : ∀ p ∈ ps, p.Quiet := by
  induction h with
  | nil => simp
  | cons hf _ ih =>
    obtain ⟨ht, hr⟩ := hf.closing? hc
    simpa using ⟨ht, ih hr⟩

theorem Cut.pairwise {input : List Char} {ps : List Piece} (h : Cut input ps) :
    ps.Pairwise fun p q => p.Opens → q.Quiet := by
  induction h with
  | nil => exact .nil
  | @cons kind text rest ps hf hcut ih =>
    refine .cons (fun q hq hopen => ?_) ih
    obtain ⟨rfl, hhead⟩ := hopen
    exact hcut.quiet ((fits_identifier_iff.1 hf).2.2 hhead) q hq

end EmbeddedLisp.Token

namespace EmbeddedLisp
open Token Grammar

/-- What is known of tokens that were cut off a source text. -/
structure Orderly (ts : List Token) : Prop where
  shaped : ∀ t ∈ ts, ∃ rest, Fits t.kind t.literal.toList rest
  pairwise : ts.Pairwise fun t u => t.piece.Opens → u.piece.Quiet

theorem orderly_of_tokenize {source : String} {ts : List Token} (h : tokenize source = .ok ts) :
    Orderly ts := by
  refine ⟨fun t ht => fits_of_tokenize h ht, ?_⟩
  obtain ⟨ps, hps, hts⟩ := cut_of_tokenize h
  have hsig : (significant ps).Pairwise fun p q => p.Opens → q.Quiet :=
    hps.pairwise.sublist List.filter_sublist
  rw [← hts, List.pairwise_map] at hsig
  exact hsig

def Quiet (ts : List Token) : Prop := ∀ t ∈ ts, t.piece.Quiet

def Opened (ts : List Token) : Prop := ∃ t ∈ ts, t.piece.Opens

theorem Orderly.sublist {ts us : List Token} (h : Orderly us) (hs : ts.Sublist us) : Orderly ts :=
  ⟨fun t ht => h.shaped t (hs.subset ht), h.pairwise.sublist hs⟩

theorem Quiet.sublist {ts us : List Token} (h : Quiet us) (hs : ts.Sublist us) : Quiet ts :=
  fun t ht => h t (hs.subset ht)

theorem Opened.sublist {ts us : List Token} (h : Opened ts) (hs : ts.Sublist us) : Opened us := by
  obtain ⟨t, ht, ho⟩ := h
  exact ⟨t, hs.subset ht, ho⟩

theorem inner_sublist (first last : Token) (ts : List Token) :
    ts.Sublist (first :: ts ++ [last]) :=
  (List.sublist_append_left ts [last]).cons first

theorem Orderly.left {ts us : List Token} (h : Orderly (ts ++ us)) : Orderly ts :=
  h.sublist (List.sublist_append_left ts us)

theorem Orderly.right {ts us : List Token} (h : Orderly (ts ++ us)) : Orderly us :=
  h.sublist (List.sublist_append_right ts us)

theorem Orderly.tail {t : Token} {ts : List Token} (h : Orderly (t :: ts)) : Orderly ts :=
  h.sublist (List.sublist_cons_self t ts)

theorem Orderly.inner {first last : Token} {ts : List Token} (h : Orderly (first :: ts ++ [last])) :
    Orderly ts :=
  h.sublist (inner_sublist first last ts)

theorem Quiet.left {ts us : List Token} (h : Quiet (ts ++ us)) : Quiet ts :=
  h.sublist (List.sublist_append_left ts us)

theorem Quiet.right {ts us : List Token} (h : Quiet (ts ++ us)) : Quiet us :=
  h.sublist (List.sublist_append_right ts us)

theorem Quiet.tail {t : Token} {ts : List Token} (h : Quiet (t :: ts)) : Quiet ts :=
  h.sublist (List.sublist_cons_self t ts)

theorem Quiet.inner {first last : Token} {ts : List Token} (h : Quiet (first :: ts ++ [last])) :
    Quiet ts :=
  h.sublist (inner_sublist first last ts)

theorem Orderly.quiet {ts us : List Token} (h : Orderly (ts ++ us)) (ho : Opened ts) :
    Quiet us := by
  obtain ⟨t, ht, ho⟩ := ho
  exact fun u hu => (List.pairwise_append.1 h.pairwise).2.2 t ht u hu ho

theorem Grammar.Leaf.quiet {t : Token} {v : Value} (h : Leaf t v) {rest : List Char}
    (hf : Fits t.kind t.literal.toList rest) (hq : t.piece.Quiet) : closing? v.text = none := by
  have hlit := h.isLiteral hf
  have hfits := hlit.fits_alone
  cases h with
  | identifier _ => exact hq
  | integer _ _ => exact closing?_of_plain hfits.plain_integer
  | @float x _ _ =>
    by_cases hx : x.isFinite = true
    · rw [Value.literalKind, if_pos hx] at hfits
      exact closing?_of_plain hfits.plain_float
    · cases hlit with
      | float hle =>
        rw [Value.text_float, Binary64.text_of_le hle, if_neg hx]
        decide
  | string _ hl _ =>
    rw [Piece.Quiet, piece, hl] at hq
    simp [closing?] at hq

end EmbeddedLisp
