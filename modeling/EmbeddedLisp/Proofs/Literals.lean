import EmbeddedLisp.Value.Text
import EmbeddedLisp.Proofs.Grammar
import EmbeddedLisp.Proofs.Numerals

/-!
# Reading literals back

What is known of the values of single tokens: the names, numbers and strings that a
source text can hold. Each of them is written as one piece again. A string literal may
come back in another form, since line breaks and tabs inside it are written by their
pairs, but it stands for the same string.
-/

set_option autoImplicit false

namespace EmbeddedLisp.Token
open EmbeddedLisp.Digits

theorem plain_of_not_identifierChar {c : Char} (h : isIdentifierChar c = false) : Plain c := by
  constructor <;> rintro rfl <;> exact absurd h (by decide)

theorem isDigit_isIdentifierChar {c : Char} (h : isDigit c = true) : isIdentifierChar c = true := by
  have hp : isPunctuation c = false := by
    cases hp : isPunctuation c with
    | false => rfl
    | true => simp [(isPunctuation_cases hp).2.1] at h
  have hs : isSpace c = false := by
    cases hs : isSpace c with
    | false => rfl
    | true => simp [(isSpace_cases hs).2.1] at h
  have hf : c ≠ '\x0c' := by
    rintro rfl
    exact absurd h (by decide)
  simp [isIdentifierChar, isBreak, hp, hs, hf]

theorem stops_isDigit {tail : List Char} (h : Stops isIdentifierChar tail) :
    Stops isDigit tail := by
  intro c hc
  by_cases hd : isDigit c = true
  · exact absurd (isDigit_isIdentifierChar hd) (by simp [h c hc])
  · simpa using hd

theorem closing?_stops {text tail : List Char} (h : Stops isIdentifierChar tail) :
    closing? (text ++ tail) = none ↔ closing? text = none ∧ closing? tail = none := by
  cases tail with
  | nil => simp [closing?]
  | cons c tail =>
    have hc := plain_of_not_identifierChar (h c (by simp))
    rw [closing?_append hc, closing?_plain_eq_none hc]

theorem fits_identifier_iff {text rest : List Char} : Fits .identifier text rest ↔
    Fits .identifier text [] ∧ Stops isIdentifierChar rest ∧
      (text.head? = some '"' → closing? rest = none) := by
  have hnil : Stops isIdentifierChar [] := by simp [Stops]
  constructor
  · rintro ⟨hne, ht, hr, hd, hc, hq⟩
    refine ⟨⟨hne, ht, hnil, hd, hc, ?_⟩, hr, ?_⟩
    · rintro name rfl
      rw [List.append_nil]
      exact ((closing?_stops hr).1 (hq name rfl)).1
    · intro hhead
      obtain ⟨name, rfl⟩ := List.head?_eq_some_iff.1 hhead
      exact ((closing?_stops hr).1 (hq name rfl)).2
  · rintro ⟨⟨hne, ht, _, hd, hc, hq⟩, hr, hclosing⟩
    refine ⟨hne, ht, hr, hd, hc, ?_⟩
    rintro name rfl
    have hname := hq name rfl
    rw [List.append_nil] at hname
    exact (closing?_stops hr).2 ⟨hname, hclosing rfl⟩

theorem isBody_plain {c : Char} (h : Plain c) (text : List Char) :
    isBody (c :: text) = isBody text := by
  rw [isBody.eq_5]
  · exact h.1
  · intro hc _
    exact h.2 hc
  · intro _ _ hc _
    exact h.2 hc

end EmbeddedLisp.Token

namespace EmbeddedLisp
open Token

theorem unescape_plain {c : Char} (h : Plain c) (text : List Char) :
    Reader.unescape (c :: text) = c :: Reader.unescape text := by
  rw [Reader.unescape]
  · intro _ hc _
    exact h.2 hc
  · intro _ hc _
    exact h.2 hc
  · intro _ _ hc _
    exact h.2 hc

theorem unescape_pair {c : Char} (hn : c ≠ 'n') (ht : c ≠ 't') (text : List Char) :
    Reader.unescape ('\\' :: c :: text) = '\\' :: c :: Reader.unescape text := by
  rw [Reader.unescape]
  · exact hn
  · exact ht

theorem stringBody_plain {c : Char} (h : Plain c) (text : List Char) :
    Value.stringBody (c :: text) = Value.bareCharacter c ++ Value.stringBody text := by
  rw [Value.stringBody]
  intro _ _ hc _
  exact h.2 hc

theorem stringBody_unescape {body : List Char} (h : isBody body = true) :
    isBody (Value.stringBody (Reader.unescape body)) = true ∧
      Reader.unescape (Value.stringBody (Reader.unescape body)) = Reader.unescape body := by
  fun_induction isBody body with
  | case1 => simp [Reader.unescape, Value.stringBody, isBody]
  | case2 => simp at h
  | case3 => simp at h
  | case4 d text ih =>
    have ih := ih h
    by_cases hn : d = 'n'
    · subst hn
      simpa [Reader.unescape, Value.stringBody, Value.bareCharacter, isBody] using ih
    · by_cases ht : d = 't'
      · subst ht
        simpa [Reader.unescape, Value.stringBody, Value.bareCharacter, isBody] using ih
      · simpa [unescape_pair hn ht, Value.stringBody, isBody] using ih
  | case5 d text hq hb hb' ih =>
    have ih := ih h
    have hd : Plain d := plain_of_ne hq hb hb'
    rw [unescape_plain hd, stringBody_plain hd, Value.bareCharacter]
    by_cases hn : d = '\n'
    · subst hn
      simpa [Reader.unescape, isBody] using ih
    · by_cases ht : d = '\t'
      · subst ht
        simpa [Reader.unescape, isBody] using ih
      · simpa [hn, ht, hd.1, isBody_plain hd, unescape_plain hd] using ih

/-- The values that single tokens of a source text stand for. -/
inductive Value.IsLiteral : Value → Prop
  | symbol {name : String} : Fits .identifier name.toList [] → IsLiteral (.symbol name)
  | int {n : Int64} : 0 ≤ n.toInt → IsLiteral (.int n)
  | float {x : Binary64} : x.bits.toNat ≤ Binary64.infinite → IsLiteral (.float x)
  | str {body : List Char} :
      isBody body = true → IsLiteral (.str (String.ofList (Reader.unescape body)))

theorem Grammar.Leaf.isLiteral {t : Token} {v : Value} (h : Leaf t v) {rest : List Char}
    (hf : Fits t.kind t.literal.toList rest) : v.IsLiteral := by
  cases h with
  | identifier hk =>
    rw [hk] at hf
    exact .symbol (fits_identifier_iff.1 hf).1
  | integer hk hp =>
    rw [hk] at hf
    exact .int (Integer.toInt_nonneg hf.1 hf.2.1 hp)
  | float hk hp =>
    rw [hk] at hf
    obtain ⟨whole, part, ht, hne, _, hw, hpart, _⟩ := hf
    rw [ht] at hp
    exact .float (Binary64.parse_positional_le hne hw hpart hp)
  | @string body _ hk hl hd =>
    obtain rfl := hd.unescape_eq
    rw [hk] at hf
    obtain ⟨body', hl', hb⟩ := hf
    obtain rfl : body = body' := by simpa [hl] using hl'
    exact .str hb

namespace Value

@[simp] theorem text_int (n : Int64) : (Value.int n).text = Integer.text n := rfl

@[simp] theorem text_float (x : Binary64) : (Value.float x).text = x.text := rfl

@[simp] theorem text_str (s : String) : (Value.str s).text = stringText s := rfl

@[simp] theorem text_symbol (name : String) : (Value.symbol name).text = name.toList := rfl

@[simp] theorem text_apply (items : List Value) :
    (Value.apply items).text = '(' :: itemsText items ++ [')'] := rfl

@[simp] theorem text_list (items : List Value) :
    (Value.list items).text = '[' :: itemsText items ++ [']'] := rfl

@[simp] theorem text_map (entries : List (Value × Value)) :
    (Value.map entries).text = '\x7b' :: entriesText entries ++ ['\x7d'] := rfl

@[simp] theorem text_drill (chain : List Value) : (Value.drill chain).text = chainText chain := rfl

@[simp] theorem text_quote (body : Value) : (Value.quote body).text = '#' :: body.text := rfl

@[simp] theorem text_unquote (body : Value) : (Value.unquote body).text = '$' :: body.text := rfl

theorem itemsText_cons (v w : Value) (vs : List Value) :
    itemsText (v :: w :: vs) = v.text ++ ' ' :: itemsText (w :: vs) := rfl

theorem chainText_cons (v w : Value) (vs : List Value) :
    chainText (v :: w :: vs) = v.text ++ '.' :: chainText (w :: vs) := rfl

/-- The kind of token that a literal is written as. The name of infinity is an identifier. -/
def literalKind : Value → Kind
  | .int _ => .integer
  | .float x => if x.isFinite then .float else .identifier
  | .str _ => .string
  | _ => .identifier

def isInteger : Value → Bool
  | .int _ => true
  | _ => false

/-- A name that begins with a quote, because no closing quote followed it. -/
def isOpened : Value → Bool
  | .symbol name => name.toList.head? = some '"'
  | _ => false

theorem fits_infinity {tail : List Char} (h : Stops isIdentifierChar tail) :
    Fits .identifier "inf".toList tail := by
  have hi : "inf".toList = ['i', 'n', 'f'] := by decide
  have hchars : ∀ c ∈ ['i', 'n', 'f'], isIdentifierChar c = true := by
    simp only [List.mem_cons, List.not_mem_nil, or_false]
    rintro c (rfl | rfl | rfl) <;> decide
  have hhead : ∀ c ∈ ['i', 'n', 'f'].head?, Digits.isDigit c = false := by
    intro c hc
    obtain rfl : 'i' = c := by simpa using hc
    decide
  rw [hi]
  exact ⟨by simp, hchars, h, hhead, by simp, by simp⟩

theorem IsLiteral.fits {v : Value} (h : v.IsLiteral) {tail : List Char}
    (hs : Stops isIdentifierChar tail) (hf : v.isInteger = true → ¬ Fraction tail)
    (hq : v.isOpened = true → closing? tail = none) : Fits v.literalKind v.text tail := by
  cases h with
  | @symbol name hn =>
    show Fits .identifier name.toList tail
    refine fits_identifier_iff.2 ⟨hn, hs, fun hhead => hq ?_⟩
    simpa [isOpened] using hhead
  | @int n hn =>
    rw [text_int, literalKind, Integer.text_of_nonneg hn]
    exact ⟨Digits.text_ne_nil _, fun c hc => Digits.isDigit_text hc, stops_isDigit hs, hf rfl⟩
  | @float x hx =>
    rw [text_float, literalKind, Binary64.text_of_le hx]
    by_cases hfin : x.isFinite = true
    · rw [if_pos hfin, if_pos hfin]
      have hlt : x.code < Binary64.infinite := by simpa [Binary64.isFinite] using hfin
      obtain ⟨whole, part, ht, hne, hne', hw, hp, _, _⟩ :=
        Fixed.text_eq (Binary64.shortest_nearest hlt).2
      exact ⟨whole, part, ht, hne, hne', hw, hp, stops_isDigit hs⟩
    · rw [if_neg hfin, if_neg hfin]
      exact fits_infinity hs
  | @str body hb =>
    refine ⟨stringBody (Reader.unescape body), ?_, (stringBody_unescape hb).1⟩
    rw [text_str, stringText, String.toList_ofList]

theorem IsLiteral.fits_alone {v : Value} (h : v.IsLiteral) : Fits v.literalKind v.text [] :=
  h.fits (by simp [Stops]) (fun _ => by simp [Fraction]) fun _ => rfl

theorem IsLiteral.leaf {v : Value} (h : v.IsLiteral)
    (hfin : ∀ x, v = .float x → x.isFinite = true) {t : Token}
    (ht : t.piece = ⟨v.literalKind, v.text⟩) : Grammar.Leaf t v := by
  obtain ⟨hk, hl⟩ : t.kind = v.literalKind ∧ t.literal.toList = v.text := by
    simpa [piece] using ht
  cases h with
  | @symbol name hn =>
    rw [text_symbol] at hl
    obtain rfl : t.literal = name := String.toList_inj.1 hl
    exact .identifier hk
  | @int n hn =>
    rw [text_int] at hl
    exact .integer hk (hl ▸ Integer.parse_text hn)
  | @float x hx =>
    have hx' := hfin x rfl
    rw [text_float] at hl
    rw [literalKind, if_pos hx'] at hk
    exact .float hk (hl ▸ Binary64.parse_text hx hx')
  | @str body hb =>
    rw [text_str, stringText, String.toList_ofList] at hl
    rw [← (stringBody_unescape hb).2]
    exact .string hk hl (Grammar.decoded_unescape _)

end Value

end EmbeddedLisp
