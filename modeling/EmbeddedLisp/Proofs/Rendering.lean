import EmbeddedLisp.Proofs.Legible
import EmbeddedLisp.Proofs.OpenQuotes

/-!
# How the text of a value is cut

The text of a value that was read is cut into the tokens of the value, except that two
integers in a row of a chain become one number and an infinity becomes an identifier.
What follows a value must not continue its last token. A name that begins with a quote
asks for more: no closing quote may follow it, however far away. The tokens the value
was read from have this property, and it does not depend on the blanks between them.
-/

set_option autoImplicit false

namespace EmbeddedLisp.Token.Piece

def mark (c : Char) : Piece := ⟨.punctuation, [c]⟩

def blank : Piece := ⟨.whitespace, [' ']⟩

end EmbeddedLisp.Token.Piece

namespace EmbeddedLisp.Value
open Token Piece

mutual

/-- The pieces of the text of a value. Host objects have no notation. -/
def pieces : Value → List Piece
  | .nil => [mark '(', mark ')']
  | .apply items => mark '(' :: itemsPieces items ++ [mark ')']
  | .list items => mark '[' :: itemsPieces items ++ [mark ']']
  | .map entries => mark '\x7b' :: entriesPieces entries ++ [mark '\x7d']
  | .drill chain => chainPieces chain
  | .quote body => mark '#' :: pieces body
  | .unquote body => mark '$' :: pieces body
  | .int n => [⟨literalKind (.int n), text (.int n)⟩]
  | .float x => [⟨literalKind (.float x), text (.float x)⟩]
  | .str s => [⟨literalKind (.str s), text (.str s)⟩]
  | .symbol name => [⟨literalKind (.symbol name), text (.symbol name)⟩]
  | .function _ | .table .. => []

def itemsPieces : List Value → List Piece
  | [] => []
  | [v] => pieces v
  | v :: w :: vs => pieces v ++ blank :: itemsPieces (w :: vs)

def entriesPieces : List (Value × Value) → List Piece
  | [] => []
  | [(k, v)] => pieces k ++ blank :: pieces v
  | (k, v) :: e :: es => pieces k ++ blank :: pieces v ++ blank :: entriesPieces (e :: es)

/-- Integers are joined in pairs from the left. -/
def chainPieces : List Value → List Piece
  | [] => []
  | [v] => pieces v
  | [v, w] =>
    if joins v w then [⟨.float, text v ++ '.' :: text w⟩]
    else pieces v ++ mark '.' :: pieces w
  | v :: w :: x :: vs =>
    if joins v w then ⟨.float, text v ++ '.' :: text w⟩ :: mark '.' :: chainPieces (x :: vs)
    else pieces v ++ mark '.' :: chainPieces (w :: x :: vs)

end

@[simp] theorem weight_mark (c : Char) : (mark c).weight = 2 := rfl

@[simp] theorem weight_blank : blank.weight = 0 := rfl

@[simp] theorem weight_number (text : List Char) : (Piece.mk .float text).weight = 2 := rfl

/-- One if some part of a value is lost in its text. -/
def loss (legible : Bool) : Nat := if legible then 0 else 1

theorem loss_and (a b : Bool) : loss (a && b) ≤ loss a + loss b := by
  cases a <;> cases b <;> decide

theorem loss_le (b : Bool) : loss b ≤ 1 := by
  cases b <;> decide

theorem weigh_float (x : Binary64) :
    weigh (pieces (.float x)) + loss (legible (.float x)) ≤ weight (.float x) := by
  by_cases hf : x.isFinite = true
  · have hlt : x.code < Binary64.infinite := by simpa [Binary64.isFinite] using hf
    have hne : x.code ≠ Binary64.infinite := Nat.ne_of_lt hlt
    simp [pieces, literalKind, hf, Piece.weight, legible, hne, loss, weight]
  · have := loss_le (legible (.float x))
    simp only [pieces, literalKind, hf, Piece.weight, weight, weigh_cons, weigh_nil,
      Bool.false_eq_true, if_false]
    omega

mutual

/-- The text of a value never weighs more than the value, and less if the value is not
legible: a joined number takes the place of three tokens, and the name of infinity is only
an identifier. -/
theorem weigh_pieces (v : Value) : weigh v.pieces + loss v.legible ≤ v.weight := by
  match v with
  | .nil => exact Nat.le_refl 4
  | .int _ => exact Nat.le_refl 2
  | .str _ => exact Nat.le_refl 2
  | .symbol _ => exact Nat.le_refl 1
  | .float x => exact weigh_float x
  | .function _ => exact Nat.le_refl 0
  | .table .. => exact Nat.le_refl 0
  | .apply items =>
    have := weigh_itemsPieces items
    simp only [pieces, legible, weight, List.cons_append, weigh_cons, weigh_append, weigh_nil,
      weight_mark]
    omega
  | .list items =>
    have := weigh_itemsPieces items
    simp only [pieces, legible, weight, List.cons_append, weigh_cons, weigh_append, weigh_nil,
      weight_mark]
    omega
  | .map entries =>
    have := weigh_entriesPieces entries
    simp only [pieces, legible, weight, List.cons_append, weigh_cons, weigh_append, weigh_nil,
      weight_mark]
    omega
  | .drill chain =>
    have := weigh_chainPieces chain
    simpa only [pieces, legible, weight] using this
  | .quote body =>
    have := weigh_pieces body
    simp only [pieces, legible, weight, weigh_cons, weight_mark]
    omega
  | .unquote body =>
    have := weigh_pieces body
    simp only [pieces, legible, weight, weigh_cons, weight_mark]
    omega

theorem weigh_itemsPieces (vs : List Value) :
    weigh (itemsPieces vs) + loss (legibleItems vs) ≤ weightItems vs := by
  match vs with
  | [] => exact Nat.le_refl 0
  | [v] =>
    have := weigh_pieces v
    simpa only [itemsPieces, legibleItems, weightItems, Bool.and_true, Nat.add_zero] using this
  | v :: w :: vs =>
    have := weigh_pieces v
    have := weigh_itemsPieces (w :: vs)
    have := loss_and v.legible (legibleItems (w :: vs))
    rw [itemsPieces, weightItems, legibleItems]
    simp only [weigh_append, weigh_cons, weight_blank]
    omega

theorem weigh_entriesPieces (es : List (Value × Value)) :
    weigh (entriesPieces es) + loss (legibleEntries es) ≤ weightEntries es := by
  match es with
  | [] => exact Nat.le_refl 0
  | [(k, v)] =>
    have := weigh_pieces k
    have := weigh_pieces v
    have := loss_and k.legible v.legible
    simp only [entriesPieces, legibleEntries, weightEntries, Bool.and_true, weigh_append,
      weigh_cons, weight_blank]
    omega
  | (k, v) :: e :: es =>
    have := weigh_pieces k
    have := weigh_pieces v
    have := weigh_entriesPieces (e :: es)
    have := loss_and k.legible v.legible
    have := loss_and (k.legible && v.legible) (legibleEntries (e :: es))
    rw [entriesPieces, weightEntries, legibleEntries]
    simp only [weigh_append, weigh_cons, weight_blank]
    omega

theorem weigh_chainPieces (vs : List Value) :
    weigh (chainPieces vs) + loss (legibleChain vs) ≤ weightItems vs + 2 * (vs.length - 1) := by
  match vs with
  | [] => exact Nat.le_refl 0
  | [v] =>
    have := weigh_pieces v
    simpa only [chainPieces, legibleChain, weightItems, List.length_singleton, Nat.sub_self,
      Nat.mul_zero, Nat.add_zero] using this
  | [v, w] =>
    have := weigh_pieces v
    have := weigh_pieces w
    have := loss_le (legibleChain [v, w])
    have := loss_and v.legible w.legible
    cases hj : joins v w with
    | true =>
      obtain ⟨m, n, rfl, rfl⟩ := joins_eq_true hj
      simp only [chainPieces, hj, if_true, weightItems, weight, weigh_cons, weigh_nil,
        weight_number, List.length_cons, List.length_nil]
      omega
    | false =>
      simp only [chainPieces, hj, legibleChain, weightItems, weigh_append, weigh_cons,
        weight_mark, Bool.not_false, Bool.true_and, Bool.false_eq_true, if_false,
        List.length_cons, List.length_nil]
      omega
  | v :: w :: x :: vs =>
    have := weigh_pieces v
    have := loss_le (legibleChain (v :: w :: x :: vs))
    have := loss_and v.legible (legibleChain (w :: x :: vs))
    cases hj : joins v w with
    | true =>
      have hrest := weigh_chainPieces (x :: vs)
      obtain ⟨m, n, rfl, rfl⟩ := joins_eq_true hj
      simp only [chainPieces, hj, if_true, weigh_cons, weight_mark, weight_number]
      simp only [weightItems, weight, List.length_cons] at hrest ⊢
      omega
    | false =>
      have hrest := weigh_chainPieces (w :: x :: vs)
      rw [legibleChain, chainPieces]
      simp only [hj, weigh_append, weigh_cons, weight_mark, Bool.not_false, Bool.true_and,
        Bool.false_eq_true, if_false]
      simp only [weightItems, List.length_cons] at hrest ⊢
      omega

end

theorem weigh_pieces_lt {v : Value} (h : v.legible = false) : weigh v.pieces < v.weight := by
  have hle := weigh_pieces v
  rw [h] at hle
  exact hle

end EmbeddedLisp.Value

namespace EmbeddedLisp.Value
open Token Piece

def isSolid : Value → Bool
  | .int _ | .drill _ | .quote _ | .unquote _ => false
  | _ => true

theorem isSolid_of_isInteger {v : Value} (h : v.isInteger = true) : v.isSolid = false := by
  cases v with
  | int n => rfl
  | _ => simp [isInteger] at h

def flatten (entries : List (Value × Value)) : List Value := entries.flatMap fun e => [e.1, e.2]

theorem entriesText_eq (es : List (Value × Value)) : entriesText es = itemsText (flatten es) := by
  match es with
  | [] => rfl
  | [(k, v)] => rfl
  | (k, v) :: e :: es =>
    have ih := entriesText_eq (e :: es)
    rw [entriesText, ih]
    · simp [flatten, itemsText]
    · simp

theorem entriesPieces_eq (es : List (Value × Value)) :
    entriesPieces es = itemsPieces (flatten es) := by
  match es with
  | [] => rfl
  | [(k, v)] => rfl
  | (k, v) :: e :: es =>
    have ih := entriesPieces_eq (e :: es)
    rw [entriesPieces, ih]
    simp [flatten, itemsPieces]

theorem chainPieces_apart {v w : Value} (h : joins v w = false) (vs : List Value) :
    chainPieces (v :: w :: vs) = pieces v ++ mark '.' :: chainPieces (w :: vs) := by
  cases vs with
  | nil => simp [chainPieces, h]
  | cons x vs => simp [chainPieces, h]

end EmbeddedLisp.Value

namespace EmbeddedLisp.Token
open Piece

theorem cut_mark {c : Char} {tail : List Char} {qs : List Piece} (h : isPunctuation c = true)
    (hc : Cut tail qs) : Cut (c :: tail) (mark c :: qs) := by
  have hf : Fits .punctuation [c] tail := ⟨c, rfl, h⟩
  exact .cons hf hc

theorem cut_blank {tail : List Char} {qs : List Piece} (h : Stops isSpace tail)
    (hc : Cut tail qs) : Cut (' ' :: tail) (blank :: qs) := by
  have hspace : ∀ c ∈ [' '], isSpace c = true := by
    intro c hc
    obtain rfl : c = ' ' := by simpa using hc
    decide
  have hf : Fits .whitespace [' '] tail := ⟨by simp, hspace, h⟩
  exact .cons hf hc

theorem Fits.begins {kind : Kind} {text rest : List Char} (h : Fits kind text rest)
    (hk : kind ≠ .whitespace) : ∃ c tail, text = c :: tail ∧ isSpace c = false := by
  have digits {c : Char} (hd : Digits.isDigit c = true) : isSpace c = false :=
    (isIdentifierChar_cases (isDigit_isIdentifierChar hd)).2
  cases kind with
  | comment =>
    obtain ⟨line, rfl, _⟩ := h
    exact ⟨_, _, rfl, by decide⟩
  | float =>
    obtain ⟨whole, part, rfl, hne, _, hw, _⟩ := h
    obtain ⟨c, whole, rfl⟩ := List.exists_cons_of_ne_nil hne
    exact ⟨c, _, rfl, digits (hw c (by simp))⟩
  | integer =>
    obtain ⟨c, text, rfl⟩ := List.exists_cons_of_ne_nil h.1
    exact ⟨c, _, rfl, digits (h.2.1 c (by simp))⟩
  | string =>
    obtain ⟨body, rfl, _⟩ := h
    exact ⟨_, _, rfl, by decide⟩
  | punctuation =>
    obtain ⟨c, rfl, hp⟩ := h
    exact ⟨c, _, rfl, (isPunctuation_cases hp).2.2.2.1⟩
  | whitespace => exact absurd rfl hk
  | identifier =>
    obtain ⟨c, text, rfl⟩ := List.exists_cons_of_ne_nil h.1
    exact ⟨c, _, rfl, (isIdentifierChar_cases (h.2.1 c (by simp))).2⟩

end EmbeddedLisp.Token

namespace EmbeddedLisp
open Token Piece Grammar

/-- A text that neither continues a name nor closes a quote that the tokens before it
left open. -/
structure Follows (ts : List Token) (tail : List Char) : Prop where
  stops : Stops isIdentifierChar tail
  quiet : Opened ts → closing? tail = none

/-- What the text of a value owes to the tokens the value was read from. -/
structure Rendered (ts : List Token) (v : Value) : Prop where
  hushed : Quiet ts → closing? v.text = none
  begins : ∃ c rest, v.text = c :: rest ∧ isSpace c = false
  cut {tail : List Char} {qs : List Piece} : Follows ts tail →
    (v.isSolid = false → ¬ Fraction tail) → Cut tail qs → Cut (v.text ++ tail) (v.pieces ++ qs)

def Renders (ts : List Token) (v : Value) : Prop := Orderly ts → Rendered ts v

theorem Follows.sublist {ts us : List Token} {tail : List Char} (h : Follows us tail)
    (hs : ts.Sublist us) : Follows ts tail :=
  ⟨h.stops, fun ho => h.quiet (ho.sublist hs)⟩

theorem Follows.between {ts us : List Token} {text tail : List Char} {c : Char}
    (ho : Orderly (ts ++ us)) (hf : Follows (ts ++ us) tail) (hc : isIdentifierChar c = false)
    (hq : Quiet us → closing? text = none) : Follows ts (c :: (text ++ tail)) := by
  refine ⟨by simpa [Stops] using hc, fun hopen => ?_⟩
  rw [closing?_plain_eq_none (plain_of_not_identifierChar hc), closing?_stops hf.stops]
  exact ⟨hq (ho.quiet hopen), hf.quiet (hopen.sublist (List.sublist_append_left ts us))⟩

theorem not_fraction_of_ne {c : Char} {tail : List Char} (h : c ≠ '.') :
    ¬ Fraction (c :: tail) := by
  rintro ⟨d, rest, he, _⟩
  exact h (List.cons.inj he).1

theorem Grammar.Leaf.rendered {t : Token} {v : Value} (h : Leaf t v) {rest : List Char}
    (hf : Fits t.kind t.literal.toList rest) : Rendered [t] v := by
  have hlit := h.isLiteral hf
  have hkind : v.literalKind ≠ .whitespace := by
    cases hlit with
    | float _ =>
      rw [Value.literalKind]
      split <;> simp
    | _ => simp [Value.literalKind]
  have hpieces : v.pieces = [⟨v.literalKind, v.text⟩] := by
    cases hlit <;> rfl
  refine ⟨fun hq => h.quiet hf (hq t (by simp)), hlit.fits_alone.begins hkind, ?_⟩
  intro tail qs htail hsolid hc
  rw [hpieces]
  refine .cons (hlit.fits htail.stops ?_ ?_) hc
  · intro hint
    exact hsolid (Value.isSolid_of_isInteger hint)
  · intro hopen
    apply htail.quiet
    refine ⟨t, by simp, ?_⟩
    cases h with
    | identifier hk => exact ⟨hk, by simpa [Value.isOpened, Token.piece] using hopen⟩
    | integer _ _ => simp [Value.isOpened] at hopen
    | float _ _ => simp [Value.isOpened] at hopen
    | string _ _ _ => simp [Value.isOpened] at hopen

theorem Grammar.Sequence.hushed {ts : List Token} {vs : List Value} (h : Sequence Renders ts vs)
    (ho : Orderly ts) (hq : Quiet ts) : closing? (Value.itemsText vs) = none := by
  induction h with
  | nil => rfl
  | @cons ts us v vs hv hs ih =>
    have hv := (hv ho.left).hushed hq.left
    cases vs with
    | nil => rwa [Value.itemsText]
    | cons w vs =>
      rw [Value.itemsText_cons, closing?_append (by decide)]
      exact ⟨hv, ih ho.right hq.right⟩

theorem Grammar.Sequence.stops_isSpace {ts : List Token} {v : Value} {vs : List Value}
    (h : Sequence Renders ts (v :: vs)) (ho : Orderly ts) (tail : List Char) :
    Stops isSpace (Value.itemsText (v :: vs) ++ tail) := by
  cases h with
  | cons hv hs =>
    obtain ⟨c, rest, ht, hc⟩ := (hv ho.left).begins
    intro d hd
    obtain rfl : c = d := by
      cases vs with
      | nil => simpa [Value.itemsText, ht] using hd
      | cons w vs => simpa [Value.itemsText, ht] using hd
    exact hc

theorem Grammar.Sequence.cut {ts : List Token} {vs : List Value} (h : Sequence Renders ts vs)
    (ho : Orderly ts) {tail : List Char} {qs : List Piece} (hf : Follows ts tail)
    (hdot : ¬ Fraction tail) (hc : Cut tail qs) :
    Cut (Value.itemsText vs ++ tail) (Value.itemsPieces vs ++ qs) := by
  induction h with
  | nil => exact hc
  | @cons ts us v vs hv hs ih =>
    have hv := hv ho.left
    cases vs with
    | nil =>
      rw [Value.itemsText, Value.itemsPieces]
      exact hv.cut (hf.sublist (List.sublist_append_left ts us)) (fun _ => hdot) hc
    | cons w vs =>
      have hrest := ih ho.right (hf.sublist (List.sublist_append_right ts us))
      have hnext := Follows.between ho hf (c := ' ') (by decide) (hs.hushed ho.right)
      rw [Value.itemsPieces, List.append_assoc, List.cons_append, Value.itemsText_cons,
        List.append_assoc, List.cons_append]
      exact hv.cut hnext (fun _ => not_fraction_of_ne (by decide))
        (cut_blank (hs.stops_isSpace ho.right tail) hrest)

theorem Grammar.Sequence.flatten {R : List Token → Value → Prop} {ts : List Token}
    {es : List (Value × Value)} (h : Sequence (Entry R) ts es) :
    Sequence R ts (Value.flatten es) := by
  induction h with
  | nil => exact .nil
  | cons he _ ih =>
    obtain @⟨ts, us, k, v, hk, hv⟩ := he
    rw [List.append_assoc]
    exact .cons hk (.cons hv ih)

theorem Grammar.Accessors.hushed {us : List Token} {keys : List Value} (h : Accessors us keys)
    (ho : Orderly us) (hq : Quiet us) {base : Value} (hb : closing? base.text = none) :
    closing? (Value.chainText (base :: keys)) = none := by
  induction h generalizing base with
  | nil => rwa [Value.chainText]
  | @cons dot key us v vs hd hl _ hs ih =>
    have hkey : key ∈ dot :: key :: us := by simp
    obtain ⟨rest, hf⟩ := ho.shaped key hkey
    have hv := hl.quiet hf (hq key hkey)
    rw [Value.chainText_cons, closing?_append (by decide)]
    exact ⟨hb, ih ho.tail.tail hq.tail.tail hv⟩

theorem chainText_begins {base : Value} (keys : List Value)
    (h : ∃ c rest, base.text = c :: rest ∧ isSpace c = false) :
    ∃ c rest, Value.chainText (base :: keys) = c :: rest ∧ isSpace c = false := by
  obtain ⟨c, rest, ht, hc⟩ := h
  cases keys with
  | nil => exact ⟨c, rest, by rw [Value.chainText, ht], hc⟩
  | cons key keys =>
    refine ⟨c, rest ++ '.' :: Value.chainText (key :: keys), ?_, hc⟩
    rw [Value.chainText_cons, ht, List.cons_append]

theorem Grammar.Leaf.not_fraction {t : Token} {v : Value} (h : Leaf t v) {rest : List Char}
    (hf : Fits t.kind t.literal.toList rest) (hk : t.kind ≠ .float) (hi : v.isInteger = false)
    {keys : List Value} {tail : List Char} :
    ¬ Fraction ('.' :: (Value.chainText (v :: keys) ++ tail)) := by
  have hhead : ∃ c text, v.text = c :: text ∧ Digits.isDigit c = false := by
    cases h with
    | identifier hid =>
      rw [hid] at hf
      obtain ⟨c, text, ht⟩ := List.exists_cons_of_ne_nil hf.1
      exact ⟨c, text, ht, hf.2.2.2.1 c (by simp [ht])⟩
    | integer _ _ => simp [Value.isInteger] at hi
    | float hfloat _ => exact absurd hfloat hk
    | string _ _ _ => exact ⟨_, _, rfl, by decide⟩
  obtain ⟨c, text, ht, hc⟩ := hhead
  rintro ⟨d, after, he, hd⟩
  have hcd : c = d := by
    cases keys with
    | nil => simpa [Value.chainText, ht] using congrArg List.head? (List.cons.inj he).2
    | cons key keys => simpa [Value.chainText, ht] using congrArg List.head? (List.cons.inj he).2
  rw [hcd, hd] at hc
  exact Bool.noConfusion hc

theorem fits_joined {m n : Int64} (hm : 0 ≤ m.toInt) (hn : 0 ≤ n.toInt) {tail : List Char}
    (h : Stops isIdentifierChar tail) :
    Fits .float (Value.text (.int m) ++ '.' :: Value.text (.int n)) tail := by
  rw [Value.text_int, Value.text_int, Integer.text_of_nonneg hm, Integer.text_of_nonneg hn]
  exact ⟨_, _, rfl, Digits.text_ne_nil _, Digits.text_ne_nil _, fun c hc => Digits.isDigit_text hc,
    fun c hc => Digits.isDigit_text hc, stops_isDigit h⟩

theorem Value.IsLiteral.toInt_nonneg {n : Int64} (h : (Value.int n).IsLiteral) : 0 ≤ n.toInt := by
  cases h with
  | int hn => exact hn

theorem Value.IsLiteral.isInteger_of_apart {v w : Value} (h : v.IsLiteral)
    (hs : v.isSolid = false) (hj : Value.joins v w = false) : w.isInteger = false := by
  cases h with
  | int _ =>
    cases w with
    | int n => simp [Value.joins] at hj
    | _ => rfl
  | symbol _ => simp [Value.isSolid] at hs
  | float _ => simp [Value.isSolid] at hs
  | str _ => simp [Value.isSolid] at hs

/-- The text of a chain. A dot is a piece of its own unless it stands between two integers,
and then the pair is one piece, which the next dot ends. -/
theorem Grammar.Accessors.cut {us : List Token} {keys : List Value} (h : Accessors us keys)
    {ts : List Token} {v : Value} (hv : Rendered ts v) (hl : v.isSolid = true ∨ v.IsLiteral)
    (ho : Orderly (ts ++ us)) {tail : List Char} {qs : List Piece} (hf : Follows (ts ++ us) tail)
    (hdot : ¬ Fraction tail) (hc : Cut tail qs) :
    Cut (Value.chainText (v :: keys) ++ tail) (Value.chainPieces (v :: keys) ++ qs) := by
  cases h with
  | nil =>
    rw [Value.chainText, Value.chainPieces]
    exact hv.cut (hf.sublist (List.sublist_append_left ts [])) (fun _ => hdot) hc
  | @cons dot key us k keys hd hkey hkind hrest =>
    have hsub : (key :: us).Sublist (ts ++ dot :: key :: us) :=
      (List.sublist_cons_self dot _).trans (List.sublist_append_right ts _)
    obtain ⟨rest, hfits⟩ := ho.shaped key (by simp)
    have hk := hkey.rendered hfits
    have hklit := hkey.isLiteral hfits
    cases hj : Value.joins v k with
    | false =>
      have hcut := hrest.cut hk (.inr hklit) (ho.sublist hsub) (hf.sublist hsub) hdot hc
      have hnext : Follows ts ('.' :: (Value.chainText (k :: keys) ++ tail)) := by
        refine Follows.between ho hf (by decide) fun hq => ?_
        have hkey : Quiet [key] := hq.sublist (List.singleton_sublist.2 (by simp))
        exact hrest.hushed (ho.sublist hsub).tail hq.tail.tail (hk.hushed hkey)
      rw [Value.chainText_cons, Value.chainPieces_apart hj, List.append_assoc, List.cons_append,
        List.append_assoc, List.cons_append]
      refine hv.cut hnext (fun hsolid => ?_) (cut_mark (by decide) hcut)
      have hvlit : v.IsLiteral := hl.resolve_left (by simp [hsolid])
      exact hkey.not_fraction hfits hkind (hvlit.isInteger_of_apart hsolid hj)
    | true =>
      obtain ⟨m, n, rfl, rfl⟩ := Value.joins_eq_true hj
      have hm := (hl.resolve_left (by simp [Value.isSolid])).toInt_nonneg
      have hn := hklit.toInt_nonneg
      cases hrest with
      | nil =>
        have htext : Value.chainText [.int m, .int n] =
            Value.text (.int m) ++ '.' :: Value.text (.int n) := rfl
        rw [htext, Value.chainPieces, if_pos hj]
        exact .cons (fits_joined hm hn hf.stops) hc
      | @cons dot' key' us k keys hd' hkey' hkind' hrest =>
        have hsub : (key' :: us).Sublist (ts ++ dot :: key :: dot' :: key' :: us) :=
          (((List.sublist_cons_self dot' _).cons key).cons dot).trans
            (List.sublist_append_right ts _)
        obtain ⟨rest, hfits⟩ := ho.shaped key' (by simp)
        have hcut := hrest.cut (hkey'.rendered hfits) (.inr (hkey'.isLiteral hfits))
          (ho.sublist hsub) (hf.sublist hsub) hdot hc
        have htext : Value.chainText (.int m :: .int n :: k :: keys) ++ tail =
            (Value.text (.int m) ++ '.' :: Value.text (.int n)) ++
              '.' :: (Value.chainText (k :: keys) ++ tail) := by
          simp [Value.chainText_cons]
        rw [htext, Value.chainPieces, if_pos hj]
        exact .cons (fits_joined hm hn (by simp [Stops, isIdentifierChar, isPunctuation]))
          (cut_mark (by decide) hcut)

theorem Grammar.Form.link {ts : List Token} {v : Value} (h : Form ts v) (ho : Orderly ts)
    (hq : v.isQuoted = false) : v.isSolid = true ∨ v.IsLiteral := by
  cases h with
  | @leaf t v hl =>
    obtain ⟨rest, hf⟩ := ho.shaped t (by simp)
    exact .inr (hl.isLiteral hf)
  | apply _ _ _ => exact .inl rfl
  | list _ _ _ => exact .inl rfl
  | map _ _ _ => exact .inl rfl
  | quote _ _ => simp [Value.isQuoted] at hq
  | unquote _ _ => simp [Value.isQuoted] at hq

theorem isIdentifierChar_of_punctuation {c : Char} (h : isPunctuation c = true) :
    isIdentifierChar c = false := by
  simp [isIdentifierChar, h]

theorem rendered_bracketed (c d : Char) {first last : Token} {ts : List Token} {v : Value}
    {vs : List Value} (hs : Sequence Renders ts vs) (hc : isPunctuation c = true)
    (hd : isPunctuation d = true) (hdot : d ≠ '.') (ht : v.text = c :: Value.itemsText vs ++ [d])
    (hp : v.pieces = mark c :: Value.itemsPieces vs ++ [mark d]) :
    Renders (first :: ts ++ [last]) v := by
  intro ho
  obtain ⟨_, _, _, hspace, hplain⟩ := isPunctuation_cases hc
  have hdplain := (isPunctuation_cases hd).2.2.2.2
  refine ⟨fun hq => ?_, ⟨c, _, ht, hspace⟩, ?_⟩
  · rw [ht, List.cons_append, closing?_plain_eq_none hplain, closing?_append hdplain]
    exact ⟨hs.hushed ho.inner hq.inner, rfl⟩
  · intro tail qs hf _ hcut
    have hnext : Follows ts (d :: tail) := by
      refine ⟨by simpa [Stops] using isIdentifierChar_of_punctuation hd, fun hopen => ?_⟩
      rw [closing?_plain_eq_none hdplain]
      exact hf.quiet (hopen.sublist (inner_sublist first last ts))
    have hinner := hs.cut ho.inner hnext (not_fraction_of_ne hdot) (cut_mark hd hcut)
    rw [ht, hp]
    simpa using cut_mark hc hinner

theorem rendered_marked (c : Char) {first : Token} {ts : List Token} {v body : Value}
    (hb : Renders ts body) (hc : isPunctuation c = true) (hsolid : v.isSolid = false)
    (ht : v.text = c :: body.text) (hp : v.pieces = mark c :: body.pieces) :
    Renders (first :: ts) v := by
  intro ho
  have hb := hb ho.tail
  obtain ⟨_, _, _, hspace, hplain⟩ := isPunctuation_cases hc
  refine ⟨fun hq => ?_, ⟨c, _, ht, hspace⟩, ?_⟩
  · rw [ht, closing?_plain_eq_none hplain]
    exact hb.hushed hq.tail
  · intro tail qs hf hdot hcut
    have hbody := hb.cut (hf.sublist (List.sublist_cons_self first ts)) (fun _ => hdot hsolid) hcut
    rw [ht, hp]
    exact cut_mark hc hbody

theorem renders_closed : Closed Renders where
  leaf {t v} hl := by
    intro ho
    obtain ⟨rest, hf⟩ := ho.shaped t (by simp)
    exact hl.rendered hf
  apply _ hs _ :=
    rendered_bracketed '(' ')' hs (by decide) (by decide) (by decide) (Value.text_apply _)
      (by rw [Value.pieces])
  list _ hs _ :=
    rendered_bracketed '[' ']' hs (by decide) (by decide) (by decide) (Value.text_list _)
      (by rw [Value.pieces])
  map _ hs _ :=
    rendered_bracketed '\x7b' '\x7d' hs.flatten (by decide) (by decide) (by decide)
      (by rw [Value.text_map, Value.entriesText_eq])
      (by rw [Value.pieces, Value.entriesPieces_eq])
  quote _ hb := rendered_marked '#' hb (by decide) rfl (Value.text_quote _) (by rw [Value.pieces])
  unquote _ hb :=
    rendered_marked '$' hb (by decide) rfl (Value.text_unquote _) (by rw [Value.pieces])
  drill {ts us base keys} hform hq hb ha _ := by
    intro ho
    have hb := hb ho.left
    refine ⟨fun hquiet => ?_, chainText_begins keys hb.begins, ?_⟩
    · exact ha.hushed ho.right hquiet.right (hb.hushed hquiet.left)
    · intro tail qs hf hdot hcut
      rw [Value.text_drill, Value.pieces]
      exact ha.cut hb (hform.link ho.left hq) ho hf (hdot rfl) hcut

theorem follows_nil (ts : List Token) : Follows ts [] := ⟨by simp [Stops], fun _ => rfl⟩

theorem Grammar.Expression.cut {ts : List Token} {v : Value} (h : Expression ts v)
    (ho : Orderly ts) : Cut v.text v.pieces := by
  have hdot : ¬ Fraction [] := by simp [Fraction]
  have hcut := (h.of_closed renders_closed ho).cut (follows_nil ts) (fun _ => hdot) .nil
  simpa using hcut

end EmbeddedLisp
