import EmbeddedLisp.Proofs.Rendering

/-!
# Reading a value back from its text

The text of a legible value is cut into tokens that derive the same value. The text of any
other value weighs less than the value, so that no equal value is read from it.
-/

set_option autoImplicit false

namespace EmbeddedLisp
open Token Piece Grammar

theorem significant_append (ps qs : List Piece) :
    significant (ps ++ qs) = significant ps ++ significant qs := List.filter_append ps qs

theorem significant_mark (c : Char) (ps : List Piece) :
    significant (mark c :: ps) = mark c :: significant ps := by
  simp [significant, mark, Kind.isDiscarded]

theorem significant_blank (ps : List Piece) : significant (blank :: ps) = significant ps := by
  simp [significant, blank, Kind.isDiscarded]

theorem significant_itemsPieces (v : Value) (vs : List Value) :
    significant (Value.itemsPieces (v :: vs)) =
      significant v.pieces ++ significant (Value.itemsPieces vs) := by
  cases vs with
  | nil => simp [Value.itemsPieces, significant]
  | cons w vs => rw [Value.itemsPieces, significant_append, significant_blank]

theorem Value.IsLiteral.significant {v : Value} (h : v.IsLiteral) :
    significant v.pieces = [⟨v.literalKind, v.text⟩] := by
  cases h with
  | @float x _ =>
    have hk : (Value.literalKind (.float x)).isDiscarded = false := by
      rw [Value.literalKind]
      split <;> rfl
    simp [Value.pieces, Token.significant, hk]
  | _ => rfl

theorem isMark_of_piece {m : Reader.Mark} {t : Token} {c : Char} (h : t.piece = mark c)
    (hm : (spelling m).toList = [c]) : IsMark m t := by
  simp only [Token.piece, mark, Piece.mk.injEq] at h
  exact ⟨h.1, String.toList_inj.1 (h.2.trans hm.symm)⟩

/-- The tokens of a value's own text derive it again. -/
def Returns (ts : List Token) (v : Value) : Prop :=
  Orderly ts → v.legible = true → ∀ us : List Token, us.map piece = significant v.pieces →
    Expression us v

theorem Value.IsLiteral.isFinite {x : Binary64} (h : (Value.float x).IsLiteral)
    (hl : (Value.float x).legible = true) : x.isFinite = true := by
  cases h with
  | float hx =>
    have hne : x.code ≠ Binary64.infinite := by simpa [Value.legible] using hl
    have hle := Binary64.code_of_le hx
    simp only [Binary64.isFinite, decide_eq_true_eq]
    omega

theorem Value.IsLiteral.returns {v : Value} (h : v.IsLiteral) (hl : v.legible = true)
    {us : List Token} (hu : us.map piece = Token.significant v.pieces) :
    ∃ t, us = [t] ∧ Leaf t v := by
  rw [h.significant] at hu
  obtain ⟨t, rfl, ht⟩ := List.map_eq_singleton_iff.1 hu
  refine ⟨t, rfl, h.leaf ?_ ht⟩
  rintro x rfl
  exact h.isFinite hl

theorem Grammar.Sequence.returns {ts : List Token} {vs : List Value} (h : Sequence Returns ts vs)
    (ho : Orderly ts) (hl : Value.legibleItems vs = true) {us : List Token}
    (hu : us.map piece = significant (Value.itemsPieces vs)) : Sequence Expression us vs := by
  induction h generalizing us with
  | nil =>
    obtain rfl : us = [] := by simpa [Value.itemsPieces, significant] using hu
    exact .nil
  | cons hv hs ih =>
    simp only [Value.legibleItems, Bool.and_eq_true] at hl
    rw [significant_itemsPieces] at hu
    obtain ⟨us₁, us₂, rfl, hu₁, hu₂⟩ := List.map_eq_append_iff.1 hu
    exact .cons (hv ho.left hl.1 us₁ hu₁) (ih ho.right hl.2 hu₂)

theorem Grammar.Sequence.unflatten {R : List Token → Value → Prop} {us : List Token}
    {es : List (Value × Value)} (h : Sequence R us (Value.flatten es)) :
    Sequence (Entry R) us es := by
  induction es generalizing us with
  | nil =>
    cases h with
    | nil => exact .nil
  | cons e es ih =>
    obtain ⟨k, v⟩ := e
    cases h with
    | cons hk hs =>
      cases hs with
      | cons hv hs =>
        rw [← List.append_assoc]
        exact .cons (.mk hk hv) (ih hs)

theorem legibleItems_flatten {es : List (Value × Value)} (h : Value.legibleEntries es = true) :
    Value.legibleItems (Value.flatten es) = true := by
  rw [Value.legibleEntries_iff] at h
  rw [Value.legibleItems_iff]
  intro v hv
  obtain ⟨e, he, hv⟩ := List.mem_flatMap.1 hv
  simp only [List.mem_cons, List.not_mem_nil, or_false] at hv
  rcases hv with rfl | rfl
  · exact (h e he).1
  · exact (h e he).2

theorem bracketed_of_pieces {m n : Reader.Mark} {c d : Char} (hm : (spelling m).toList = [c])
    (hn : (spelling n).toList = [d]) {us : List Token} {ps : List Piece}
    (h : us.map piece = significant (mark c :: ps ++ [mark d])) :
    ∃ first inner last, us = first :: inner ++ [last] ∧ IsMark m first ∧ IsMark n last ∧
      inner.map piece = significant ps := by
  have hend : significant [mark d] = [mark d] := rfl
  rw [List.cons_append, significant_mark, significant_append, hend] at h
  obtain ⟨first, us, rfl, hfirst, h⟩ := List.map_eq_cons_iff.1 h
  obtain ⟨inner, us, rfl, hinner, hend⟩ := List.map_eq_append_iff.1 h
  obtain ⟨last, rfl, hlast⟩ := List.map_eq_singleton_iff.1 hend
  exact ⟨first, inner, last, rfl, isMark_of_piece hfirst hm, isMark_of_piece hlast hn, hinner⟩

theorem marked_of_pieces {m : Reader.Mark} {c : Char} (hm : (spelling m).toList = [c])
    {us : List Token} {ps : List Piece} (h : us.map piece = significant (mark c :: ps)) :
    ∃ first rest, us = first :: rest ∧ IsMark m first ∧ rest.map piece = significant ps := by
  rw [significant_mark] at h
  obtain ⟨first, us, rfl, hfirst, h⟩ := List.map_eq_cons_iff.1 h
  exact ⟨first, us, rfl, isMark_of_piece hfirst hm, h⟩

theorem Grammar.Leaf.literalKind_ne {t : Token} {v : Value} (h : Leaf t v) (hk : t.kind ≠ .float) :
    v.literalKind ≠ .float := by
  cases h with
  | float hf _ => exact absurd hf hk
  | _ => simp [Value.literalKind]

theorem Grammar.Accessors.returns {ts : List Token} {keys : List Value} (h : Accessors ts keys)
    (ho : Orderly ts) {v : Value} (hl : Value.legibleChain (v :: keys) = true) {us : List Token}
    (hu : us.map piece = significant (Value.chainPieces (v :: keys))) :
    ∃ base rest, us = base ++ rest ∧ base.map piece = significant v.pieces ∧
      Accessors rest keys := by
  induction h generalizing v us with
  | nil => exact ⟨us, [], by simp, hu, .nil⟩
  | @cons dot key ts k keys hd hkey hkind hrest ih =>
    simp only [Value.legibleChain, Bool.and_eq_true, Bool.not_eq_true'] at hl
    obtain ⟨⟨hj, hv⟩, hl⟩ := hl
    rw [Value.chainPieces_apart hj, significant_append] at hu
    obtain ⟨base, us, rfl, hbase, hu⟩ := List.map_eq_append_iff.1 hu
    obtain ⟨first, us, rfl, hfirst, hu⟩ := marked_of_pieces (m := .dot) (by decide) hu
    obtain ⟨link, us, rfl, hlink, hkeys⟩ := ih ho.tail.tail hl hu
    obtain ⟨rest, hf⟩ := ho.shaped key (by simp)
    have hlit := hkey.isLiteral hf
    have hk : k.legible = true := (Value.legibleChain_iff.1 hl).1 k (by simp)
    obtain ⟨key', rfl, hleaf⟩ := hlit.returns hk hlink
    have hkind' : key'.kind ≠ .float := by
      rw [hlit.significant] at hlink
      have hpiece : key'.kind = k.literalKind := congrArg Piece.kind (List.cons.inj hlink).1
      rw [hpiece]
      exact hkey.literalKind_ne hkind
    exact ⟨base, first :: key' :: us, rfl, hbase, .cons hfirst hleaf hkind' hkeys⟩

theorem Grammar.Expression.form {ts us : List Token} {v : Value} (h : Expression us v)
    (hf : Form ts v) : Form us v := by
  cases h with
  | bare h => exact h
  | drill _ _ _ _ => nomatch hf

theorem returns_closed : Closed Returns where
  leaf {t v} hl := by
    intro ho hlegible us hu
    obtain ⟨rest, hf⟩ := ho.shaped t (by simp)
    obtain ⟨u, rfl, hleaf⟩ := (hl.isLiteral hf).returns hlegible hu
    exact .bare (.leaf hleaf)
  apply _ hs _ := by
    intro ho hlegible us hu
    rw [Value.pieces] at hu
    obtain ⟨first, inner, last, rfl, hfirst, hlast, hinner⟩ :=
      bracketed_of_pieces (m := .opening .round) (n := .closing .round) (by decide) (by decide) hu
    exact .bare (.apply hfirst (hs.returns ho.inner hlegible hinner) hlast)
  list _ hs _ := by
    intro ho hlegible us hu
    rw [Value.pieces] at hu
    obtain ⟨first, inner, last, rfl, hfirst, hlast, hinner⟩ :=
      bracketed_of_pieces (m := .opening .square) (n := .closing .square) (by decide) (by decide) hu
    exact .bare (.list hfirst (hs.returns ho.inner hlegible hinner) hlast)
  map _ hs _ := by
    intro ho hlegible us hu
    rw [Value.pieces, Value.entriesPieces_eq] at hu
    obtain ⟨first, inner, last, rfl, hfirst, hlast, hinner⟩ :=
      bracketed_of_pieces (m := .opening .curly) (n := .closing .curly) (by decide) (by decide) hu
    have hs := hs.flatten.returns ho.inner (legibleItems_flatten hlegible) hinner
    exact .bare (.map hfirst hs.unflatten hlast)
  quote _ hb := by
    intro ho hlegible us hu
    rw [Value.pieces] at hu
    obtain ⟨first, us, rfl, hfirst, hu⟩ := marked_of_pieces (m := .quote) (by decide) hu
    exact .bare (.quote hfirst (hb ho.tail hlegible us hu))
  unquote _ hb := by
    intro ho hlegible us hu
    rw [Value.pieces] at hu
    obtain ⟨first, us, rfl, hfirst, hu⟩ := marked_of_pieces (m := .unquote) (by decide) hu
    exact .bare (.unquote hfirst (hb ho.tail hlegible us hu))
  drill {ts us base keys} hform hq hb ha hne := by
    intro ho hlegible ws hw
    rw [Value.pieces] at hw
    rw [Value.legible] at hlegible
    obtain ⟨first, rest, rfl, hfirst, hrest⟩ := ha.returns ho.right hlegible hw
    have hbase := hb ho.left ((Value.legibleChain_iff.1 hlegible).1 base (by simp)) first hfirst
    exact .drill (hbase.form hform) hq hrest hne

def SelfEqual (ts : List Token) (v : Value) : Prop := Orderly ts → v.equal v = true

theorem Grammar.Leaf.selfEqual {t : Token} {v : Value} (h : Leaf t v) {rest : List Char}
    (hf : Fits t.kind t.literal.toList rest) : v.equal v = true := by
  cases h.isLiteral hf with
  | symbol _ => simp [Value.equal]
  | int _ => simp [Value.equal]
  | float hx =>
    rw [Value.equal]
    exact Binary64.equal_self (Binary64.isNaN_of_le hx)
  | str _ => simp [Value.equal]

theorem Grammar.Sequence.selfEqual {ts : List Token} {vs : List Value}
    (h : Sequence SelfEqual ts vs) (ho : Orderly ts) : Value.equalItems vs vs = true := by
  induction h with
  | nil => rfl
  | cons hv _ ih => rw [Value.equalItems, hv ho.left, ih ho.right, Bool.and_self]

theorem Grammar.Sequence.entries_selfEqual {ts : List Token} {es : List (Value × Value)}
    (h : Sequence (Entry SelfEqual) ts es) (ho : Orderly ts) : Value.equalEntries es es = true := by
  induction h with
  | nil => rfl
  | cons he _ ih =>
    obtain @⟨ts, us, k, v, hk, hv⟩ := he
    rw [Value.equalEntries, hk ho.left.left, hv ho.left.right, ih ho.right]
    rfl

theorem Grammar.Accessors.selfEqual {ts : List Token} {keys : List Value} (h : Accessors ts keys)
    (ho : Orderly ts) : Value.equalItems keys keys = true := by
  induction h with
  | nil => rfl
  | @cons dot key ts k keys _ hl _ _ ih =>
    obtain ⟨rest, hf⟩ := ho.shaped key (by simp)
    rw [Value.equalItems, hl.selfEqual hf, ih ho.tail.tail, Bool.and_self]

theorem selfEqual_closed : Closed SelfEqual where
  leaf {t v} hl := by
    intro ho
    obtain ⟨rest, hf⟩ := ho.shaped t (by simp)
    exact hl.selfEqual hf
  apply _ hs _ := fun ho => hs.selfEqual ho.inner
  list _ hs _ := fun ho => hs.selfEqual ho.inner
  map _ hs _ := fun ho => hs.entries_selfEqual ho.inner
  quote _ hb := fun ho => hb ho.tail
  unquote _ hb := fun ho => hb ho.tail
  drill _ _ hb ha _ := by
    intro ho
    rw [Value.equal, Value.equalItems, hb ho.left, ha.selfEqual ho.right, Bool.and_self]

theorem derivation_of_readFirst {source : String} {v : Value} (h : readFirst source = .ok v) :
    ∃ us, Orderly us ∧ Expression us v ∧ v.nesting ≤ Reader.nestingLimit := by
  obtain ⟨us, rest, ht, hE, hn, _⟩ := readFirst_ok_iff.1 h
  exact ⟨us, (orderly_of_tokenize ht).left, hE, hn⟩

theorem tokenize_render {us : List Token} {v : Value} (ho : Orderly us) (h : Expression us v) :
    ∃ ts, tokenize v.render = .ok ts ∧ ts.map piece = significant v.pieces := by
  apply tokenize_of_cut
  rw [Value.render, String.toList_ofList]
  exact h.cut ho

theorem readFirst_render_of_legible {source : String} {v : Value} (h : readFirst source = .ok v)
    (hl : v.legible = true) : readFirst v.render = .ok v ∧ v.equal v = true := by
  obtain ⟨us, ho, hE, hn⟩ := derivation_of_readFirst h
  obtain ⟨ts, ht, hp⟩ := tokenize_render ho hE
  have hback : Expression ts v := hE.of_closed returns_closed ho hl ts hp
  refine ⟨readFirst_ok_iff.2 ⟨ts, [], ?_, hback, hn, by simp [NoDot]⟩,
    hE.of_closed selfEqual_closed ho⟩
  rw [List.append_nil]
  exact ht

/-- The tokens of an illegible text do not weigh enough for a value equal to the one it is
the text of. -/
theorem not_equal_of_illegible {source : String} {v w : Value} (h : readFirst source = .ok v)
    (hl : v.legible = false) (hw : readFirst v.render = .ok w) : w.equal v = false := by
  obtain ⟨us, ho, hE, _⟩ := derivation_of_readFirst h
  obtain ⟨ts, ht, hp⟩ := tokenize_render ho hE
  obtain ⟨front, rest, ht', hW, _⟩ := readFirst_ok_iff.1 hw
  rw [ht, Except.ok.injEq] at ht'
  have hfront : weigh (front.map piece) ≤ weigh (ts.map piece) := by
    rw [ht', List.map_append, weigh_append]
    exact Nat.le_add_right _ _
  rw [hW.weight, hp, weigh_significant] at hfront
  have hless := Value.weigh_pieces_lt hl
  cases heq : w.equal v with
  | false => rfl
  | true =>
    have := Value.equal_weight w v heq
    omega

/-- Reading the text of a value gives an equal value. -/
def Value.ReadsBack (v : Value) : Prop := ∃ w, readFirst v.render = .ok w ∧ w.equal v = true

theorem readsBack_iff_legible {source : String} {v : Value} (h : readFirst source = .ok v) :
    v.ReadsBack ↔ v.legible = true := by
  constructor
  · rintro ⟨w, hw, heq⟩
    cases hl : v.legible with
    | true => rfl
    | false => exact absurd (not_equal_of_illegible h hl hw) (by simp [heq])
  · intro hl
    exact ⟨v, readFirst_render_of_legible h hl⟩

/-- A value that was read from a source text always has a text that is cut into tokens. If
the value is legible the same value is read from it, otherwise every value that is read
from it differs. -/
theorem text_reads_back_when_legible (source : String) (v : Value)
    (h : readFirst source = .ok v) :
    (∃ ts, tokenize v.render = .ok ts) ∧
    (v.legible = true → readFirst v.render = .ok v ∧ v.ReadsBack) ∧
    (v.legible = false → ∀ w, readFirst v.render = .ok w → w.equal v = false) ∧
    (¬ v.ReadsBack ↔ v.legible = false) := by
  refine ⟨?_, fun hl => ?_, fun hl w => not_equal_of_illegible h hl, ?_⟩
  · obtain ⟨us, ho, hE, _⟩ := derivation_of_readFirst h
    obtain ⟨ts, ht, _⟩ := tokenize_render ho hE
    exact ⟨ts, ht⟩
  · exact ⟨(readFirst_render_of_legible h hl).1, (readsBack_iff_legible h).2 hl⟩
  · rw [readsBack_iff_legible h, Bool.not_eq_true]

/-- A blank in front of the second dot keeps the two integers apart, and is not written. -/
theorem joined_integers_not_read_back : ∃ v, readFirst "a.0 .1" = .ok v ∧
    (∃ ts, tokenize v.render = .ok ts) ∧ ¬ v.ReadsBack := by
  have hl : (readFirst "a.0 .1").toOption.map Value.legible = some false := by decide +kernel
  cases h : readFirst "a.0 .1" with
  | error e => simp [h, Except.toOption] at hl
  | ok v =>
    have hv : v.legible = false := by simpa [h, Except.toOption] using hl
    have hall := text_reads_back_when_legible "a.0 .1" v h
    exact ⟨v, rfl, hall.1, hall.2.2.2.2 hv⟩

/-- The values that survive are exactly those without a part that its text misrepresents. All
names are among them, also those that begin with a quote, and all strings. -/
theorem reads_back_iff_no_misread (source : String) (v : Value) (h : readFirst source = .ok v) :
    (v.ReadsBack ↔ ∀ u, Value.Part u v → ¬ Value.Misread u) ∧
    ((∃ name, v = .symbol name) ∨ (∃ s, v = .str s) → v.ReadsBack) := by
  refine ⟨(readsBack_iff_legible h).trans Value.legible_iff, fun hleaf => ?_⟩
  rw [readsBack_iff_legible h]
  rcases hleaf with ⟨name, rfl⟩ | ⟨s, rfl⟩
  · rfl
  · rfl

theorem open_quote_reads_back : ∃ v, readFirst "(f \"open #a.0.b // note\n 1.50)" = .ok v ∧
    v.ReadsBack := by
  have hl : (readFirst "(f \"open #a.0.b // note\n 1.50)").toOption.map Value.legible =
      some true := by
    decide +kernel
  cases h : readFirst "(f \"open #a.0.b // note\n 1.50)" with
  | error e => simp [h, Except.toOption] at hl
  | ok v =>
    have hv : v.legible = true := by simpa [h, Except.toOption] using hl
    exact ⟨v, rfl, (reads_back_iff_no_misread _ v h).1.2 (Value.legible_iff.1 hv)⟩

end EmbeddedLisp
