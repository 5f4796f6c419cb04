import EmbeddedLisp.Value.Equality
import EmbeddedLisp.Proofs.Literals

/-!
# Legible values

A value is legible if no chain in it has two integers in a row, whose dot would make
them one number, and no float in it is infinite, whose name would be an identifier.
In both cases the text has fewer tokens than the value asks for, or lighter ones: the
weight of a value is that of any tokens which derive it, and equal values weigh the same.
-/

set_option autoImplicit false

namespace EmbeddedLisp.Value
open Token

/-- Two links of a chain that the dot between them joins into one number. -/
def joins : Value → Value → Bool
  | .int _, .int _ => true
  | _, _ => false

mutual

def legible : Value → Bool
  | .float x => x.code ≠ Binary64.infinite
  | .apply items => legibleItems items
  | .list items => legibleItems items
  | .map entries => legibleEntries entries
  | .drill chain => legibleChain chain
  | .quote body => legible body
  | .unquote body => legible body
  | _ => true

def legibleItems : List Value → Bool
  | [] => true
  | v :: vs => legible v && legibleItems vs

def legibleEntries : List (Value × Value) → Bool
  | [] => true
  | (k, v) :: es => legible k && legible v && legibleEntries es

def legibleChain : List Value → Bool
  | [] => true
  | [v] => legible v
  | v :: w :: vs => !joins v w && legible v && legibleChain (w :: vs)

end

inductive Part : Value → Value → Prop
  | self {v : Value} : Part v v
  | apply {u v : Value} {items : List Value} : Part u v → v ∈ items → Part u (.apply items)
  | list {u v : Value} {items : List Value} : Part u v → v ∈ items → Part u (.list items)
  | key {u k v : Value} {entries : List (Value × Value)} :
      Part u k → (k, v) ∈ entries → Part u (.map entries)
  | value {u k v : Value} {entries : List (Value × Value)} :
      Part u v → (k, v) ∈ entries → Part u (.map entries)
  | drill {u v : Value} {chain : List Value} : Part u v → v ∈ chain → Part u (.drill chain)
  | quote {u v : Value} : Part u v → Part u (.quote v)
  | unquote {u v : Value} : Part u v → Part u (.unquote v)

/-- A value that its own text misrepresents: a chain with two integers in a row, or an
infinite float. -/
inductive Misread : Value → Prop
  | chain {before after : List Value} {m n : Int64} :
      Misread (.drill (before ++ .int m :: .int n :: after))
  | infinite {x : Binary64} : x.code = Binary64.infinite → Misread (.float x)

theorem joins_eq_true {v w : Value} (h : joins v w = true) : ∃ m n, v = .int m ∧ w = .int n := by
  unfold joins at h
  split at h
  · exact ⟨_, _, rfl, rfl⟩
  · simp at h

theorem legibleItems_iff {vs : List Value} :
    legibleItems vs = true ↔ ∀ v ∈ vs, v.legible = true := by
  induction vs with
  | nil => simp [legibleItems]
  | cons v vs ih => simp [legibleItems, ih]

theorem legibleEntries_iff {es : List (Value × Value)} :
    legibleEntries es = true ↔ ∀ e ∈ es, e.1.legible = true ∧ e.2.legible = true := by
  induction es with
  | nil => simp [legibleEntries]
  | cons e es ih =>
    obtain ⟨k, v⟩ := e
    simp only [legibleEntries, Bool.and_eq_true, ih, List.forall_mem_cons]

theorem legibleChain_iff {vs : List Value} : legibleChain vs = true ↔
    (∀ v ∈ vs, v.legible = true) ∧
      ∀ before m n after, vs ≠ before ++ .int m :: .int n :: after := by
  match vs with
  | [] => simp [legibleChain]
  | [v] =>
    simp only [legibleChain, List.mem_singleton, forall_eq, ne_eq, iff_self_and]
    intro _ before m n after h
    have := congrArg List.length h
    simp only [List.length_nil, List.length_append, List.length_cons] at this
    omega
  | v :: w :: vs =>
    have ih : legibleChain (w :: vs) = true ↔ _ := legibleChain_iff
    simp only [legibleChain, Bool.and_eq_true, Bool.not_eq_true', ih, List.forall_mem_cons]
    constructor
    · rintro ⟨⟨hj, hv⟩, hall, hno⟩
      refine ⟨⟨hv, hall⟩, fun before m n after h => ?_⟩
      cases before with
      | nil =>
        simp only [List.nil_append, List.cons.injEq] at h
        rw [h.1, h.2.1] at hj
        simp [joins] at hj
      | cons b before => exact hno before m n after (List.cons.inj h).2
    · rintro ⟨⟨hv, hall⟩, hno⟩
      refine ⟨⟨?_, hv⟩, hall, ?_⟩
      · by_cases hj : joins v w = true
        · obtain ⟨m, n, rfl, rfl⟩ := joins_eq_true hj
          exact absurd rfl (hno [] m n vs)
        · simpa using hj
      · intro before m n after h
        exact hno (v :: before) m n after (by rw [h, List.cons_append])

theorem Part.legible {u v : Value} (h : Part u v) (hv : v.legible = true) : u.legible = true := by
  induction h with
  | self => exact hv
  | apply _ hm ih => exact ih (legibleItems_iff.1 hv _ hm)
  | list _ hm ih => exact ih (legibleItems_iff.1 hv _ hm)
  | key _ hm ih => exact ih (legibleEntries_iff.1 hv _ hm).1
  | value _ hm ih => exact ih (legibleEntries_iff.1 hv _ hm).2
  | drill _ hm ih => exact ih ((legibleChain_iff.1 hv).1 _ hm)
  | quote _ ih => exact ih hv
  | unquote _ ih => exact ih hv

theorem not_misread_of_legible {v : Value} (h : v.legible = true) : ¬ Misread v := by
  intro hm
  cases hm with
  | chain => exact (legibleChain_iff.1 h).2 _ _ _ _ rfl
  | infinite hx => simp [Value.legible, hx] at h

theorem legible_of_parts (v : Value) (h : ∀ u, Part u v → ¬ Misread u) : v.legible = true := by
  match v with
  | .float x =>
    have hx : x.code ≠ Binary64.infinite := fun hx => h _ .self (.infinite hx)
    simpa [legible] using hx
  | .apply items =>
    rw [legible, legibleItems_iff]
    exact fun w hw => legible_of_parts w fun u hu => h u (.apply hu hw)
  | .list items =>
    rw [legible, legibleItems_iff]
    exact fun w hw => legible_of_parts w fun u hu => h u (.list hu hw)
  | .map entries =>
    rw [legible, legibleEntries_iff]
    rintro ⟨k, w⟩ hw
    have hsize : 1 + sizeOf k + sizeOf w < sizeOf entries := List.sizeOf_lt_of_mem hw
    exact ⟨legible_of_parts k fun u hu => h u (.key hu hw),
      legible_of_parts w fun u hu => h u (.value hu hw)⟩
  | .drill chain =>
    rw [legible, legibleChain_iff]
    refine ⟨fun w hw => legible_of_parts w fun u hu => h u (.drill hu hw), ?_⟩
    rintro before m n after rfl
    exact h _ .self .chain
  | .quote body =>
    rw [legible]
    exact legible_of_parts body fun u hu => h u (.quote hu)
  | .unquote body =>
    rw [legible]
    exact legible_of_parts body fun u hu => h u (.unquote hu)
  | .nil | .int _ | .str _ | .symbol _ | .function _ | .table .. => rfl

theorem legible_iff {v : Value} : v.legible = true ↔ ∀ u, Part u v → ¬ Misread u :=
  ⟨fun h _ hu => not_misread_of_legible (hu.legible h), legible_of_parts v⟩

mutual

/-- The weight of the tokens that derive a value: one for an identifier, two for any other. -/
def weight : Value → Nat
  | .nil => 4
  | .symbol _ => 1
  | .int _ | .float _ | .str _ => 2
  | .apply items => weightItems items + 4
  | .list items => weightItems items + 4
  | .map entries => weightEntries entries + 4
  | .drill chain => weightItems chain + 2 * (chain.length - 1)
  | .quote body => weight body + 2
  | .unquote body => weight body + 2
  | .function _ | .table .. => 0

def weightItems : List Value → Nat
  | [] => 0
  | v :: vs => weight v + weightItems vs

def weightEntries : List (Value × Value) → Nat
  | [] => 0
  | (k, v) :: es => weight k + weight v + weightEntries es

end

theorem equal_length {vs ws : List Value} (h : equalItems vs ws = true) :
    vs.length = ws.length := by
  induction vs generalizing ws with
  | nil =>
    cases ws with
    | nil => rfl
    | cons w ws => simp [equalItems] at h
  | cons v vs ih =>
    cases ws with
    | nil => simp [equalItems] at h
    | cons w ws =>
      simp only [equalItems, Bool.and_eq_true] at h
      simp only [List.length_cons, ih h.2]

mutual

theorem equal_weight (v w : Value) (h : v.equal w = true) : v.weight = w.weight := by
  unfold equal at h
  split at h
  · rfl
  · rfl
  · rfl
  · rfl
  · rfl
  · next xs ys => simp only [weight, equal_weightItems xs ys h]
  · next xs ys => simp only [weight, equal_weightItems xs ys h]
  · next es fs => simp only [weight, equal_weightEntries es fs h]
  · next xs ys => simp only [weight, equal_weightItems xs ys h, equal_length h]
  · next v w => simp only [weight, equal_weight v w h]
  · next v w => simp only [weight, equal_weight v w h]
  · rfl
  · rfl
  · simp at h

theorem equal_weightItems (vs ws : List Value) (h : equalItems vs ws = true) :
    weightItems vs = weightItems ws := by
  match vs, ws with
  | [], [] => rfl
  | v :: vs, w :: ws =>
    simp only [equalItems, Bool.and_eq_true] at h
    simp only [weightItems, equal_weight v w h.1, equal_weightItems vs ws h.2]
  | [], _ :: _ | _ :: _, [] => simp [equalItems] at h

theorem equal_weightEntries (es fs : List (Value × Value)) (h : equalEntries es fs = true) :
    weightEntries es = weightEntries fs := by
  match es, fs with
  | [], [] => rfl
  | (k, v) :: es, (l, w) :: fs =>
    simp only [equalEntries, Bool.and_eq_true] at h
    simp only [weightEntries, equal_weight k l h.1.1, equal_weight v w h.1.2,
      equal_weightEntries es fs h.2]
  | [], _ :: _ | _ :: _, [] => simp [equalEntries] at h

end

end EmbeddedLisp.Value

namespace EmbeddedLisp.Token

def Piece.weight (p : Piece) : Nat :=
  match p.kind with
  | .comment | .whitespace => 0
  | .identifier => 1
  | .float | .integer | .string | .punctuation => 2

def weigh : List Piece → Nat
  | [] => 0
  | p :: ps => p.weight + weigh ps

@[simp] theorem weigh_nil : weigh [] = 0 := rfl

@[simp] theorem weigh_cons (p : Piece) (ps : List Piece) :
    weigh (p :: ps) = p.weight + weigh ps := rfl

@[simp] theorem weigh_append (ps qs : List Piece) : weigh (ps ++ qs) = weigh ps + weigh qs := by
  induction ps with
  | nil => simp
  | cons p ps ih => simp [ih, Nat.add_assoc]

theorem weigh_significant (ps : List Piece) : weigh (significant ps) = weigh ps := by
  induction ps with
  | nil => rfl
  | cons p ps ih =>
    have hdrop : p.kind.isDiscarded = true → p.weight = 0 := by
      cases hk : p.kind <;> simp [Kind.isDiscarded, Piece.weight, hk]
    cases hd : p.kind.isDiscarded with
    | true => simpa [significant, hd, hdrop hd] using ih
    | false => simpa [significant, hd] using ih

end EmbeddedLisp.Token

namespace EmbeddedLisp.Grammar
open Token Reader

theorem IsMark.weight {m : Mark} {t : Token} (h : IsMark m t) : t.piece.weight = 2 := by
  simp [piece, Piece.weight, h.1]

theorem Leaf.weight {t : Token} {v : Value} (h : Leaf t v) : t.piece.weight = v.weight := by
  cases h with
  | identifier hk => simp [piece, Piece.weight, hk, Value.weight]
  | integer hk _ => simp [piece, Piece.weight, hk, Value.weight]
  | float hk _ => simp [piece, Piece.weight, hk, Value.weight]
  | string hk _ _ => simp [piece, Piece.weight, hk, Value.weight]

theorem Accessors.weight {ts : List Token} {vs : List Value} (h : Accessors ts vs) :
    weigh (ts.map piece) = Value.weightItems vs + 2 * vs.length := by
  induction h with
  | nil => rfl
  | cons hd hl _ _ ih =>
    simp only [List.map_cons, weigh_cons, hd.weight, hl.weight, ih, Value.weightItems,
      List.length_cons]
    omega

def Weighs (ts : List Token) (v : Value) : Prop := weigh (ts.map piece) = v.weight

theorem Sequence.weight {ts : List Token} {vs : List Value} (h : Sequence Weighs ts vs) :
    weigh (ts.map piece) = Value.weightItems vs := by
  induction h with
  | nil => rfl
  | cons hv _ ih => rw [List.map_append, weigh_append, hv, ih, Value.weightItems]

theorem Sequence.entries_weight {ts : List Token} {es : List (Value × Value)}
    (h : Sequence (Entry Weighs) ts es) : weigh (ts.map piece) = Value.weightEntries es := by
  induction h with
  | nil => rfl
  | cons he _ ih =>
    obtain @⟨ts, us, k, v, hk, hv⟩ := he
    rw [List.map_append, weigh_append, List.map_append, weigh_append, hk, hv, ih,
      Value.weightEntries]

theorem weighs_bracketed {first last : Token} {m n : Mark} {ts : List Token}
    (hf : IsMark m first) (hl : IsMark n last) :
    weigh ((first :: ts ++ [last]).map piece) = weigh (ts.map piece) + 4 := by
  simp only [List.cons_append, List.map_cons, List.map_append, List.map_nil, weigh_cons,
    weigh_append, weigh_nil, hf.weight, hl.weight]
  omega

theorem weighs_closed : Closed Weighs where
  leaf hl := by simp [Weighs, hl.weight]
  apply hf hs hl := by rw [Weighs, weighs_bracketed hf hl, hs.weight, Value.weight]
  list hf hs hl := by rw [Weighs, weighs_bracketed hf hl, hs.weight, Value.weight]
  map hf hs hl := by rw [Weighs, weighs_bracketed hf hl, hs.entries_weight, Value.weight]
  quote hf hb := by
    rw [Weighs, List.map_cons, weigh_cons, hf.weight, hb, Value.weight, Nat.add_comm]
  unquote hf hb := by
    rw [Weighs, List.map_cons, weigh_cons, hf.weight, hb, Value.weight, Nat.add_comm]
  drill _ _ hb ha _ := by
    rw [Weighs, List.map_append, weigh_append, hb, ha.weight, Value.weight, Value.weightItems,
      List.length_cons, Nat.add_sub_cancel, Nat.add_assoc]

theorem Expression.weight {ts : List Token} {v : Value} (h : Expression ts v) :
    weigh (ts.map piece) = v.weight := h.of_closed weighs_closed

end EmbeddedLisp.Grammar
