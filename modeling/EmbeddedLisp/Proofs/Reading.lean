import EmbeddedLisp.Session
import EmbeddedLisp.Proofs.Lexing
import EmbeddedLisp.Proofs.Parsing

/-!
# From source texts to derivations

The tokens of a source text have the shape that the grammar asks for, so that a text
is read exactly when its tokens derive a value.
-/

set_option autoImplicit false

namespace EmbeddedLisp
open Token Grammar

theorem Token.Cut.fits {input : List Char} {ps : List Piece} (h : Cut input ps) {p : Piece}
    (hp : p ∈ ps) : ∃ rest, Fits p.kind p.text rest := by
  induction h with
  | nil => simp at hp
  | cons hf _ ih =>
    rcases List.mem_cons.1 hp with rfl | hp
    · exact ⟨_, hf⟩
    · exact ih hp

theorem fits_of_tokenize {source : String} {ts : List Token} (h : tokenize source = .ok ts)
    {t : Token} (ht : t ∈ ts) : ∃ rest, Fits t.kind t.literal.toList rest := by
  obtain ⟨ps, hps, hts⟩ := cut_of_tokenize h
  have hp : t.piece ∈ significant ps := hts ▸ List.mem_map_of_mem ht
  exact hps.fits (List.mem_filter.1 hp).1

theorem wellQuoted_of_tokenize {source : String} {ts : List Token}
    (h : tokenize source = .ok ts) : WellQuoted ts := by
  intro t ht hk
  obtain ⟨rest, hf⟩ := fits_of_tokenize h ht
  rw [hk] at hf
  obtain ⟨body, hb, _⟩ := hf
  exact ⟨body, hb⟩

theorem readWith_ok_iff {read : List Token → Except Reader.Error Value} {source : String}
    {v : Value} : readWith read source = .ok v ↔
      ∃ ts, tokenize source = .ok ts ∧ read ts = .ok v := by
  unfold readWith
  cases tokenize source with
  | error e => simp
  | ok ts => cases hr : read ts <;> simp [hr]

theorem readFirst_ok_iff {source : String} {v : Value} : readFirst source = .ok v ↔
    ∃ us rest, tokenize source = .ok (us ++ rest) ∧ Expression us v ∧
      v.nesting ≤ Reader.nestingLimit ∧ NoDot rest := by
  rw [readFirst, readWith_ok_iff]
  constructor
  · rintro ⟨ts, ht, hr⟩
    obtain ⟨us, rest, rfl, hE⟩ := (readExpression_ok_iff (wellQuoted_of_tokenize ht)).1 hr
    exact ⟨us, rest, ht, hE⟩
  · rintro ⟨us, rest, ht, hE⟩
    exact ⟨us ++ rest, ht, (readExpression_ok_iff (wellQuoted_of_tokenize ht)).2
      ⟨us, rest, rfl, hE⟩⟩

theorem readSource_ok_iff {source : String} {w : Value} : readSource source = .ok w ↔
    ∃ ts vs, tokenize source = .ok ts ∧ w = .apply (.symbol "do" :: vs) ∧
      Sequence Expression ts vs ∧ ∀ v ∈ vs, v.nesting ≤ Reader.nestingLimit := by
  rw [readSource, readWith_ok_iff]
  constructor
  · rintro ⟨ts, ht, hr⟩
    obtain ⟨vs, hE⟩ := (readProgram_ok_iff (wellQuoted_of_tokenize ht)).1 hr
    exact ⟨ts, vs, ht, hE⟩
  · rintro ⟨ts, vs, ht, hE⟩
    exact ⟨ts, ht, (readProgram_ok_iff (wellQuoted_of_tokenize ht)).2 ⟨vs, hE⟩⟩

end EmbeddedLisp
