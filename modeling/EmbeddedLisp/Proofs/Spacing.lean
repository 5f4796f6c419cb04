import EmbeddedLisp.Proofs.Rendering
import EmbeddedLisp.Proofs.Scanning

/-!
# Spacing between tokens

Blanks and comments only keep tokens apart. One blank does so as well: it ends every
number and every name, and it neither opens nor closes a quote. The literals of a source
text with single blanks between them are therefore cut into the same tokens again, each
one byte behind the end of the one before it. A name that begins with a quote stays a
name, since no token behind it holds a closing quote.
-/

set_option autoImplicit false

namespace EmbeddedLisp.Token
open Piece

theorem Fits.moved {kind : Kind} {text rest tail : List Char} (h : Fits kind text rest)
    (hk : kind.isDiscarded = false) (hs : Stops isIdentifierChar tail) (hd : ¬ Fraction tail)
    (hq : Opens ⟨kind, text⟩ → Token.closing? tail = none) : Fits kind text tail := by
  cases kind with
  | comment => simp [Kind.isDiscarded] at hk
  | whitespace => simp [Kind.isDiscarded] at hk
  | float =>
    obtain ⟨whole, part, ht, hne, hne', hw, hp, _⟩ := h
    exact ⟨whole, part, ht, hne, hne', hw, hp, stops_isDigit hs⟩
  | integer => exact ⟨h.1, h.2.1, stops_isDigit hs, hd⟩
  | string => exact h
  | punctuation => exact h
  | identifier =>
    exact fits_identifier_iff.2 ⟨(fits_identifier_iff.1 h).1, hs, fun hhead => hq ⟨rfl, hhead⟩⟩

def spacedText (ts : List Token) : List Char :=
  [' '].intercalate (ts.map fun t => t.literal.toList)

theorem spacedText_singleton (t : Token) : spacedText [t] = t.literal.toList := by
  simp [spacedText]

theorem spacedText_cons (t u : Token) (ts : List Token) :
    spacedText (t :: u :: ts) = t.literal.toList ++ ' ' :: spacedText (u :: ts) := by
  simp [spacedText]

def spacedPieces : List Token → List Piece
  | [] => []
  | [t] => [t.piece]
  | t :: u :: ts => t.piece :: blank :: spacedPieces (u :: ts)

/-- The tokens from an offset on, with one byte between two of them. -/
def spacedFrom : Nat → List Token → List Token
  | _, [] => []
  | offset, t :: ts => { t with offset } :: spacedFrom (offset + t.length + 1) ts

theorem toList_intercalate_literal (ts : List Token) :
    (" ".intercalate (ts.map literal)).toList = spacedText ts := by
  rw [String.toList_intercalate, List.map_map]
  rfl

theorem map_spacedFrom (offset : Nat) (ts : List Token) :
    (spacedFrom offset ts).map (fun t => (t.kind, t.literal)) =
      ts.map fun t => (t.kind, t.literal) := by
  induction ts generalizing offset with
  | nil => rfl
  | cons t ts ih => simp only [spacedFrom, List.map_cons, ih]

theorem filter_place_spacedPieces {ts : List Token}
    (hk : ∀ t ∈ ts, t.kind.isDiscarded = false) (offset : Nat) :
    (place offset (spacedPieces ts)).filter (fun t => !t.kind.isDiscarded) =
      spacedFrom offset ts := by
  induction ts generalizing offset with
  | nil => rfl
  | cons t ts ih =>
    obtain ⟨ht, hts⟩ := List.forall_mem_cons.1 hk
    cases ts with
    | nil => simp [spacedPieces, place, spacedFrom, piece, ht]
    | cons u ts =>
      have hblank : blank.kind.isDiscarded = true := rfl
      have hone : byteLength blank.text = 1 := rfl
      rw [spacedFrom, ← ih hts]
      simp only [spacedPieces, place, List.filter_cons, hblank, hone]
      simp [piece, ht, length]

end EmbeddedLisp.Token

namespace EmbeddedLisp
open Token Piece

theorem significant_of_tokenize {source : String} {ts : List Token}
    (h : tokenize source = .ok ts) : ∀ t ∈ ts, t.kind.isDiscarded = false := by
  obtain ⟨ps, _, hts⟩ := cut_of_tokenize h
  intro t ht
  have hp : t.piece ∈ significant ps := hts ▸ List.mem_map_of_mem ht
  simpa [significant, piece] using (List.mem_filter.1 hp).2

theorem Quiet.spacedText {ts : List Token} (h : Quiet ts) : closing? (spacedText ts) = none := by
  induction ts with
  | nil => rfl
  | cons t ts ih =>
    obtain ⟨ht, hts⟩ := List.forall_mem_cons.1 h
    cases ts with
    | nil => rwa [spacedText_singleton]
    | cons u ts =>
      rw [spacedText_cons, closing?_append (by decide)]
      exact ⟨ht, ih hts⟩

theorem Orderly.stops_isSpace {ts : List Token} (h : Orderly ts)
    (hk : ∀ t ∈ ts, t.kind.isDiscarded = false) : Stops isSpace (spacedText ts) := by
  cases ts with
  | nil => simp [Stops, spacedText]
  | cons t ts =>
    obtain ⟨rest, hf⟩ := h.shaped t (by simp)
    have hkind : t.kind ≠ .whitespace := by
      intro hw
      simp [hw, Kind.isDiscarded] at hk
    obtain ⟨c, tail, ht, hc⟩ := hf.begins hkind
    cases ts with
    | nil => simpa [Stops, spacedText_singleton, ht] using hc
    | cons u ts => simpa [Stops, spacedText_cons, ht] using hc

theorem Orderly.cut_spacedText {ts : List Token} (h : Orderly ts)
    (hk : ∀ t ∈ ts, t.kind.isDiscarded = false) : Cut (spacedText ts) (spacedPieces ts) := by
  induction ts with
  | nil => exact .nil
  | cons t ts ih =>
    obtain ⟨ht, hts⟩ := List.forall_mem_cons.1 hk
    obtain ⟨rest, hf⟩ := h.shaped t (by simp)
    cases ts with
    | nil =>
      have hend : Fits t.kind t.literal.toList [] :=
        hf.moved ht (by simp [Stops]) (by simp [Fraction]) fun _ => rfl
      have hcut : Cut (t.literal.toList ++ []) [t.piece] := .cons hend .nil
      rwa [List.append_nil, ← spacedText_singleton] at hcut
    | cons u ts =>
      have hquiet (hopen : t.piece.Opens) :
          closing? (' ' :: spacedText (u :: ts)) = none := by
        have hopened : Opened [t] := ⟨t, by simp, hopen⟩
        rw [closing?_plain_eq_none (by decide)]
        exact Quiet.spacedText (h.quiet hopened)
      have hfits := hf.moved ht (by simp [Stops, isIdentifierChar, isBreak, isSpace])
        (not_fraction_of_ne (by decide)) hquiet
      rw [spacedText_cons]
      exact .cons hfits (cut_blank (h.tail.stops_isSpace hts) (ih h.tail hts))

/-- The literals of the tokens of a source text, with single blanks between them, are cut
into tokens of the same kinds and literals. Only the offsets tell the two texts apart: each
token begins one byte behind the end of the one before it. -/
theorem spacing_does_not_matter (source : String) (ts : List Token)
    (h : tokenize source = .ok ts) :
    ∃ us, tokenize (" ".intercalate (ts.map Token.literal)) = .ok us ∧
      us.map (fun t => (t.kind, t.literal)) = ts.map (fun t => (t.kind, t.literal)) ∧
      us = spacedFrom 0 ts := by
  have hk := significant_of_tokenize h
  have hcut := (orderly_of_tokenize h).cut_spacedText hk
  rw [← toList_intercalate_literal] at hcut
  refine ⟨spacedFrom 0 ts, ?_, map_spacedFrom 0 ts, rfl⟩
  rw [tokenize_eq_of_cut hcut, filter_place_spacedPieces hk]

theorem open_quote_spaced : ∃ ts us,
    tokenize "(f \"s // t\"12x.3// \"c\"\n\"open#a.0 // note" = .ok ts ∧
    tokenize "( f \"s // t\" 12 x . 3 \"open # a . 0" = .ok us ∧
    us.map (fun t => (t.kind, t.literal)) = ts.map fun t => (t.kind, t.literal) := by
  have hl : (tokenize "(f \"s // t\"12x.3// \"c\"\n\"open#a.0 // note").toOption.map
      (List.map literal) = some ["(", "f", "\"s // t\"", "12", "x", ".", "3", "\"open", "#", "a",
        ".", "0"] := by
    decide +kernel
  cases h : tokenize "(f \"s // t\"12x.3// \"c\"\n\"open#a.0 // note" with
  | error e => simp [h, Except.toOption] at hl
  | ok ts =>
    rw [h] at hl
    obtain ⟨us, hu, hsame, _⟩ := spacing_does_not_matter _ ts h
    rw [Option.some.inj hl] at hu
    exact ⟨ts, us, rfl, hu, hsame⟩

end EmbeddedLisp
