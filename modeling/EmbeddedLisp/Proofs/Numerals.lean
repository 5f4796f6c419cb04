import EmbeddedLisp.Number.Integer
import EmbeddedLisp.Number.Shortest
import EmbeddedLisp.Proofs.Lexing

/-!
# Reading numbers back

The text of a number is read back as the same number. For an integer this is the
positional value of its digits. A float is written with the first decimal on the
grids that reads back, and where none of them does with all of its digits, which
are a ratio that the nearest float meets exactly.
-/

set_option autoImplicit false

namespace EmbeddedLisp.Digits

theorem tenTo_pos (n : Nat) : 0 < tenTo n := Nat.pow_pos (by decide)

theorem tenTo_succ (n : Nat) : tenTo (n + 1) = tenTo n * 10 := rfl

theorem value_append (s t : List Char) :
    value (s ++ t) = tenTo t.length * value s + value t := by
  change Nat.ofDigitChars 10 (s ++ t) 0 = _
  rw [Nat.ofDigitChars_append, Nat.ofDigitChars_eq_ofDigitChars_zero]
  rfl

theorem value_text (n : Nat) : value (text n) = n := Nat.ofDigitChars_ten_toDigits

theorem text_ne_nil (n : Nat) : text n ≠ [] := Nat.toDigits_ne_nil

theorem isDigit_text {n : Nat} {c : Char} (h : c ∈ text n) : isDigit c = true := by
  have hc : c.isDigit = true := Nat.isDigit_of_mem_toDigits (by decide) (by decide) h
  simp only [Char.isDigit, Bool.and_eq_true, decide_eq_true_eq] at hc
  simp only [isDigit, Bool.and_eq_true, decide_eq_true_eq]
  exact hc

theorem value_padded (width n : Nat) : value (padded width n) = n := by
  have hz : value (List.replicate (width - (text n).length) '0') = 0 :=
    Nat.ofDigitChars_replicate_zero
  rw [padded, value_append, hz, value_text, Nat.mul_zero, Nat.zero_add]

theorem length_padded {width n : Nat} (hw : 0 < width) (hn : n < tenTo width) :
    (padded width n).length = width := by
  have hl : (text n).length ≤ width := (Nat.length_toDigits_le_iff (by decide) hw).2 hn
  simp only [padded, List.length_append, List.length_replicate]
  omega

theorem padded_ne_nil (width n : Nat) : padded width n ≠ [] := by
  simp [padded, text_ne_nil]

theorem isDigit_padded {width n : Nat} {c : Char} (h : c ∈ padded width n) : isDigit c = true := by
  rcases List.mem_append.1 h with h | h
  · obtain rfl := List.eq_of_mem_replicate h
    decide
  · exact isDigit_text h

theorem isDigit_not_sign {c : Char} (h : isDigit c = true) : c ≠ '+' ∧ c ≠ '-' := by
  constructor <;> rintro rfl <;> exact absurd h (by decide)

theorem split_run {whole rest : List Char} (hw : ∀ c ∈ whole, isDigit c = true)
    (hr : Token.Stops isDigit rest) : split (whole ++ rest) = (whole, rest) := by
  rw [split, Token.takeWhile_run hw hr, Token.dropWhile_run hw hr]

end EmbeddedLisp.Digits

namespace EmbeddedLisp.Integer
open EmbeddedLisp.Digits

theorem parse_digits {text : List Char} (hne : text ≠ []) (hd : ∀ c ∈ text, isDigit c = true)
    {n : Int64} : parse text = .ok n ↔
      ∃ m, magnitude greatest .tooLarge 0 text = .ok m ∧ Int64.ofInt m = n := by
  have hp : parse text = (magnitude greatest .tooLarge 0 text).map fun m => Int64.ofInt m := by
    cases text with
    | nil => exact absurd rfl hne
    | cons c rest =>
      obtain ⟨hp, hm⟩ := isDigit_not_sign (hd c (by simp))
      unfold parse
      split <;> simp_all
  rw [hp]
  cases magnitude greatest .tooLarge 0 text with
  | error e =>
    show Except.error e = Except.ok n ↔ _
    simp
  | ok m =>
    show Except.ok (Int64.ofInt m) = Except.ok n ↔ _
    simp

theorem magnitude_of_le {bound : Nat} {beyond : Fault} {text : List Char}
    (hd : ∀ c ∈ text, isDigit c = true) {n : Nat}
    (hb : tenTo text.length * n + value text ≤ bound) :
    magnitude bound beyond n text = .ok (tenTo text.length * n + value text) := by
  induction text generalizing n with
  | nil => simp [magnitude, value, tenTo]
  | cons c text ih =>
    have hv : tenTo (c :: text).length * n + value (c :: text) =
        tenTo text.length * (10 * n + digitValue c) + value text := by
      have hc : value (c :: text) = tenTo text.length * value [c] + value text :=
        value_append [c] text
      rw [hc, List.length_cons, tenTo_succ]
      simp only [value, List.foldl_cons, List.foldl_nil, Nat.mul_zero, Nat.zero_add, Nat.mul_add,
        Nat.mul_assoc, Nat.add_assoc]
    rw [hv] at hb ⊢
    have hle : 10 * n + digitValue c ≤ tenTo text.length * (10 * n + digitValue c) :=
      Nat.le_mul_of_pos_left _ (tenTo_pos _)
    rw [magnitude, if_pos (hd c (by simp)), if_pos (by omega)]
    exact ih (fun d h => hd d (by simp [h])) hb

theorem magnitude_le {bound : Nat} {beyond : Fault} {text : List Char} {n m : Nat}
    (hn : n ≤ bound) (h : magnitude bound beyond n text = .ok m) : m ≤ bound := by
  induction text generalizing n with
  | nil =>
    simp only [magnitude, Except.ok.injEq] at h
    omega
  | cons c text ih =>
    rw [magnitude] at h
    split at h
    · split at h
      · next hb => exact ih hb h
      · simp at h
    · simp at h

theorem toInt_ofInt {n : Nat} (h : n ≤ greatest) : (Int64.ofInt n).toInt = n := by
  unfold greatest at h
  rw [Int64.toInt_ofInt_of_le] <;> omega

theorem toInt_nonneg {text : List Char} {n : Int64} (hne : text ≠ [])
    (hd : ∀ c ∈ text, isDigit c = true) (h : parse text = .ok n) : 0 ≤ n.toInt := by
  obtain ⟨m, hm, rfl⟩ := (parse_digits hne hd).1 h
  rw [toInt_ofInt (magnitude_le (Nat.zero_le _) hm)]
  exact Int.natCast_nonneg m

theorem text_of_nonneg {n : Int64} (h : 0 ≤ n.toInt) : text n = Digits.text n.toInt.natAbs := by
  rw [text, if_neg (by omega)]

theorem parse_text {n : Int64} (h : 0 ≤ n.toInt) : parse (text n) = .ok n := by
  have hlt : n.toInt.natAbs ≤ greatest := by
    have := n.toInt_lt
    unfold greatest
    omega
  rw [text_of_nonneg h, parse_digits (text_ne_nil _) fun c hc => isDigit_text hc]
  refine ⟨_, magnitude_of_le (fun c hc => isDigit_text hc) (by simpa [value_text] using hlt), ?_⟩
  rw [Nat.mul_zero, Nat.zero_add, value_text, Int.natAbs_of_nonneg h, Int64.ofInt_toInt]

end EmbeddedLisp.Integer

namespace EmbeddedLisp.Binary64
open EmbeddedLisp.Digits

theorem parse_positional {whole part : List Char} (hne : whole ≠ [])
    (hw : ∀ c ∈ whole, isDigit c = true) (hp : ∀ c ∈ part, isDigit c = true) :
    parse (whole ++ '.' :: part) =
      .ok (ofCode false (Decimal.nearest ⟨value (whole ++ part), -part.length⟩)) := by
  have hs : split (whole ++ '.' :: part) = (whole, '.' :: part) :=
    split_run hw (by simp [Token.Stops, isDigit])
  have hnil : Token.Stops isDigit [] := by simp [Token.Stops]
  have hf : split part = (part, []) := by simpa using split_run hp hnil
  have hd : Decimal.parse? (whole ++ '.' :: part) =
      some ⟨value (whole ++ part), -part.length⟩ := by
    simp [Decimal.parse?, hs, Decimal.fraction, hf, hne, Decimal.exponent?]
  have hu : unsigned false (whole ++ '.' :: part) =
      .ok (ofCode false (Decimal.nearest ⟨value (whole ++ part), -part.length⟩)) := by
    rw [unsigned, hd]
  cases whole with
  | nil => exact absurd rfl hne
  | cons c whole =>
    obtain ⟨hplus, hminus⟩ := isDigit_not_sign (hw c (by simp))
    rw [← hu]
    unfold parse
    split <;> simp_all

theorem nearest_le (num den : Nat) : nearest num den ≤ infinite := by
  unfold nearest
  exact Nat.min_le_right _ _

theorem decimal_nearest_le (d : Decimal) : d.nearest ≤ infinite := by
  unfold Decimal.nearest
  split
  · exact Nat.zero_le _
  · split
    · split
      · exact Nat.le_refl _
      · exact nearest_le _ _
    · split
      · exact Nat.zero_le _
      · exact nearest_le _ _

theorem toNat_ofCode {code : Nat} (h : code ≤ infinite) :
    (ofCode false code).bits.toNat = code := by
  have hlt : infinite < 2 ^ 64 := by decide
  simp only [ofCode, Bool.false_eq_true, if_false]
  exact UInt64.toNat_ofNat_of_lt' (Nat.lt_of_le_of_lt h hlt)

theorem parse_positional_le {whole part : List Char} {x : Binary64} (hne : whole ≠ [])
    (hw : ∀ c ∈ whole, isDigit c = true) (hp : ∀ c ∈ part, isDigit c = true)
    (h : parse (whole ++ '.' :: part) = .ok x) : x.bits.toNat ≤ infinite := by
  rw [parse_positional hne hw hp, Except.ok.injEq] at h
  have hle := decimal_nearest_le ⟨value (whole ++ part), -part.length⟩
  rw [← h, toNat_ofCode hle]
  exact hle

theorem roundHalfEven_mul (q : Nat) {den : Nat} (h : 0 < den) :
    roundHalfEven (q * den) den = q := by
  have hd : q * den / den = q := Nat.mul_div_cancel q h
  have hm : q * den % den = 0 := Nat.mul_mod_left q den
  simp [roundHalfEven, hd, hm, h]

/-- The significand of a finite magnitude, and how far it is shifted. Below the least
normal magnitude nothing is shifted. -/
theorem units_eq (code : Nat) : ∃ m s, units code = m <<< s ∧ code = s * perBinade + m ∧
    m < 2 * perBinade ∧ (s = 0 ∨ perBinade ≤ m) := by
  have hm : code % perBinade < perBinade := Nat.mod_lt _ (by decide)
  have hc : code / perBinade * perBinade + code % perBinade = code := by
    rw [Nat.mul_comm]
    exact Nat.div_add_mod code perBinade
  refine ⟨code - (code / perBinade - 1) * perBinade, code / perBinade - 1, ?_, ?_, ?_, ?_⟩
  · rw [units]
  all_goals
    generalize code % perBinade = r at hm hc
    cases hq : code / perBinade with
    | zero => rw [hq] at hc; omega
    | succ q =>
      rw [hq, Nat.succ_mul] at hc
      rw [Nat.add_sub_cancel]
      omega

theorem nearest_exact {num den code : Nat} (hden : 0 < den) (hcode : code < infinite)
    (h : num * unitsPerOne = units code * den) : nearest num den = code := by
  obtain ⟨m, s, hu, hc, hlt, hnorm⟩ := units_eq code
  have hB : perBinade = 2 ^ 52 := by decide
  rw [Nat.shiftLeft_eq] at hu
  have hstep : (units code).log2 - 52 = s := by
    rw [hu]
    rcases hnorm with rfl | hge
    · rw [Nat.pow_zero, Nat.mul_one]
      by_cases hm : m = 0
      · subst hm
        decide
      · have : m.log2 < 53 := (Nat.log2_lt hm).2 (by omega)
        omega
    · have hm : m ≠ 0 := by
        rintro rfl
        exact absurd hge (by decide)
      have hpos : 0 < 2 ^ s := Nat.pow_pos (by decide)
      have hl : (m * 2 ^ s).log2 = 52 + s := by
        rw [Nat.log2_eq_iff (Nat.mul_ne_zero hm (by omega)), Nat.add_right_comm, Nat.pow_add,
          Nat.pow_add]
        exact ⟨Nat.mul_le_mul_right _ (by omega), Nat.mul_lt_mul_of_pos_right (by omega) hpos⟩
      omega
  have hround : roundHalfEven (num * unitsPerOne) (den <<< s) = m := by
    rw [h, hu, Nat.shiftLeft_eq, Nat.mul_assoc, Nat.mul_comm (2 ^ s)]
    exact roundHalfEven_mul m (Nat.mul_pos hden (Nat.pow_pos (by decide)))
  have hq : num * unitsPerOne / den = units code := by
    rw [h]
    exact Nat.mul_div_cancel _ hden
  unfold nearest
  simp only [hq, hstep, hround, ← hc]
  omega

end EmbeddedLisp.Binary64

namespace EmbeddedLisp.Fixed
open EmbeddedLisp.Digits

theorem trim_spec (units places : Nat) :
    (trim units places).units * tenTo (places - (trim units places).places) = units ∧
    (trim units places).places ≤ places ∧ (0 < places → 0 < (trim units places).places) := by
  fun_induction trim units places with
  | case1 units => simp [tenTo]
  | case2 units => simp [tenTo]
  | case3 units places hz ih =>
    obtain ⟨hu, hle, hpos⟩ := ih
    refine ⟨?_, by omega, fun _ => hpos (by omega)⟩
    have hp : places + 2 - (trim (units / 10) (places + 1)).places =
        places + 1 - (trim (units / 10) (places + 1)).places + 1 := by omega
    rw [hp, tenTo_succ, ← Nat.mul_assoc, hu]
    omega
  | case4 units places hz => simp [tenTo]

theorem trim_ratio (units places : Nat) :
    (trim (units * Nat.pow 5 places) places).units * (1 <<< places) =
      units * tenTo (trim (units * Nat.pow 5 places) places).places := by
  obtain ⟨hu, hle, _⟩ := trim_spec (units * Nat.pow 5 places) places
  generalize trim (units * Nat.pow 5 places) places = f at hu hle
  have hten : Nat.pow 5 places * 2 ^ places = tenTo f.places * tenTo (places - f.places) := by
    change 5 ^ places * 2 ^ places = 10 ^ f.places * 10 ^ (places - f.places)
    rw [← Nat.mul_pow, ← Nat.pow_add, Nat.add_sub_cancel' hle]
  rw [Nat.one_shiftLeft]
  apply Nat.eq_of_mul_eq_mul_right (tenTo_pos (places - f.places))
  calc f.units * 2 ^ places * tenTo (places - f.places)
      = f.units * tenTo (places - f.places) * 2 ^ places := Nat.mul_right_comm _ _ _
    _ = units * (Nat.pow 5 places * 2 ^ places) := by rw [hu, Nat.mul_assoc]
    _ = units * tenTo f.places * tenTo (places - f.places) := by rw [hten, Nat.mul_assoc]

theorem ofDecimal_places (d : Decimal) : 0 < (ofDecimal d).places := by
  unfold ofDecimal
  split
  · exact (trim_spec _ _).2.2 (by omega)
  · exact Nat.one_pos

theorem text_eq {f : Fixed} (h : 0 < f.places) : ∃ whole part, f.text = whole ++ '.' :: part ∧
    whole ≠ [] ∧ part ≠ [] ∧ (∀ c ∈ whole, isDigit c = true) ∧ (∀ c ∈ part, isDigit c = true) ∧
    value (whole ++ part) = f.units ∧ part.length = f.places := by
  have hlt : f.units % tenTo f.places < tenTo f.places := Nat.mod_lt _ (tenTo_pos _)
  refine ⟨_, _, rfl, text_ne_nil _, padded_ne_nil _ _, fun c hc => isDigit_text hc,
    fun c hc => isDigit_padded hc, ?_, length_padded h hlt⟩
  rw [value_append, length_padded h hlt, value_text, value_padded]
  exact Nat.div_add_mod f.units (tenTo f.places)

theorem parse_text {f : Fixed} (h : 0 < f.places) :
    Binary64.parse f.text = .ok (Binary64.ofCode false f.toDecimal.nearest) := by
  obtain ⟨whole, part, ht, hne, _, hw, hp, hv, hl⟩ := text_eq h
  rw [ht, Binary64.parse_positional hne hw hp, hv, hl, toDecimal]

end EmbeddedLisp.Fixed

namespace EmbeddedLisp.Binary64
open EmbeddedLisp.Digits

theorem attempt_eq_some {code coefficient : Nat} {power : Int} {f : Fixed}
    (h : attempt code coefficient power = some f) : f.toDecimal.nearest = code ∧ 0 < f.places := by
  simp only [attempt] at h
  split at h
  · next hn =>
    rw [Option.some.injEq] at h
    subst h
    exact ⟨hn, Fixed.ofDecimal_places _⟩
  · simp at h

theorem onGrid_eq_some {code : Nat} {power : Int} {f : Fixed} (h : onGrid code power = some f) :
    f.toDecimal.nearest = code ∧ 0 < f.places := by
  simp only [onGrid, Option.orElse_eq_orElse, Option.orElse_eq_or] at h
  split at h <;> rcases Option.or_eq_some_iff.1 h with h | ⟨_, h⟩ <;> exact attempt_eq_some h

theorem units_eq_zero {code : Nat} (h : units code = 0) : code = 0 := by
  obtain ⟨m, s, hu, hc, _, hnorm⟩ := units_eq code
  have hm : m = 0 := by
    rw [Nat.shiftLeft_eq] at hu
    rcases Nat.mul_eq_zero.1 (hu.symm.trans h) with hm | hs
    · exact hm
    · exact absurd hs (Nat.ne_of_gt (Nat.pow_pos (by decide)))
  subst hm
  rcases hnorm with rfl | hge
  · simpa using hc
  · exact absurd hge (by decide)

/-- The exponent is named, so that the power of two is not evaluated. -/
theorem unitsPerOne_eq : ∃ n, 1074 = n ∧ unitsPerOne = 1 <<< n := by
  obtain ⟨n, hn⟩ : ∃ n, 1074 = n := ⟨_, rfl⟩
  exact ⟨n, hn, by rw [unitsPerOne, hn]⟩

theorem exact_ratio (code : Nat) :
    (exact code).units * unitsPerOne = units code * tenTo (exact code).places := by
  obtain ⟨n, hn, hone⟩ := unitsPerOne_eq
  rw [exact, hn, hone, Fixed.trim_ratio]

theorem exact_places_pos (code : Nat) : 0 < (exact code).places := by
  rw [exact]
  exact (Fixed.trim_spec _ _).2.2 (by decide)

/-- No finite magnitude but zero is so small that its decimal would not be computed. -/
theorem exact_places_le {code : Nat} (h : units code ≠ 0) :
    (exact code).places ≤ (exact code).units.log2 + 400 := by
  obtain ⟨n, hn, hone⟩ := unitsPerOne_eq
  have hratio := exact_ratio code
  generalize exact code = f at hratio ⊢
  rw [hone, Nat.one_shiftLeft] at hratio
  have hten : tenTo f.places ≤ f.units * 2 ^ n := by
    rw [hratio]
    exact Nat.le_mul_of_pos_left _ (Nat.pos_of_ne_zero h)
  have height : 2 ^ (3 * f.places) ≤ tenTo f.places := by
    rw [Nat.pow_mul]
    exact Nat.pow_le_pow_left (by decide) _
  have hne : f.units ≠ 0 := by
    intro hz
    have hpos := tenTo_pos f.places
    rw [hz, Nat.zero_mul] at hten
    omega
  apply Nat.le_of_not_lt
  intro hfar
  have hlt : f.units < 2 ^ (f.places - 400) := (Nat.log2_lt hne).1 (by omega)
  have hprod : f.units * 2 ^ n < 2 ^ (f.places - 400 + n) := by
    rw [Nat.pow_add]
    exact Nat.mul_lt_mul_of_pos_right hlt (Nat.pow_pos (by decide))
  have hexp : 3 * f.places < f.places - 400 + n :=
    (Nat.pow_lt_pow_iff_right (by decide)).1 (Nat.lt_of_le_of_lt (Nat.le_trans height hten) hprod)
  omega

theorem decimal_nearest_fraction {coefficient places : Nat} (hz : coefficient ≠ 0)
    (hp : 0 < places) (hw : places ≤ coefficient.log2 + 400) :
    Decimal.nearest ⟨coefficient, -places⟩ = nearest coefficient (tenTo places) := by
  have hneg : ¬ (0 : Int) ≤ -places := by omega
  have hfar : ¬ (-places : Int) < -((coefficient.log2 + 400 : Nat) : Int) := by omega
  unfold Decimal.nearest
  rw [if_neg hz, if_neg hneg, if_neg hfar, Int.neg_neg, Int.toNat_natCast]

theorem nearest_of_ratio {f : Fixed} {code : Nat} (h : code < infinite) (hp : 0 < f.places)
    (hr : f.units * unitsPerOne = units code * tenTo f.places)
    (hw : units code ≠ 0 → f.places ≤ f.units.log2 + 400) : f.toDecimal.nearest = code := by
  have hten := tenTo_pos f.places
  rw [Fixed.toDecimal]
  by_cases hu : units code = 0
  · have hz : f.units = 0 := by
      obtain ⟨n, _, hone⟩ := unitsPerOne_eq
      rw [hu, Nat.zero_mul, hone, Nat.one_shiftLeft] at hr
      exact (Nat.mul_eq_zero.1 hr).resolve_right (Nat.ne_of_gt (Nat.pow_pos (by decide)))
    rw [Decimal.nearest, if_pos hz, units_eq_zero hu]
  · have hz : f.units ≠ 0 := by
      intro hz
      rw [hz, Nat.zero_mul] at hr
      exact hu ((Nat.mul_eq_zero.1 hr.symm).resolve_right (Nat.ne_of_gt hten))
    rw [decimal_nearest_fraction hz hp (hw hu)]
    exact nearest_exact hten h hr

theorem exact_nearest {code : Nat} (h : code < infinite) :
    (exact code).toDecimal.nearest = code :=
  nearest_of_ratio h (exact_places_pos code) (exact_ratio code) exact_places_le

theorem shortest_nearest {code : Nat} (h : code < infinite) :
    (shortest code).toDecimal.nearest = code ∧ 0 < (shortest code).places := by
  simp only [shortest]
  cases hs : (List.range 17).findSome? fun (n : Nat) => onGrid code (leadingPower code - n) with
  | none =>
    rw [Option.getD_none]
    exact ⟨exact_nearest h, exact_places_pos code⟩
  | some f =>
    rw [Option.getD_some]
    obtain ⟨n, _, hn⟩ := List.exists_of_findSome?_eq_some hs
    exact onGrid_eq_some hn

theorem code_of_le {x : Binary64} (h : x.bits.toNat ≤ infinite) : x.code = x.bits.toNat := by
  have hlt : infinite < signBit := by decide
  exact Nat.mod_eq_of_lt (Nat.lt_of_le_of_lt h hlt)

theorem negative_of_le {x : Binary64} (h : x.bits.toNat ≤ infinite) : x.negative = false := by
  have hlt : infinite < signBit := by decide
  simp only [negative, decide_eq_false_iff_not]
  omega

theorem isNaN_of_le {x : Binary64} (h : x.bits.toNat ≤ infinite) : x.isNaN = false := by
  simp only [isNaN, code_of_le h, decide_eq_false_iff_not]
  omega

theorem text_of_le {x : Binary64} (h : x.bits.toNat ≤ infinite) :
    x.text = if x.isFinite then (shortest x.code).text else "inf".toList := by
  simp [text, isNaN_of_le h, negative_of_le h]

theorem parse_text {x : Binary64} (h : x.bits.toNat ≤ infinite) (hf : x.isFinite = true) :
    parse x.text = .ok x := by
  have hlt : x.code < infinite := by simpa [isFinite] using hf
  obtain ⟨hn, hp⟩ := shortest_nearest hlt
  rw [text_of_le h, if_pos hf, Fixed.parse_text hp, hn, code_of_le h]
  simp [ofCode]

theorem equal_self {x : Binary64} (h : x.isNaN = false) : x.equal x = true := by
  simp [equal, h]

end EmbeddedLisp.Binary64
