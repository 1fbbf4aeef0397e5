import TitanX.Model.Price
import Mathlib.Data.List.TakeWhile

/-!
# Prices survive their conversions

Prices enter and leave the exchange as decimal text and live in it as integers, with
doubles in between. Up to `10 ^ 15` units (ten million dollars) the three roundings of
`price_to_fixed` together stay below half a unit, so a price with at most eight decimal
places is read exactly (`decimal_price_exact`), unless it is negative: the conversion to an
integer is towards zero, and `+ 0.5` does not make up for it there.

`price_to_string` prints two places. What it prints is read back as the nearest cent, so
the nearest trip is exact for whole cents and for nothing else (`price_text_round_trip`).
-/

namespace TitanX.Proof

open TitanX Binary64

/-! ## Reading a price -/

/-- The three roundings of `price_to_fixed` on a number of units. -/
theorem abs_fixed_sub_lt {n : Int} (hn : |(n : ℚ)| ≤ 10 ^ 15) :
    |nearest (nearest (nearest ((n : ℚ) / 10 ^ 8) * priceScale) + 1 / 2) - ((n : ℚ) + 1 / 2)|
      < 1 / 2 := by
  have hread : |nearest ((n : ℚ) / 10 ^ 8) - (n : ℚ) / 10 ^ 8|
      ≤ 0 + (10 ^ 7 + 0) / 2 ^ 53 + 1 / 2 ^ 101 := by
    refine abs_nearest_sub_le_of_near (by rw [sub_self, abs_zero]) ?_
    rw [abs_div, abs_of_pos (by norm_num : (0 : ℚ) < 10 ^ 8), div_le_iff₀ (by norm_num)]
    linarith
  have hscaled : |nearest ((n : ℚ) / 10 ^ 8) * priceScale - n|
      ≤ ((10 : ℚ) ^ 7 / 2 ^ 53 + 1 / 2 ^ 101) * 10 ^ 8 := by
    have heq : nearest ((n : ℚ) / 10 ^ 8) * priceScale - n
        = (nearest ((n : ℚ) / 10 ^ 8) - (n : ℚ) / 10 ^ 8) * 10 ^ 8 := by
      unfold priceScale; ring
    rw [heq, abs_mul, abs_of_pos (by norm_num : (0 : ℚ) < 10 ^ 8)]
    refine mul_le_mul_of_nonneg_right ?_ (by norm_num)
    linarith
  have hunits : |nearest (nearest ((n : ℚ) / 10 ^ 8) * priceScale) - n| ≤ 1 / 4 :=
    (abs_nearest_sub_le_of_near hscaled hn).trans (by norm_num)
  have hhalf : |nearest (nearest ((n : ℚ) / 10 ^ 8) * priceScale) + 1 / 2 - ((n : ℚ) + 1 / 2)|
      ≤ 1 / 4 := by
    rw [add_sub_add_right_eq_sub]; exact hunits
  have hmag : |(n : ℚ) + 1 / 2| ≤ 10 ^ 15 + 1 / 2 :=
    (abs_add_le _ _).trans (add_le_add hn (by norm_num))
  exact lt_of_le_of_lt (abs_nearest_sub_le_of_near hhalf hmag) (by norm_num)

theorem toInt64_of_le {x : ℚ} (h : |Binary64.truncate x| ≤ 10 ^ 15) :
    toInt64 x = Binary64.truncate x := by
  obtain ⟨hlo, hhi⟩ := abs_le.mp h
  exact if_pos ⟨by omega, by omega⟩

/-- The double nearest to a number of units is converted to that number, or above it by one
if it is negative. -/
theorem priceToFixed_nearest {n : Int} (hn : |n| ≤ 10 ^ 15) :
    priceToFixed (nearest ((n : ℚ) / 10 ^ 8)) = if n < 0 then n + 1 else n := by
  have hn' : |(n : ℚ)| ≤ 10 ^ 15 := by exact_mod_cast hn
  have herr := abs_fixed_sub_lt hn'
  have hsize := abs_le.mp hn
  unfold priceToFixed
  split
  · rename_i hneg
    have htrunc := truncate_of_neg hneg herr
    rw [toInt64_of_le (by rw [htrunc, abs_le]; omega), htrunc]
  · rename_i hneg
    have htrunc := truncate_of_nonneg (by omega) herr
    rw [toInt64_of_le (by rw [htrunc]; exact hn), htrunc]

/-- A number of units is zero, or not next to zero. -/
theorem underflows_units (n : Int) : underflows ((n : ℚ) / 10 ^ 8) = false := by
  by_cases hzero : n = 0
  · rw [hzero, Int.cast_zero, zero_div]
    exact underflows_zero
  · refine underflows_eq_false ?_
    have hone : (1 : ℚ) ≤ |(n : ℚ)| := by exact_mod_cast Int.one_le_abs hzero
    rw [abs_div, abs_of_pos (by norm_num : (0 : ℚ) < 10 ^ 8), le_div_iff₀ (by norm_num)]
    exact le_trans (by norm_num) hone

theorem stod_of_units {text : String} {n : Int}
    (hv : readNumber text = some (.finite ((n : ℚ) / 10 ^ 8))) (hn : |n| ≤ 10 ^ 15) :
    stod text = .ok (.finite (nearest ((n : ℚ) / 10 ^ 8))) := by
  have hn' : |(n : ℚ)| ≤ 10 ^ 15 := by exact_mod_cast hn
  have hvalue : |(n : ℚ) / 10 ^ 8| ≤ 10 ^ 7 := by
    rw [abs_div, abs_of_pos (by norm_num : (0 : ℚ) < 10 ^ 8), div_le_iff₀ (by norm_num)]
    linarith
  have hsmall : |nearest ((n : ℚ) / 10 ^ 8)| < 2 ^ 1024 := by
    have hround := abs_nearest_sub_le ((n : ℚ) / 10 ^ 8)
    have hmag : |nearest ((n : ℚ) / 10 ^ 8)| < 2 ^ 100 := by
      calc |nearest ((n : ℚ) / 10 ^ 8)|
          = |(nearest ((n : ℚ) / 10 ^ 8) - (n : ℚ) / 10 ^ 8) + (n : ℚ) / 10 ^ 8| := by
            rw [sub_add_cancel]
        _ ≤ |nearest ((n : ℚ) / 10 ^ 8) - (n : ℚ) / 10 ^ 8| + |(n : ℚ) / 10 ^ 8| := abs_add_le _ _
        _ ≤ (10 ^ 7 / 2 ^ 53 + 1 / 2 ^ 101) + 10 ^ 7 := by
            refine add_le_add (hround.trans ?_) hvalue
            exact add_le_add_left (div_le_div_of_nonneg_right hvalue (by norm_num)) _
        _ < 2 ^ 100 := by norm_num
    exact hmag.trans (pow_lt_pow_right₀ (by norm_num) (by norm_num))
  have hover : overflows ((n : ℚ) / 10 ^ 8) = false := decide_eq_false (not_le.mpr hsmall)
  unfold stod
  rw [hv]
  dsimp only
  rw [hover, underflows_units]
  rfl

/--
**A price is read exactly.** A text that denotes a number of units (so a decimal one with at most
eight places that count) up to `10 ^ 15` is converted to that number, however it is spelt, and to
one unit above it if it is negative.
-/
theorem decimal_price_exact (text : String) (n : Int)
    (hv : readNumber text = some (.finite ((n : ℚ) / 10 ^ 8))) (hn : |n| ≤ 10 ^ 15) :
    priceToFixedOfString text = .ok (if n < 0 then n + 1 else n) := by
  unfold priceToFixedOfString
  rw [stod_of_units hv hn]
  exact congrArg Except.ok (priceToFixed_nearest hn)

theorem decimal_price_exact_negative :
    readNumber "-1.50" = some (.finite (((-150000000 : Int) : ℚ) / 10 ^ 8))
      ∧ priceToFixedOfString "-1.50" = .ok (-149999999) :=
  have hv : readNumber "-1.50" = some (.finite (((-150000000 : Int) : ℚ) / 10 ^ 8)) := by
    decide +kernel
  ⟨hv, decimal_price_exact "-1.50" (-150000000) hv (by decide)⟩

/-- Sixteen in hexadecimal, and texts that are no price. -/
example : priceToFixedOfString "0x10" = .ok 1600000000 := by decide +kernel

example : ["price", "1e400", "1e-400"].map priceToFixedOfString
    = [.error "stod", .error "stod", .error "stod"] := by decide +kernel

/-! ## Reading what was printed -/

theorem toLower_digit {c : Char} (hc : c.isDigit = true) : c.toLower = c := by
  have hhi : c.toNat ≤ 57 := (Char.isDigit_iff_toNat.mp hc).2
  refine dif_neg (fun hupper => ?_)
  have hlo : 65 ≤ c.toNat := UInt32.le_iff_toNat_le.mp hupper.1
  omega

/-- A digit is neither a space nor a sign, -/
theorem digit_begins {c : Char} (hc : c.isDigit = true) (cs : List Char) :
    (c :: cs).dropWhile isSpace = c :: cs ∧ takeSign (c :: cs) = (false, c :: cs) := by
  have hlo : 48 ≤ c.toNat := (Char.isDigit_iff_toNat.mp hc).1
  have hspace : isSpace c = false := by
    unfold isSpace
    have hne : c ≠ ' ' := by rintro rfl; exact absurd hc (by decide)
    simp only [hne, decide_false, Bool.false_or, Bool.and_eq_false_imp, decide_eq_true_eq,
      decide_eq_false_iff_not]
    omega
  refine ⟨List.dropWhile_cons_of_neg (by rw [hspace]; decide), ?_⟩
  unfold takeSign
  split
  · rename_i heq
    obtain ⟨rfl, -⟩ := List.cons.inj heq
    exact absurd hc (by decide)
  · rename_i heq
    obtain ⟨rfl, -⟩ := List.cons.inj heq
    exact absurd hc (by decide)
  · rfl

/-- nor does it begin a word. -/
theorem digit_not_word {c : Char} (hc : c.isDigit = true) (cs : List Char) :
    ((c :: cs).take 3).map Char.toLower ≠ ['i', 'n', 'f']
      ∧ ((c :: cs).take 3).map Char.toLower ≠ ['n', 'a', 'n'] := by
  rw [List.take_succ_cons, List.map_cons, toLower_digit hc]
  constructor
  · intro heq
    obtain ⟨rfl, -⟩ := List.cons.inj heq
    exact absurd hc (by decide)
  · intro heq
    obtain ⟨rfl, -⟩ := List.cons.inj heq
    exact absurd hc (by decide)

section Point

variable {whole fraction : List Char} (hne : whole ≠ []) (hw : ∀ c ∈ whole, c.isDigit = true)
  (hf : ∀ c ∈ fraction, c.isDigit = true)

include hne hw hf

theorem read_point :
    decimal10.read (whole ++ '.' :: fraction)
      = some ((Nat.ofDigitChars 10 (whole ++ fraction) 0 : ℚ) / 10 ^ fraction.length) := by
  have hspan : (whole ++ '.' :: fraction).span Char.isDigit = (whole, '.' :: fraction) := by
    rw [List.span_eq_takeWhile_dropWhile, List.takeWhile_append_of_pos hw,
      List.dropWhile_append_of_pos hw, List.takeWhile_cons_of_neg (by decide),
      List.dropWhile_cons_of_neg (by decide), List.append_nil]
  have hfraction : takeFraction Char.isDigit ('.' :: fraction) = (fraction, []) := by
    show fraction.span Char.isDigit = _
    rw [List.span_eq_takeWhile_dropWhile, List.takeWhile_eq_self_iff.mpr hf,
      List.dropWhile_eq_nil_iff.mpr hf]
  unfold Radix.read decimal10
  dsimp only
  rw [hspan]
  dsimp only
  rw [hfraction]
  dsimp only
  rw [if_neg (fun hnil => hne (List.append_eq_nil_iff.mp hnil).1)]
  simp [readExponent]

omit hf in
/-- No second character of such a text makes it hexadecimal. -/
theorem readMagnitude_point :
    readMagnitude (whole ++ '.' :: fraction) = decimal10.read (whole ++ '.' :: fraction) := by
  obtain ⟨c, cs, rfl⟩ := List.exists_cons_of_ne_nil hne
  cases cs with
  | nil => exact if_neg (by simp)
  | cons x cs =>
      have hx : x.isDigit = true := hw x (List.mem_cons_of_mem _ (List.mem_cons_self ..))
      have hlower : x.toLower ≠ 'x' := by
        rw [toLower_digit hx]
        rintro rfl
        exact absurd hx (by decide)
      exact if_neg (by simp [hlower])

/-- Text of the form `12.34`. -/
theorem readNumber_point :
    readNumber (String.ofList (whole ++ '.' :: fraction))
      = some (.finite ((Nat.ofDigitChars 10 (whole ++ fraction) 0 : ℚ) / 10 ^ fraction.length)) := by
  have hmagnitude := (readMagnitude_point hne hw).trans (read_point hne hw hf)
  obtain ⟨c, cs, rfl⟩ := List.exists_cons_of_ne_nil hne
  have hc : c.isDigit = true := hw c (List.mem_cons_self ..)
  obtain ⟨hspace, hsign⟩ := digit_begins hc (cs ++ '.' :: fraction)
  obtain ⟨hinf, hnan⟩ := digit_not_word hc (cs ++ '.' :: fraction)
  unfold readNumber
  rw [String.toList_ofList, List.cons_append, hspace, hsign]
  dsimp only
  rw [if_neg hinf, if_neg hnan, ← List.cons_append, hmagnitude]
  rfl

end Point

theorem hundredths_eq (c : Nat) :
    hundredths c = String.ofList (Nat.toDigits 10 (c / 100)
      ++ '.' :: [Nat.digitChar (c / 10 % 10), Nat.digitChar (c % 10)]) := by
  unfold hundredths
  rw [Nat.toString_eq_ofList_toDigits]
  rw [← String.toList_inj]
  simp

theorem readNumber_hundredths (c : Nat) :
    readNumber (hundredths c) = some (.finite ((c : ℚ) / 100)) := by
  have h₁ : c / 10 % 10 < 10 := Nat.mod_lt _ (by norm_num)
  have h₂ : c % 10 < 10 := Nat.mod_lt _ (by norm_num)
  rw [hundredths_eq, readNumber_point Nat.toDigits_ne_nil
    (fun d hd => Nat.isDigit_of_mem_toDigits (by norm_num) (le_refl 10) hd)]
  · have hdigits : Nat.ofDigitChars 10 (Nat.toDigits 10 (c / 100)
        ++ [Nat.digitChar (c / 10 % 10), Nat.digitChar (c % 10)]) 0 = c := by
      rw [Nat.ofDigitChars_append, Nat.ofDigitChars_ten_toDigits,
        Nat.ofDigitChars_cons_digitChar_of_lt_ten h₁, Nat.ofDigitChars_cons_digitChar_of_lt_ten h₂,
        Nat.ofDigitChars_nil]
      omega
    rw [hdigits]
    norm_num
  · intro d hd
    rcases List.mem_cons.mp hd with rfl | hd
    · exact Nat.isDigit_digitChar.trans (decide_eq_true h₁)
    · rw [List.mem_singleton.mp hd]; exact Nat.isDigit_digitChar.trans (decide_eq_true h₂)

/-! ## The round trip -/

/-- What is printed of a price is its nearest cent. -/
theorem priceToString_cents {p : Int} (h₀ : 0 ≤ p) (hp : p ≤ 10 ^ 15) :
    ∃ c : Nat, priceToString p = hundredths c ∧ |(c : ℚ) * 10 ^ 6 - p| ≤ 500001 := by
  have h₀' : (0 : ℚ) ≤ p := by exact_mod_cast h₀
  have hp' : |(p : ℚ)| ≤ 10 ^ 15 := by rw [abs_of_nonneg h₀']; exact_mod_cast hp
  have hcast : |nearest (p : ℚ) - p| ≤ 1 / 8 :=
    (abs_nearest_sub_le_of_near (by rw [sub_self, abs_zero]) hp').trans (by norm_num)
  have hprice : |fixedToPrice p - (p : ℚ) / 10 ^ 8| ≤ 1 / 10 ^ 8 := by
    refine (abs_nearest_sub_le_of_near (t := (p : ℚ) / 10 ^ 8) (ε := 1 / 8 / 10 ^ 8)
      (M := 10 ^ 7) ?_ ?_).trans (by norm_num)
    · have heq : nearest (p : ℚ) / priceScale - (p : ℚ) / 10 ^ 8
          = (nearest (p : ℚ) - p) / 10 ^ 8 := by unfold priceScale; ring
      rw [heq, abs_div, abs_of_pos (by norm_num : (0 : ℚ) < 10 ^ 8)]
      exact div_le_div_of_nonneg_right hcast (by norm_num)
    · rw [abs_div, abs_of_pos (by norm_num : (0 : ℚ) < 10 ^ 8), div_le_iff₀ (by norm_num)]
      linarith
  have hnonneg : 0 ≤ fixedToPrice p :=
    nearest_nonneg (div_nonneg (nearest_nonneg h₀') (by norm_num [priceScale]))
  have hround := abs_roundEven_sub_le (|fixedToPrice p| * 100)
  rw [abs_of_nonneg hnonneg] at hround
  have hcents : 0 ≤ roundEven (fixedToPrice p * 100) := by
    have hlo := (abs_le.mp hround).1
    have : (-1 : ℚ) < roundEven (fixedToPrice p * 100) := by linarith
    have : (-1 : ℤ) < roundEven (fixedToPrice p * 100) := by exact_mod_cast this
    omega
  refine ⟨(roundEven (fixedToPrice p * 100)).toNat, ?_, ?_⟩
  · unfold priceToString formatTwoPlaces
    rw [if_neg (not_lt.mpr hnonneg), abs_of_nonneg hnonneg]
    exact String.empty_append
  · have hc : (((roundEven (fixedToPrice p * 100)).toNat : ℕ) : ℚ)
        = (roundEven (fixedToPrice p * 100) : ℚ) := by
      exact_mod_cast Int.toNat_of_nonneg hcents
    rw [hc]
    obtain ⟨h₁, h₂⟩ := abs_le.mp hround
    obtain ⟨h₃, h₄⟩ := abs_le.mp hprice
    rw [abs_le]
    constructor <;> linarith

/--
**The round trip of a price through text**, up to `10 ^ 15` units: what `price_to_string`
prints is read back as a whole number of cents, half a cent away at most, and as the same
price exactly if that was a whole number of cents.
-/
theorem price_text_round_trip (p : Int) (h₀ : 0 ≤ p) (hp : p ≤ 10 ^ 15) :
    ∃ q, priceToFixedOfString (priceToString p) = .ok q ∧ 10 ^ 6 ∣ q ∧ |q - p| ≤ 500001
      ∧ (q = p ↔ 10 ^ 6 ∣ p) := by
  obtain ⟨c, htext, hnear⟩ := priceToString_cents h₀ hp
  have hnear' : |(c : Int) * 10 ^ 6 - p| ≤ 500001 := by exact_mod_cast hnear
  obtain ⟨hlo, hhi⟩ := abs_le.mp hnear'
  have hvalue : readNumber (hundredths c)
      = some (.finite ((((c : Int) * 10 ^ 6 : Int) : ℚ) / 10 ^ 8)) := by
    rw [readNumber_hundredths]
    push_cast
    congr 2
    ring
  have hsize : |(c : Int) * 10 ^ 6| ≤ 10 ^ 15 := by
    rw [abs_of_nonneg (by positivity)]
    -- a whole number of cents, and not half a cent above the bound
    omega
  refine ⟨(c : Int) * 10 ^ 6, ?_, Dvd.intro_left _ rfl, hnear', fun heq => ?_, fun hdvd => ?_⟩
  · unfold priceToFixedOfString
    rw [htext, stod_of_units hvalue hsize]
    refine congrArg Except.ok ?_
    rw [Number.toFixed, priceToFixed_nearest hsize, if_neg (not_lt.mpr (by positivity))]
  · rw [← heq]; exact Dvd.intro_left _ rfl
  · obtain ⟨k, rfl⟩ := hdvd
    omega

theorem price_text_round_trip_cents :
    (10 : Int) ^ 6 ∣ 15025000000
      ∧ priceToFixedOfString (priceToString 15025000000) = .ok 15025000000 := by
  have hdvd : (10 : Int) ^ 6 ∣ 15025000000 := by decide
  obtain ⟨q, hq, -, -, hiff⟩ := price_text_round_trip 15025000000 (by decide) (by decide)
  exact ⟨hdvd, by rw [hq, hiff.mpr hdvd]⟩

end TitanX.Proof
