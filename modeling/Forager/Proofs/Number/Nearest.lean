import Forager.Proofs.Number.Packing
import Forager.Number.Read

/-!
# The double nearest to a decimal

* `div_eq`, `mul_eq` : quotients and products of doubles are rounded once;
* `ofScientific_eq` : a decimal is read as the double in whose interval it lies;
* `ofDecimal_eq` : so it is when numbers of absurd magnitude are cut off first.
-/

namespace Forager.Number

set_option autoImplicit false

open Float.Model Float.Model.UnpackedFloat

/-! ## Quotients and products -/

theorem describes_exact (n : Nat) : Describes (.ofMantissaAndAccuracy n .exact) n := rfl

/-- The quotient and the remainder describe the fraction. -/
theorem describes_fraction {num den : Nat} (hden : 0 < den) :
    Describes (.ofMantissaAndAccuracy (num / den) (accuracyOfFraction (num % den) den)) ((num : ℚ) / den) := by
  have hpos : (0 : ℚ) < den := by exact_mod_cast hden
  have hsplit : (num : ℚ) / den = (num / den : Nat) + (num % den : Nat) / den := by
    rw [eq_comm, ← eq_sub_iff_add_eq', ← sub_eq_zero]
    field_simp
    have : (num : ℚ) = den * (num / den : Nat) + (num % den : Nat) := by exact_mod_cast (Nat.div_add_mod num den).symm
    linarith
  have hlt : ((num % den : Nat) : ℚ) < den := by exact_mod_cast Nat.mod_lt num hden
  rw [hsplit]
  generalize num / den = a at *
  generalize num % den = r at *
  unfold accuracyOfFraction
  split
  · rename_i hzero
    subst hzero
    simp [Describes, ExtendedMantissa.ofMantissaAndAccuracy]
  · rename_i hr
    have hrpos : (0 : ℚ) < r := by exact_mod_cast Nat.pos_of_ne_zero hr
    have hfrac : (0 : ℚ) < r / den := div_pos hrpos hpos
    have hone : (r : ℚ) / den < 1 := (div_lt_one hpos).mpr hlt
    rcases Nat.lt_trichotomy (2 * r) den with h | h | h
    · have hhalf : (r : ℚ) / den < 1 / 2 := by
        rw [div_lt_div_iff₀ hpos (by norm_num)]
        have : (2 : ℚ) * r < den := by exact_mod_cast h
        linarith
      rw [Nat.compare_eq_lt.mpr h]
      exact ⟨lt_add_of_pos_right _ hfrac, add_lt_add_right hhalf _⟩
    · have hhalf : (r : ℚ) / den = 1 / 2 := by
        rw [div_eq_div_iff hpos.ne' (by norm_num)]
        have : (2 : ℚ) * r = den := by exact_mod_cast h
        linarith
      rw [Nat.compare_eq_eq.mpr h, hhalf]
      rfl
    · have hhalf : 1 / 2 < (r : ℚ) / den := by
        rw [div_lt_div_iff₀ (by norm_num) hpos]
        have : (den : ℚ) < 2 * r := by exact_mod_cast h
        linarith
      rw [Nat.compare_eq_gt.mpr h]
      exact ⟨add_lt_add_right hhalf _, add_lt_add_right hone _⟩

/-- The shift of a division leaves enough bits in the quotient. -/
theorem quotient_bits {m₁ m₂ k : Nat} (h₁ : 0 < m₁) (h₂ : 0 < m₂) (hk : m₂.log2 + 53 ≤ m₁.log2 + k) :
    52 ≤ (m₁ <<< k / m₂).log2 := by
  have hmany : 2 ^ 52 ≤ m₁ <<< k / m₂ := by
    rw [Nat.le_div_iff_mul_le h₂, Nat.shiftLeft_eq]
    calc 2 ^ 52 * m₂ ≤ 2 ^ 52 * 2 ^ (m₂.log2 + 1) := Nat.mul_le_mul_left _ Nat.lt_log2_self.le
      _ = 2 ^ (m₂.log2 + 53) := by rw [← Nat.pow_add]; congr 1; omega
      _ ≤ 2 ^ (m₁.log2 + k) := Nat.pow_le_pow_right (by decide) hk
      _ = 2 ^ m₁.log2 * 2 ^ k := Nat.pow_add ..
      _ ≤ m₁ * 2 ^ k := Nat.mul_le_mul_right _ (Nat.log2_self_le (by omega))
  exact (Nat.le_log2 (by omega)).mpr hmany

/-- **Division** of finite doubles rounds the exact quotient. -/
theorem div_eq {m₁ m₂ m : Nat} {e₁ e₂ q : Int} (h₁ : 0 < m₁) (h₂ : 0 < m₂) (s₁ s₂ : Sign) (hc : Canonical m q)
    (hv : RoundsTo m q (m₁ * 2 ^ e₁ / (m₂ * 2 ^ e₂))) :
    UnpackedFloat.div .binary64 (.finite s₁ m₁ e₁ h₁) (.finite s₂ m₂ e₂ h₂) = .finite (s₁ / s₂) m q hc.pos := by
  simp only [UnpackedFloat.div, divCore]
  generalize ht : min (e₁ - e₂) (Format.binary64.targetExponent (totalExponent m₁ e₁ - totalExponent m₂ e₂)) = t
  have hle : t ≤ e₁ - e₂ := by omega
  generalize hk : (e₁ - e₂ - t).toNat = k
  have hsum : e₁ = t + e₂ + k := by omega
  refine roundWithAccuracy_eq (v := m₁ * 2 ^ e₁ / (m₂ * 2 ^ e₂)) (s₁ / s₂) ?_ ?_ hc hv
  · have hvalue : (m₁ : ℚ) * 2 ^ e₁ / (m₂ * 2 ^ e₂) / 2 ^ t = (m₁ <<< k : Nat) / m₂ := by
      have hpow : (2 : ℚ) ^ e₁ = 2 ^ k * (2 ^ t * 2 ^ e₂) := by
        rw [hsum, two_zpow_add_nat, zpow_add₀ (by norm_num)]
      have := two_zpow_pos e₂
      have := two_zpow_pos t
      have : (0 : ℚ) < m₂ := by exact_mod_cast h₂
      rw [hpow, Nat.shiftLeft_eq]
      push_cast
      field_simp
    rw [hvalue]
    exact describes_fraction h₂
  · by_cases hleast : t ≤ -1074
    · exact Or.inr hleast
    · refine Or.inl (quotient_bits h₁ h₂ ?_)
      simp only [Format.targetExponent, totalExponent, Format.mantissaBits, Format.minExponent] at ht
      omega

/-- **Multiplication** of finite doubles rounds the exact product. -/
theorem mul_eq {m₁ m₂ m : Nat} {e₁ e₂ q : Int} (h₁ : 0 < m₁) (h₂ : 0 < m₂) (s₁ s₂ : Sign)
    (hbits : 2 ^ 52 ≤ m₁) (hc : Canonical m q) (hv : RoundsTo m q (m₁ * 2 ^ e₁ * (m₂ * 2 ^ e₂))) :
    UnpackedFloat.mul .binary64 (.finite s₁ m₁ e₁ h₁) (.finite s₂ m₂ e₂ h₂) = .finite (s₁ * s₂) m q hc.pos := by
  have hprod : 2 ^ 52 ≤ m₁ * m₂ := hbits.trans (Nat.le_mul_of_pos_right m₁ h₂)
  refine roundWithAccuracy_eq (v := m₁ * 2 ^ e₁ * (m₂ * 2 ^ e₂)) (s₁ * s₂) ?_ ?_ hc hv
  · have hvalue : (m₁ : ℚ) * 2 ^ e₁ * (m₂ * 2 ^ e₂) / 2 ^ (e₁ + e₂) = (m₁ * m₂ : Nat) := by
      have := two_zpow_pos e₁
      have := two_zpow_pos e₂
      rw [zpow_add₀ (by norm_num)]
      push_cast
      field_simp
    rw [hvalue]
    exact describes_exact _
  · exact Or.inl ((Nat.le_log2 (by omega)).mpr hprod)

/-! ## Decimals -/

theorem lt_ends (m : Nat) (q : Int) : lowEnd m q < m * 2 ^ q ∧ (m : ℚ) * 2 ^ q < highEnd m q := by
  have hq := two_zpow_pos q
  refine ⟨mul_lt_mul_of_pos_right ?_ hq, mul_lt_mul_of_pos_right (by linarith) hq⟩
  split <;> linarith

/-- A value strictly between the ends rounds to the double. -/
theorem RoundsTo.of_mem {m : Nat} {q : Int} {v : ℚ} (hlow : lowEnd m q < v) (hhigh : v < highEnd m q) :
    RoundsTo m q v :=
  ⟨hlow.le, hhigh.le, fun _ => ⟨hlow, hhigh⟩⟩

theorem RoundsTo.self {m : Nat} {q : Int} : RoundsTo m q (m * 2 ^ q) := .of_mem (lt_ends m q).1 (lt_ends m q).2

/-- Values that round to doubles are not absurdly small or great. -/
theorem RoundsTo.bounds {m : Nat} {q : Int} {v : ℚ} (hv : RoundsTo m q v) (hc : Canonical m q) :
    2 ^ (-1075 : Int) ≤ v ∧ v < 2 ^ (1024 : Int) := by
  constructor
  · refine le_trans ?_ ((lowEnd_ge m q).trans hv.low)
    have hm : (1 : ℚ) ≤ m := by exact_mod_cast hc.pos
    calc (2 : ℚ) ^ (-1075 : Int) = 2 ^ (-1 : Int) * 2 ^ (-1074 : Int) := zpow_add₀ (by norm_num) (-1) (-1074)
      _ = 1 / 2 * 2 ^ (-1074 : Int) := by rw [zpow_neg_one, one_div]
      _ ≤ 1 / 2 * 2 ^ q := mul_le_mul_of_nonneg_left (two_zpow_le hc.least) (by norm_num)
      _ ≤ (m - 1 / 2) * 2 ^ q := mul_le_mul_of_nonneg_right (by linarith) (two_zpow_pos q).le
  · exact (hv.high.trans_lt hc.highEnd_lt).trans_le (two_zpow_le (by have := hc.greatest; omega))

theorem ten_zpow_pos (e : Int) : (0 : ℚ) < 10 ^ e := zpow_pos (by norm_num) e

theorem two_zpow_le_ten_zpow {e : Int} (h : 0 ≤ e) : (2 : ℚ) ^ e ≤ 10 ^ e :=
  zpow_le_zpow_left₀ h (by norm_num) (by norm_num)

theorem ten_zpow_le_two_zpow {e : Int} (h : e ≤ 0) : (10 : ℚ) ^ e ≤ 2 ^ e := by
  have := two_zpow_le_ten_zpow (e := -e) (by omega)
  rw [zpow_neg, zpow_neg] at this
  exact (inv_le_inv₀ (two_zpow_pos e) (ten_zpow_pos e)).mp this

/-- A decimal that rounds to a double has no absurd exponent. -/
theorem exponent_bounds {n : Nat} {e : Int} (hn : 0 < n) (hlow : (2 : ℚ) ^ (-1075 : Int) ≤ n * 10 ^ e)
    (hhigh : (n : ℚ) * 10 ^ e < 2 ^ (1024 : Int)) : e < 1024 ∧ -(1076 + n.log2 : Int) < e := by
  have hone : (1 : ℚ) ≤ n := by exact_mod_cast hn
  constructor
  · by_contra hlarge
    have hpow : (2 : ℚ) ^ (1024 : Int) ≤ n * 10 ^ e :=
      calc (2 : ℚ) ^ (1024 : Int) ≤ 2 ^ e := two_zpow_le (by omega)
        _ ≤ 10 ^ e := two_zpow_le_ten_zpow (by omega)
        _ ≤ n * 10 ^ e := le_mul_of_one_le_left (ten_zpow_pos e).le hone
    linarith
  · by_contra hsmall
    have hlog : (n : ℚ) < 2 ^ (n.log2 + 1) := by exact_mod_cast Nat.lt_log2_self
    have hpow : (n : ℚ) * 10 ^ e < 2 ^ (-1075 : Int) :=
      calc (n : ℚ) * 10 ^ e < 2 ^ (n.log2 + 1) * 10 ^ e := mul_lt_mul_of_pos_right hlog (ten_zpow_pos e)
        _ ≤ 2 ^ (n.log2 + 1) * 2 ^ e := mul_le_mul_of_nonneg_left (ten_zpow_le_two_zpow (by omega)) (by positivity)
        _ = 2 ^ (e + (n.log2 + 1 : Nat)) := (two_zpow_add_nat e _).symm
        _ ≤ 2 ^ (-1075 : Int) := two_zpow_le (by push_cast; omega)
    linarith

theorem unpacked_ofScientific_eq {n m : Nat} {e q : Int} (hn : 0 < n) (hc : Canonical m q)
    (hv : RoundsTo m q (n * 10 ^ e)) :
    UnpackedFloat.ofScientific .binary64 n e = .finite .positive m q hc.pos := by
  obtain ⟨hlow, hhigh⟩ := hv.bounds hc
  obtain ⟨hmost, hleast⟩ := exponent_bounds hn hlow hhigh
  have hguard : (2 : Int) ^ Format.binary64.exponentBits = 2048 := rfl
  unfold UnpackedFloat.ofScientific
  -- Neither of the shortcuts for absurd exponents is taken.
  rw [dif_neg (by omega), if_neg (by omega), if_neg (by omega)]
  split
  · rename_i hnonneg
    obtain ⟨k, rfl⟩ := Int.eq_ofNat_of_zero_le hnonneg
    refine mul_eq _ _ _ _ ?_ hc ?_
    · rw [Nat.shiftLeft_eq]
      exact (show 2 ^ 52 ≤ 2 ^ Format.binary64.mantissaBits by decide).trans (Nat.le_mul_of_pos_left _ hn)
    · have hvalue : ((n <<< Format.binary64.mantissaBits : Nat) : ℚ) * 2 ^ (-(Format.binary64.mantissaBits : Int)) *
          ((10 ^ (k : Int).toNat : Nat) * 2 ^ (0 : Int)) = n * 10 ^ (k : Int) := by
        rw [Nat.shiftLeft_eq, Int.toNat_natCast, zpow_neg, zpow_natCast, zpow_natCast, zpow_zero]
        push_cast
        field_simp
      rw [hvalue]
      exact hv
  · rename_i hneg
    obtain ⟨k, rfl⟩ : ∃ k : Nat, e = -(k : Int) := ⟨(-e).toNat, by omega⟩
    refine div_eq _ _ _ _ hc ?_
    have hvalue : (n : ℚ) * 2 ^ (0 : Int) / ((10 ^ (-(-(k : Int))).toNat : Nat) * 2 ^ (0 : Int)) =
        n * 10 ^ (-(k : Int)) := by
      rw [neg_neg, Int.toNat_natCast, zpow_neg, zpow_natCast, zpow_zero]
      push_cast
      field_simp
    rw [hvalue]
    exact hv

/-! ## Small decimals -/

/-- A natural number of at most 53 bits is a double. -/
theorem toFloat_eq {n : Nat} (hn : 0 < n) (hlt : n < 2 ^ 53) :
    ∃ (m : Nat) (q : Int) (hc : Canonical m q),
      n.toUInt64.toFloat = double false m q hc.pos ∧ 2 ^ 52 ≤ m ∧ (m : ℚ) * 2 ^ q = n := by
  have hlog : n.log2 < 53 := (Nat.log2_lt (by omega)).mpr hlt
  obtain ⟨k, hk⟩ : ∃ k, n.log2 + k = 52 := ⟨52 - n.log2, by omega⟩
  have hbig : 2 ^ 52 ≤ n <<< k := by
    rw [Nat.shiftLeft_eq, ← hk, Nat.pow_add]
    exact Nat.mul_le_mul_right _ (Nat.log2_self_le (by omega))
  have hsmall : n <<< k < 2 ^ 53 := by
    rw [Nat.shiftLeft_eq, show 53 = n.log2 + 1 + k by omega, Nat.pow_add]
    exact Nat.mul_lt_mul_of_pos_right Nat.lt_log2_self (Nat.two_pow_pos _)
  have hc : Canonical (n <<< k) (-k) := ⟨by omega, hsmall, by omega, by omega, Or.inl hbig⟩
  have hvalue : ((n <<< k : Nat) : ℚ) * 2 ^ (-(k : Int)) = n := by
    rw [Nat.shiftLeft_eq, zpow_neg, zpow_natCast]
    push_cast
    field_simp
  refine ⟨_, _, hc, ?_, hbig, hvalue⟩
  have hround : UnpackedFloat.round .binary64 .positive n 0 = .finite .positive (n <<< k) (-k) hc.pos := by
    have hdecrease : decreaseExponent n 0 (Format.binary64.targetExponent (totalExponent n 0)) =
        (n <<< k, -(k : Int)) := by
      have hshift : (0 - max ((n.log2 : Int) + 0 - 52) (-1074)).toNat = k := by omega
      simp only [decreaseExponent, target_eq, hshift, Prod.mk.injEq, true_and]
      omega
    simp only [UnpackedFloat.round, hdecrease]
    refine roundWithAccuracy_eq .positive ?_ (Or.inl ((Nat.le_log2 (by omega)).mpr hbig)) hc .self
    rw [mul_div_assoc, div_self (two_zpow_pos _).ne', mul_one]
    exact describes_exact _
  have hnat : n.toUInt64.toNat = n := Nat.mod_eq_of_lt (by omega)
  have hcompare : compare (n : Int) 0 = .gt := by
    rw [compare_gt_iff_gt]
    omega
  have hmodel : UnpackedFloat.ofUInt64 .binary64 n.toUInt64 = .finite .positive (n <<< k) (-k) hc.pos := by
    unfold UnpackedFloat.ofUInt64 UnpackedFloat.ofNat UnpackedFloat.ofInt UnpackedFloat.normalize
    rw [hnat, hcompare]
    exact hround
  change Float.ofModel (Float.Model.pack (UnpackedFloat.ofUInt64 .binary64 n.toUInt64)) = _
  rw [hmodel]
  rfl

/-- Whether a shape is that of the number `n`. -/
def isNatural (n : Nat) : Shape → Bool
  | .finite false m q => m ≠ 0 && if 0 ≤ q then m * 2 ^ q.toNat = n else m = n * 2 ^ (-q).toNat
  | _ => false

theorem eq_double_of_isNatural {x : Float} {n : Nat} (h : isNatural n (shape x) = true) :
    ∃ (m : Nat) (q : Int) (hc : Canonical m q), x = double false m q hc.pos ∧ (m : ℚ) * 2 ^ q = n := by
  match hx : shape x with
  | .nan => simp [hx, isNatural] at h
  | .infinite _ => simp [hx, isNatural] at h
  | .finite true _ _ => simp [hx, isNatural] at h
  | .finite false m q =>
    simp only [hx, isNatural, Bool.and_eq_true, decide_eq_true_eq] at h
    obtain ⟨hm, hvalue⟩ := h
    obtain ⟨hc, hdouble⟩ := eq_double_of_shape hx hm
    refine ⟨m, q, hc, hdouble, ?_⟩
    split at hvalue
    · rename_i hq
      obtain ⟨k, rfl⟩ := Int.eq_ofNat_of_zero_le hq
      simp only [Int.toNat_natCast, decide_eq_true_eq] at hvalue
      rw [← hvalue, zpow_natCast]
      push_cast
      rfl
    · rename_i hq
      obtain ⟨k, rfl⟩ : ∃ k : Nat, q = -(k : Int) := ⟨(-q).toNat, by omega⟩
      simp only [neg_neg, Int.toNat_natCast, decide_eq_true_eq] at hvalue
      rw [hvalue, zpow_neg, zpow_natCast]
      push_cast
      field_simp

theorem power_isNatural : ∀ i : Fin Float.exactlyRepresentablePowersOfTen.size,
    isNatural (10 ^ i.val) (shape Float.exactlyRepresentablePowersOfTen[i.val]) = true := by
  decide +kernel

theorem double_div {m₁ m₂ m : Nat} {q₁ q₂ q : Int} (h₁ : Canonical m₁ q₁) (h₂ : Canonical m₂ q₂) (hc : Canonical m q)
    (hv : RoundsTo m q (m₁ * 2 ^ q₁ / (m₂ * 2 ^ q₂))) :
    double false m₁ q₁ h₁.pos / double false m₂ q₂ h₂.pos = double false m q hc.pos := by
  have hdiv : double false m₁ q₁ h₁.pos / double false m₂ q₂ h₂.pos = .ofModel (.pack (UnpackedFloat.div .binary64
      (double false m₁ q₁ h₁.pos).toModel.unpack (double false m₂ q₂ h₂.pos).toModel.unpack)) := rfl
  rw [hdiv, double, double, unpack_pack h₁, unpack_pack h₂, div_eq h₁.pos h₂.pos _ _ hc hv]
  rfl

theorem double_mul {m₁ m₂ m : Nat} {q₁ q₂ q : Int} (h₁ : Canonical m₁ q₁) (h₂ : Canonical m₂ q₂) (hc : Canonical m q)
    (hbits : 2 ^ 52 ≤ m₁) (hv : RoundsTo m q (m₁ * 2 ^ q₁ * (m₂ * 2 ^ q₂))) :
    double false m₁ q₁ h₁.pos * double false m₂ q₂ h₂.pos = double false m q hc.pos := by
  have hmul : double false m₁ q₁ h₁.pos * double false m₂ q₂ h₂.pos = .ofModel (.pack (UnpackedFloat.mul .binary64
      (double false m₁ q₁ h₁.pos).toModel.unpack (double false m₂ q₂ h₂.pos).toModel.unpack)) := rfl
  rw [hmul, double, double, unpack_pack h₁, unpack_pack h₂, mul_eq h₁.pos h₂.pos _ _ hbits hc hv]
  rfl

/-- **Decimals are read as the nearest double.** -/
theorem ofScientific_eq {n e m : Nat} {q : Int} {negative : Bool} (hn : 0 < n) (hc : Canonical m q)
    (hv : RoundsTo m q (n * 10 ^ (if negative then -(e : Int) else e))) :
    Float.ofScientific n negative e = double false m q hc.pos := by
  unfold Float.ofScientific
  split
  · rename_i hsmall
    -- Both the number and the power of ten are doubles themselves, so that a single operation rounds.
    have hsize : e < Float.exactlyRepresentablePowersOfTen.size := Nat.lt_succ_of_le hsmall.2
    obtain ⟨m₁, q₁, hc₁, hfloat, hbits, hvalue⟩ := toFloat_eq hn hsmall.1
    obtain ⟨m₂, q₂, hc₂, hpower, hten⟩ := eq_double_of_isNatural (power_isNatural ⟨e, hsize⟩)
    have hten : (10 : ℚ) ^ (e : Int) = m₂ * 2 ^ q₂ := by
      rw [hten, zpow_natCast]
      push_cast
      rfl
    simp only [hfloat, hpower]
    cases negative with
    | true =>
      rw [if_pos rfl, zpow_neg, hten, ← hvalue, ← div_eq_mul_inv] at hv
      exact double_div hc₁ hc₂ hc hv
    | false =>
      rw [if_neg (by decide), hten, ← hvalue] at hv
      exact double_mul hc₁ hc₂ hc hbits hv
  · have hexp : (if negative then Int.negOfNat e else Int.ofNat e) = if negative then -(e : Int) else e := by
      rw [Int.negOfNat_eq]
      rfl
    change Float.ofModel (.pack (UnpackedFloat.ofScientific .binary64 n _)) = _
    rw [hexp, unpacked_ofScientific_eq hn hc hv]
    rfl

/-! ## Magnitudes -/

/-- The number of digits of a natural number brackets it between powers of ten. -/
theorem toDigits_bounds {n : Nat} (hn : 0 < n) :
    10 ^ ((Nat.toDigits 10 n).length - 1) ≤ n ∧ n < 10 ^ (Nat.toDigits 10 n).length := by
  have hpos := Nat.length_toDigits_pos (b := 10) (n := n)
  refine ⟨?_, (Nat.length_toDigits_le_iff (by decide) hpos).mp (Nat.le_refl _)⟩
  rcases Nat.lt_or_ge 1 (Nat.toDigits 10 n).length with hlong | hshort
  · by_contra hlt
    have := (Nat.length_toDigits_le_iff (b := 10) (n := n) (by decide) (by omega)).mpr (Nat.lt_of_not_le hlt)
    omega
  · rw [show (Nat.toDigits 10 n).length - 1 = 0 by omega]
    exact hn

theorem ten_zpow_lt_iff {a b : Int} : (10 : ℚ) ^ a < 10 ^ b ↔ a < b := zpow_lt_zpow_iff_right₀ (by norm_num)

theorem ten_zpow_add_nat (e : Int) (n : Nat) : (10 : ℚ) ^ (e + n) = 10 ^ n * 10 ^ e := by
  rw [zpow_add₀ (by norm_num), zpow_natCast, mul_comm]

/-- A decimal lies below ten to the power of its magnitude, but not below the next lower power. -/
theorem magnitude_bounds {n : Nat} (hn : 0 < n) (e : Int) :
    10 ^ ((Nat.toDigits 10 n).length + e - 1) ≤ (n : ℚ) * 10 ^ e ∧
      (n : ℚ) * 10 ^ e < 10 ^ ((Nat.toDigits 10 n).length + e) := by
  obtain ⟨hlow, hhigh⟩ := toDigits_bounds hn
  have hpos := Nat.length_toDigits_pos (b := 10) (n := n)
  constructor
  · rw [show ((Nat.toDigits 10 n).length : Int) + e - 1 = e + ((Nat.toDigits 10 n).length - 1 : Nat) by omega,
      ten_zpow_add_nat]
    exact mul_le_mul_of_nonneg_right (by exact_mod_cast hlow) (ten_zpow_pos e).le
  · rw [add_comm, ten_zpow_add_nat]
    exact mul_lt_mul_of_pos_right (by exact_mod_cast hhigh) (ten_zpow_pos e)

/-- Powers of ten beyond those of two that bound the doubles. -/
theorem two_zpow_bounds : (10 : ℚ) ^ (-400 : Int) < 2 ^ (-1075 : Int) ∧ (2 : ℚ) ^ (1024 : Int) < 10 ^ (400 : Int) := by
  have hlow : 2 ^ 1075 < 10 ^ 400 := by decide +kernel
  have hhigh : 2 ^ 1024 < 10 ^ 400 := by decide +kernel
  constructor
  · rw [zpow_neg, zpow_neg]
    exact (inv_lt_inv₀ (ten_zpow_pos _) (two_zpow_pos _)).mpr (by exact_mod_cast hlow)
  · exact_mod_cast hhigh

/-- Reading keeps every decimal that rounds to a double within its magnitudes. -/
theorem ofDecimal_eq {n m : Nat} {e q : Int} (hn : 0 < n) (hc : Canonical m q) (hv : RoundsTo m q (n * 10 ^ e)) :
    ofDecimal n e = double false m q hc.pos := by
  obtain ⟨hlow, hhigh⟩ := hv.bounds hc
  obtain ⟨hunder, hover⟩ := magnitude_bounds hn e
  have hleast : ¬ ((Nat.toDigits 10 n).length : Int) + e < -400 := fun h =>
    absurd (ten_zpow_lt_iff.mp ((two_zpow_bounds.1.trans_le hlow).trans hover)) (by omega)
  have hmost : ¬ 400 < ((Nat.toDigits 10 n).length : Int) + e := fun h =>
    absurd (ten_zpow_lt_iff.mp ((hunder.trans_lt hhigh).trans two_zpow_bounds.2)) (by omega)
  have hzero : n ≠ 0 := by omega
  simp only [ofDecimal, hzero, hleast, decide_false, Bool.or_self, Bool.false_eq_true, if_false, hmost]
  split
  · rename_i hnonneg
    refine ofScientific_eq hn hc ?_
    rw [if_neg (by decide), Int.toNat_of_nonneg hnonneg]
    exact hv
  · refine ofScientific_eq hn hc ?_
    rw [if_pos rfl, show -(((-e).toNat : Nat) : Int) = e by omega]
    exact hv

end Forager.Number
