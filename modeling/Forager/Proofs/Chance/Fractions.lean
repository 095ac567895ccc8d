import Forager.Chance.Source
import Forager.Proofs.Computation
import Forager.Proofs.Number.Values

/-!
# Fractions that are drawn

A fraction is a number of 63 bits, rounded to a double, over the 63rd power of two. Rounding may carry the number up to
that power and no further, and the quotient is exact. So the quotient is at most one, and one itself is drawn again.

* `toFloat_bounded` : a number of 63 bits as a double; `div_two_pow` : what it gives over the 63rd power of two;
* `unit_range` : every fraction lies from zero to below one.
-/

namespace Forager.Number

set_option autoImplicit false

open Float.Model Float.Model.UnpackedFloat

/-! ## Numbers of 63 bits -/

theorem canonical_power {q : Int} (hlow : -1074 ≤ q) (hhigh : q ≤ 971) : Canonical (2 ^ 52) q :=
  ⟨by omega, by omega, hlow, hhigh, .inl le_rfl⟩

/-- A double that is at least one has a mantissa of full length. -/
theorem full_of_one_le {m : Nat} {q : Int} (hlt : m < 2 ^ 53) (hnormal : 2 ^ 52 ≤ m ∨ q = -1074)
    (hone : (1 : ℚ) ≤ m * 2 ^ q) : 2 ^ 52 ≤ m ∧ -53 ≤ q := by
  have hbits : (m : ℚ) < 2 ^ (53 : Int) := by exact_mod_cast hlt
  have hpower : (2 : ℚ) ^ (0 : Int) < 2 ^ (53 + q) := by
    rw [zpow_add₀ (by norm_num), zpow_zero]
    exact hone.trans_lt (mul_lt_mul_of_pos_right hbits (two_zpow_pos q))
  have hq := lt_of_two_zpow_lt hpower
  exact ⟨hnormal.resolve_right (by omega), by omega⟩

/-- A double up to the 63rd power of two has a lesser exponent, or is that power. -/
theorem exponent_lt_or_eq {m : Nat} {q : Int} (hm : 2 ^ 52 ≤ m) (hvalue : (m : ℚ) * 2 ^ q ≤ 2 ^ 63) :
    q < 11 ∨ q = 11 ∧ m = 2 ^ 52 := by
  have hpower : (2 : ℚ) ^ (52 + q) < 2 ^ (64 : Int) := by
    rw [zpow_add₀ (by norm_num)]
    refine (mul_le_mul_of_nonneg_right (c := (m : ℚ)) ?_ (two_zpow_pos q).le).trans_lt (hvalue.trans_lt (by norm_num))
    exact_mod_cast hm
  have hle := lt_of_two_zpow_lt hpower
  rcases Int.lt_or_le q 11 with hless | hmore
  · exact .inl hless
  · obtain rfl : q = 11 := by omega
    have hmost : (m : ℚ) ≤ 2 ^ 52 := by
      rw [← mul_le_mul_iff_left₀ (two_zpow_pos 11)]
      exact hvalue.trans (by norm_num)
    exact .inr ⟨rfl, le_antisymm (by exact_mod_cast hmost) hm⟩

/-- A number of 63 bits that is not zero, as a double. -/
theorem toFloat_bounded {x : UInt64} (hpos : 0 < x.toNat) (hlt : x.toNat < 2 ^ 63) :
    ∃ (m : Nat) (q : Int) (hc : Canonical m q), x.toFloat = double false m q hc.pos ∧ 2 ^ 52 ≤ m ∧ -53 ≤ q ∧
      (m : ℚ) * 2 ^ q ≤ 2 ^ 63 := by
  have hmodel : UnpackedFloat.ofUInt64 .binary64 x = UnpackedFloat.round .binary64 .positive x.toNat 0 := by
    have hcompare : compare (x.toNat : Int) 0 = .gt := by
      rw [compare_gt_iff_gt]
      omega
    unfold UnpackedFloat.ofUInt64 UnpackedFloat.ofNat UnpackedFloat.ofInt UnpackedFloat.normalize
    rw [hcompare]
    rfl
  obtain ⟨n, hn, hrounded⟩ := round_nearest 0 hpos
  rw [zpow_zero, mul_one] at hn hrounded
  -- One and the power of two are doubles, and the number is not rounded past them.
  have hone : Canonical (2 ^ 52) (-52) := canonical_power (by omega) (by omega)
  have htop : Canonical (2 ^ 52) 11 := canonical_power (by omega) (by omega)
  have hleast : (1 : ℚ) ≤ x.toNat := by exact_mod_cast hpos
  have hmost : (x.toNat : ℚ) ≤ 2 ^ 63 := by exact_mod_cast hlt.le
  have hlow : (1 : ℚ) ≤ n * 2 ^ place x.toNat :=
    le_trans (by norm_num) (hone.le_rounded (le_trans (by norm_num) hleast) hn)
  have hhigh : (n : ℚ) * 2 ^ place x.toNat ≤ 2 ^ 63 :=
    (htop.rounded_le (Nat.cast_nonneg _) (hmost.trans (by norm_num)) hn).trans (by norm_num)
  generalize (n : ℚ) * 2 ^ place x.toNat = v at hrounded hlow hhigh
  generalize UnpackedFloat.round .binary64 .positive x.toNat 0 = a at hrounded hmodel
  cases hrounded with
  | zero => exact absurd hlow (by norm_num)
  | @finite m q hm hbits hq hnormal =>
    obtain ⟨hfull, hq'⟩ := full_of_one_le hbits hnormal hlow
    have hgreatest := exponent_lt_or_eq hfull hhigh
    refine ⟨m, q, ⟨hm, hbits, hq, by omega, hnormal⟩, ?_, hfull, hq', hhigh⟩
    change Float.ofModel (Float.Model.pack (UnpackedFloat.ofUInt64 .binary64 x)) = _
    rw [hmodel]
    rfl

/-- The division by the 63rd power of two is exact. -/
theorem div_two_pow {m : Nat} {q : Int} (hc : Canonical m q) (hm : 2 ^ 52 ≤ m) (hlow : -53 ≤ q) (hhigh : q ≤ 11) :
    ∃ hc' : Canonical m (q - 63),
      double false m q hc.pos / 9223372036854775808.0 = double false m (q - 63) hc'.pos := by
  have hc' : Canonical m (q - 63) := ⟨hc.pos, hc.lt, by omega, by omega, .inl hm⟩
  have htop : Canonical (2 ^ 52) 11 := canonical_power (by omega) (by omega)
  have hdivisor : (9223372036854775808.0 : Float) = double false (2 ^ 52) 11 (by decide) := by decide +kernel
  refine ⟨hc', ?_⟩
  rw [hdivisor]
  refine double_div hc htop hc' ?_
  have hexact : (m : ℚ) * 2 ^ q / ((2 ^ 52 : Nat) * 2 ^ (11 : Int)) = m * 2 ^ (q - 63) := by
    rw [zpow_sub₀ (by norm_num)]
    norm_num
    ring
  rw [hexact]
  exact .self

end Forager.Number

namespace Forager.Chance

set_option autoImplicit false

open Number

/-! ## Fractions -/

/-- What is drawn has 63 bits. -/
theorem bits_lt : Gives (fun x : UInt64 => x.toNat < 2 ^ 63) bits := by
  have hmask (x : UInt64) : (x &&& mask).toNat < 2 ^ 63 := by
    rw [UInt64.toNat_and]
    exact Nat.and_lt_two_pow _ (by decide)
  intro s
  cases s with
  | lagged g => exact hmask _
  | script numbers next => exact hmask _

/-- A number of 63 bits over the 63rd power of two is not negative, and if it is not one, it is less. -/
theorem fraction_range {x : UInt64} (hlt : x.toNat < 2 ^ 63)
    (hne : (x.toFloat / 9223372036854775808.0 == 1.0) = false) :
    0 ≤ x.toFloat / 9223372036854775808.0 ∧ x.toFloat / 9223372036854775808.0 < 1 := by
  rcases Nat.eq_zero_or_pos x.toNat with hzero | hpos
  · obtain rfl : x = 0 := UInt64.toNat_inj.mp hzero
    decide +kernel
  obtain ⟨m, q, hc, heq, hm, hq, hvalue⟩ := toFloat_bounded hpos hlt
  have hplace := exponent_lt_or_eq hm hvalue
  obtain ⟨hc', hquotient⟩ := div_two_pow hc hm hq (by omega)
  rw [heq, hquotient] at hne ⊢
  obtain ⟨hfinite, hexact⟩ := value_double hc'
  constructor
  · rw [le_iff_value value_zero.1 hfinite, value_zero.2, hexact]
    exact (value_pos hc'.pos _).le
  · rcases hplace with hless | ⟨rfl, rfl⟩
    · have hone : Canonical (2 ^ 52) (-52) := canonical_power (by omega) (by omega)
      rw [lt_iff_value hfinite value_one.1, value_one.2, hexact]
      refine (hc'.value_lt hone (Prod.Lex.toLex_lt_toLex.mpr (.inl ?_))).trans_eq (by norm_num)
      dsimp only
      omega
    · have hequal : (double false (2 ^ 52) (11 - 63) (by decide) == 1.0) = true := by decide +kernel
      cases hequal.symm.trans hne

/-- **Fractions lie from zero to below one.** -/
theorem unit_range : Gives (fun u => 0 ≤ u ∧ u < 1) unit := by
  have hwithin : ∀ fuel, Gives (fun u => 0 ≤ u ∧ u < 1) (unitWithin fuel) := by
    intro fuel
    induction fuel with
    | zero => exact .pure (by decide +kernel)
    | succ fuel ih =>
      refine .bind bits_lt fun x hx => ?_
      dsimp only
      split
      · exact ih
      · rename_i hne
        exact .pure (fraction_range hx (eq_false_of_ne_true hne))
  exact hwithin patience

end Forager.Chance
