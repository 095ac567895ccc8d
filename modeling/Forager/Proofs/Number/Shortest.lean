import Mathlib.Data.List.TakeWhile
import Forager.Number.Decimal
import Forager.Proofs.Number.Nearest

/-!
# Shortest decimals

* `Ratio.magnitude_spec` : the magnitude of a ratio brackets it between powers of ten;
* `Interval.Stands.pick?_spec` : a grid point that was picked lies in the interval of the double;
* `Interval.Stands.pick?_seventeen` : on the grid of seventeen digits some point is picked;
* `Decimal.value` : the number that a decimal denotes;
* `shortest_stands` : the shortest decimal of a double lies in its interval.
-/

namespace Forager.Number

set_option autoImplicit false

/-! ## Magnitudes of ratios -/

theorem Ratio.zeros_le (fuel num den : Nat) : zeros fuel num den ≤ fuel := by
  induction fuel generalizing num with
  | zero => exact Nat.le_refl _
  | succ fuel ih =>
    rw [zeros]
    split
    · exact Nat.succ_le_succ (ih _)
    · exact Nat.zero_le _

theorem Ratio.zeros_lt {num den : Nat} (fuel : Nat) (h : num < den) : num * 10 ^ zeros fuel num den < den := by
  induction fuel generalizing num with
  | zero => simpa [zeros] using h
  | succ fuel ih =>
    rw [zeros]
    split
    · rename_i hlt
      have := ih hlt
      rwa [Nat.pow_succ', ← Nat.mul_assoc]
    · simpa using h

/-- Unless the fuel ran out, one more factor of ten leads to one or beyond. -/
theorem Ratio.le_zeros {fuel num den : Nat} (h : zeros fuel num den < fuel) :
    den ≤ num * 10 ^ (zeros fuel num den + 1) := by
  induction fuel generalizing num with
  | zero => omega
  | succ fuel ih =>
    rw [zeros] at h ⊢
    split
    · rename_i hlt
      rw [if_pos hlt] at h
      have hfuel : zeros fuel (num * 10) den < fuel := by omega
      have := ih hfuel
      rwa [Nat.pow_succ', ← Nat.mul_assoc]
    · omega

/-- The magnitude is the least power of ten above the ratio. -/
theorem Ratio.magnitude_spec {r : Ratio} (hnum : 0 < r.num) (hden : 0 < r.den)
    (hleast : (10 : ℚ) ^ (-400 : Int) < r.num / r.den) :
    10 ^ (r.magnitude - 1) ≤ (r.num : ℚ) / r.den ∧ (r.num : ℚ) / r.den < 10 ^ r.magnitude := by
  obtain ⟨num, den⟩ := r
  simp only at hnum hden hleast ⊢
  have hpos : (0 : ℚ) < den := by exact_mod_cast hden
  unfold magnitude
  simp only
  split
  · rename_i hle
    have hone : 0 < num / den := Nat.div_pos hle hden
    obtain ⟨hlow, hhigh⟩ := toDigits_bounds hone
    have hlen := Nat.length_toDigits_pos (b := 10) (n := num / den)
    rw [digitCount, if_neg (by omega), le_div_iff₀ hpos, div_lt_iff₀ hpos]
    constructor
    · rw [show ((Nat.toDigits 10 (num / den)).length : Int) - 1 = ((Nat.toDigits 10 (num / den)).length - 1 : Nat) by
        omega, zpow_natCast]
      exact_mod_cast (Nat.mul_le_mul_right den hlow).trans (Nat.div_mul_le_self num den)
    · rw [zpow_natCast]
      exact_mod_cast (Nat.div_lt_iff_lt_mul hden).mp hhigh
  · rename_i hlt
    have hbelow := zeros_lt 400 (Nat.lt_of_not_le hlt)
    have hfuel : zeros 400 num den < 400 := by
      -- If all fuel was spent, the ratio would lie below `10 ^ -400`.
      refine lt_of_le_of_ne (zeros_le 400 num den) fun hfull => ?_
      rw [hfull] at hbelow
      rw [zpow_neg, lt_div_iff₀ hpos, inv_mul_lt_iff₀ (ten_zpow_pos _), mul_comm] at hleast
      have hcast : (num : ℚ) * 10 ^ (400 : Int) < den := by exact_mod_cast hbelow
      linarith
    have habove := le_zeros hfuel
    rw [le_div_iff₀ hpos, div_lt_iff₀ hpos]
    constructor
    · rw [show -(zeros 400 num den : Int) - 1 = -((zeros 400 num den + 1 : Nat) : Int) by push_cast; ring, zpow_neg,
        zpow_natCast, inv_mul_le_iff₀ (by positivity), mul_comm]
      exact_mod_cast habove
    · rw [zpow_neg, zpow_natCast, lt_inv_mul_iff₀ (by positivity), mul_comm]
      exact_mod_cast hbelow

/-! ## Intervals -/

/-- What an interval over one denominator has to say about the double `m * 2 ^ q`. -/
structure Interval.Stands (i : Interval) (m : Nat) (q : Int) : Prop where
  den_pos : 0 < i.den
  low : (i.low : ℚ) = lowEnd m q * i.den
  value : (i.value : ℚ) = m * 2 ^ q * i.den
  high : (i.high : ℚ) = highEnd m q * i.den
  closed : i.closed = true ↔ m % 2 = 0

theorem Ratio.scale_spec (n : Nat) (e : Int) :
    0 < (scale n e).den ∧ ((scale n e).num : ℚ) = n * 2 ^ e * (scale n e).den := by
  unfold scale
  split
  · rename_i he
    obtain ⟨k, rfl⟩ := Int.eq_ofNat_of_zero_le he
    refine ⟨Nat.one_pos, ?_⟩
    simp
  · rename_i he
    obtain ⟨k, rfl⟩ : ∃ k : Nat, e = -(k : Int) := ⟨(-e).toNat, by omega⟩
    refine ⟨by simp, ?_⟩
    simp only [neg_neg, Int.toNat_natCast, zpow_neg, zpow_natCast, Nat.pow_eq, Nat.cast_pow, Nat.cast_ofNat]
    field_simp

theorem Interval.ofDouble_stands {m : Nat} (q : Int) (hm : 0 < m) : (ofDouble m q).Stands m q := by
  obtain ⟨hden, hunit⟩ := Ratio.scale_spec 1 (q - 2)
  have hquarter : ((Ratio.scale 1 (q - 2)).num : ℚ) = 2 ^ q / 4 * (Ratio.scale 1 (q - 2)).den := by
    rw [hunit, zpow_sub₀ (by norm_num)]
    norm_num
  refine ⟨hden, ?_, ?_, ?_, decide_eq_true_iff⟩
  · have hnear : (m = hiddenBit && decide (q ≠ leastExponent)) = true ↔ m = 2 ^ 52 ∧ q ≠ -1074 := by
      rw [Bool.and_eq_true, decide_eq_true_eq, decide_eq_true_eq]
      rfl
    simp only [ofDouble, lowEnd]
    by_cases h : m = 2 ^ 52 ∧ q ≠ -1074
    · rw [if_pos (hnear.mpr h), if_pos h, Nat.cast_mul, Nat.cast_sub (by omega), hquarter]
      push_cast
      ring
    · rw [if_neg (mt hnear.mp h), if_neg h, Nat.cast_mul, Nat.cast_sub (by omega), hquarter]
      push_cast
      ring
  · simp only [ofDouble, Nat.cast_mul, hquarter]
    push_cast
    ring
  · simp only [ofDouble, highEnd, Nat.cast_mul, hquarter]
    push_cast
    ring

/-- The step of the grid of `count` digits, over the powers of ten by which numbers are scaled. -/
theorem grid_step (magnitude : Int) (count : Nat) :
    (10 : ℚ) ^ (magnitude - count) * (10 ^ (count - magnitude).toNat : Nat) =
      (10 ^ (magnitude - count).toNat : Nat) := by
  push_cast
  rw [← zpow_natCast, ← zpow_natCast, ← zpow_add₀ (by norm_num)]
  congr 1
  omega

/-- A grid point, scaled to naturals, compares with a scaled end of the interval as it does with the end itself. -/
theorem grid_le_iff {e den up down n : Nat} {step v : ℚ} (hden : 0 < den) (hup : 0 < up) (he : (e : ℚ) = v * den)
    (hgrid : step * up = down) :
    (e * up ≤ n * (den * down) ↔ v ≤ n * step) ∧ (n * (den * down) ≤ e * up ↔ n * step ≤ v) := by
  have hk : (0 : ℚ) < den * up := by exact_mod_cast Nat.mul_pos hden hup
  have hleft : ((e * up : Nat) : ℚ) = v * (den * up) := by
    push_cast
    rw [he]
    ring
  have hright : ((n * (den * down) : Nat) : ℚ) = n * step * (den * up) := by
    push_cast
    rw [← hgrid]
    ring
  rw [← Nat.cast_le (α := ℚ), ← Nat.cast_le (α := ℚ), hleft, hright]
  exact ⟨mul_le_mul_iff_left₀ hk, mul_le_mul_iff_left₀ hk⟩

/-- The grid points that the interval holds are those that round to the double. -/
theorem Interval.Stands.holds_iff {i : Interval} {m : Nat} {q : Int} (hi : i.Stands m q) (magnitude : Int)
    (count n : Nat) :
    i.holds (10 ^ (count - magnitude).toNat) (n * (i.den * 10 ^ (magnitude - count).toNat)) = true ↔
      RoundsTo m q (n * 10 ^ (magnitude - count)) := by
  have hup : 0 < 10 ^ ((count : Int) - magnitude).toNat := Nat.pow_pos (by decide)
  have hgrid := grid_step magnitude count
  obtain ⟨hlow, hlow'⟩ := grid_le_iff (n := n) hi.den_pos hup hi.low hgrid
  obtain ⟨hhigh', hhigh⟩ := grid_le_iff (n := n) hi.den_pos hup hi.high hgrid
  unfold Interval.holds
  split
  · rename_i hclosed
    have heven := hi.closed.mp hclosed
    rw [Bool.and_eq_true, decide_eq_true_eq, decide_eq_true_eq, hlow, hhigh]
    exact ⟨fun h => ⟨h.1, h.2, fun hodd => by omega⟩, fun h => ⟨h.low, h.high⟩⟩
  · rename_i hopen
    have hodd : m % 2 = 1 := by
      have := mt hi.closed.mpr hopen
      omega
    rw [Bool.and_eq_true, decide_eq_true_eq, decide_eq_true_eq, ← Nat.not_le, ← Nat.not_le, hlow', hhigh', not_le,
      not_le]
    exact ⟨fun h => ⟨h.1.le, h.2.le, fun _ => h⟩, fun h => h.odd hodd⟩

/-- A grid point that was picked rounds to the double. -/
theorem Interval.Stands.pick?_spec {i : Interval} {m : Nat} {q : Int} (hi : i.Stands m q) {magnitude : Int}
    {count n : Nat} (h : i.pick? magnitude count = some n) : RoundsTo m q (n * 10 ^ (magnitude - count)) := by
  rw [← hi.holds_iff]
  unfold Interval.pick? at h
  simp only [Nat.pow_eq] at h
  split at h
  · rename_i hboth
    rw [Bool.and_eq_true] at hboth
    split at h
    · cases h
      exact hboth.1
    · split at h
      · cases h
        exact hboth.2
      · split at h
        · cases h
          exact hboth.1
        · cases h
          exact hboth.2
  · split at h
    · rename_i hdown
      cases h
      exact hdown
    · split at h
      · rename_i hup
        cases h
        exact hup
      · cases h

/-- The interval is wider than the step of the grid of seventeen digits. -/
theorem width_gt {m : Nat} {q magnitude : Int} (hc : Canonical m q) (hlow : 10 ^ (magnitude - 1) ≤ (m : ℚ) * 2 ^ q) :
    10 ^ (magnitude - 17) < highEnd m q - lowEnd m q := by
  have hstep : (10 : ℚ) ^ (magnitude - 17) * 10 ^ 16 ≤ m * 2 ^ q := by
    rw [mul_comm, ← ten_zpow_add_nat]
    exact le_trans (le_of_eq (by congr 1; push_cast; ring)) hlow
  have hq := two_zpow_pos q
  have hm : (m : ℚ) < 2 ^ 53 := by exact_mod_cast hc.lt
  unfold highEnd lowEnd
  split
  · rename_i hnear
    obtain ⟨rfl, -⟩ := hnear
    push_cast at hstep ⊢
    linarith
  · have : (m : ℚ) * 2 ^ q < 10 ^ 16 * 2 ^ q := mul_lt_mul_of_pos_right (by linarith) hq
    linarith

/-- Seventeen digits are always enough: of the two neighbours of the double on that grid at least one is picked. -/
theorem Interval.Stands.pick?_seventeen {i : Interval} {m : Nat} {q : Int} (hi : i.Stands m q) (hc : Canonical m q)
    {magnitude : Int} (hlow : 10 ^ (magnitude - 1) ≤ (m : ℚ) * 2 ^ q) : (i.pick? magnitude 17).isSome = true := by
  have hwidth := width_gt hc hlow
  have hself : lowEnd m q < m * 2 ^ q ∧ (m : ℚ) * 2 ^ q < highEnd m q := lt_ends m q
  have hup : 0 < 10 ^ (((17 : Nat) : Int) - magnitude).toNat := Nat.pow_pos (by decide)
  have hgrid := grid_step magnitude 17
  have hden : 0 < i.den * 10 ^ (magnitude - (17 : Nat)).toNat := Nat.mul_pos hi.den_pos (Nat.pow_pos (by decide))
  obtain ⟨below, hbelow⟩ : ∃ below, i.value * 10 ^ (((17 : Nat) : Int) - magnitude).toNat /
    (i.den * 10 ^ (magnitude - (17 : Nat)).toNat) = below := ⟨_, rfl⟩
  have hunder : (below : ℚ) * 10 ^ (magnitude - (17 : Nat)) ≤ m * 2 ^ q := by
    refine (grid_le_iff hi.den_pos hup hi.value hgrid).2.mp ?_
    rw [← hbelow]
    exact Nat.div_mul_le_self _ _
  have hover : (m : ℚ) * 2 ^ q ≤ (below + 1 : Nat) * 10 ^ (magnitude - (17 : Nat)) := by
    refine (grid_le_iff hi.den_pos hup hi.value hgrid).1.mp ?_
    rw [← hbelow]
    exact (Nat.lt_mul_of_div_lt (Nat.lt_succ_self _) hden).le
  have hfits : RoundsTo m q (below * 10 ^ (magnitude - (17 : Nat))) ∨
      RoundsTo m q ((below + 1 : Nat) * 10 ^ (magnitude - (17 : Nat))) := by
    -- Otherwise both ends would lie between the neighbours, which are one step apart.
    by_contra hnone
    obtain ⟨hdown, hup⟩ := not_or.mp hnone
    have hfirst : (below : ℚ) * 10 ^ (magnitude - (17 : Nat)) ≤ lowEnd m q := by
      by_contra h
      exact hdown (.of_mem (not_le.mp h) (hunder.trans_lt hself.2))
    have hsecond : highEnd m q ≤ (below + 1 : Nat) * 10 ^ (magnitude - (17 : Nat)) := by
      by_contra h
      exact hup (.of_mem (hself.1.trans_le hover) (not_le.mp h))
    push_cast at hfirst hsecond
    linarith
  rw [← hi.holds_iff, ← hi.holds_iff] at hfits
  unfold Interval.pick?
  simp only [Nat.pow_eq, hbelow]
  rcases hfits with h | h <;> rw [h] <;> split_ifs <;> simp_all

/-! ## The search -/

theorem Interval.search_spec (i : Interval) (magnitude : Int) (fuel count : Nat) {last : Nat} (hfirst : count ≤ last)
    (hlast : last < count + fuel) (h : (i.pick? magnitude last).isSome = true) :
    ∃ n c, i.search magnitude fuel count = (n, c) ∧ i.pick? magnitude c = some n := by
  induction fuel generalizing count with
  | zero => omega
  | succ fuel ih =>
    rw [search]
    split
    · rename_i n hn
      exact ⟨n, count, rfl, hn⟩
    · rename_i hnone
      refine ih (count + 1) ?_ (by omega)
      rcases Nat.eq_or_lt_of_le hfirst with rfl | hlt
      · rw [hnone] at h
        cases h
      · exact hlt

/-! ## Digits -/

def Decimal.value (d : Decimal) : ℚ := Nat.ofDigitChars 10 d.digits 0 * 10 ^ (d.point - d.digits.length)

/-- Trimming takes off zeros. -/
theorem trimZeros_append (digits : List Char) : ∃ k, trimZeros digits ++ List.replicate k '0' = digits := by
  have hzeros : digits.reverse.takeWhile (· == '0') =
      List.replicate (digits.reverse.takeWhile (· == '0')).length '0' :=
    List.eq_replicate_of_mem fun c hc => by simpa using List.mem_takeWhile_imp hc
  refine ⟨(digits.reverse.takeWhile (· == '0')).length, ?_⟩
  rw [trimZeros, ← List.reverse_replicate, ← List.reverse_append, ← hzeros, List.takeWhile_append_dropWhile,
    List.reverse_reverse]

/-- The value of a decimal that was made from a grid point. -/
theorem ofGrid_value (n : Nat) (magnitude : Int) (count : Nat) :
    (Decimal.ofGrid n magnitude count).value = n * 10 ^ (magnitude - count) := by
  obtain ⟨k, hk⟩ := trimZeros_append (Nat.toDigits 10 n)
  have hvalue : n = 10 ^ k * Nat.ofDigitChars 10 (trimZeros (Nat.toDigits 10 n)) 0 := by
    have h := Nat.ofDigitChars_ten_toDigits (n := n)
    rw [← hk, Nat.ofDigitChars_append, Nat.ofDigitChars_replicate_zero] at h
    exact h.symm
  have hlen : ((Nat.toDigits 10 n).length : Int) = (trimZeros (Nat.toDigits 10 n)).length + k := by
    have h := congrArg List.length hk
    rw [List.length_append, List.length_replicate] at h
    omega
  have hpoint : magnitude + (Nat.toDigits 10 n).length - count - (trimZeros (Nat.toDigits 10 n)).length =
      magnitude - count + k := by omega
  simp only [Decimal.value, Decimal.ofGrid]
  rw [hpoint, ten_zpow_add_nat]
  conv_rhs => rw [hvalue]
  push_cast
  ring

theorem ofGrid_point {n : Nat} (hn : 0 < n) (magnitude : Int) (count : Nat) :
    10 ^ ((Decimal.ofGrid n magnitude count).point - 1) ≤ (Decimal.ofGrid n magnitude count).value ∧
      (Decimal.ofGrid n magnitude count).value < 10 ^ (Decimal.ofGrid n magnitude count).point := by
  have hpoint : (Decimal.ofGrid n magnitude count).point = (Nat.toDigits 10 n).length + (magnitude - count) := by
    simp only [Decimal.ofGrid]
    ring
  rw [ofGrid_value, hpoint]
  exact magnitude_bounds hn (magnitude - count)

theorem ofGrid_digits {n : Nat} (hn : 0 < n) (magnitude : Int) (count : Nat) :
    (Decimal.ofGrid n magnitude count).digits ≠ [] ∧
      ∀ c ∈ (Decimal.ofGrid n magnitude count).digits, c.isDigit = true := by
  obtain ⟨k, hk⟩ := trimZeros_append (Nat.toDigits 10 n)
  refine ⟨fun hnil => ?_, fun c hc => ?_⟩
  · have h := Nat.ofDigitChars_ten_toDigits (n := n)
    rw [← hk, show trimZeros (Nat.toDigits 10 n) = [] from hnil, List.nil_append,
      Nat.ofDigitChars_replicate_zero] at h
    omega
  · refine Nat.isDigit_of_mem_toDigits (b := 10) (n := n) (by decide) (by decide) ?_
    rw [← hk]
    exact List.mem_append_left _ hc

/-- What the digits of the double `m * 2 ^ q` satisfy. -/
structure Decimal.Stands (d : Decimal) (m : Nat) (q : Int) : Prop where
  rounds : RoundsTo m q d.value
  nonempty : d.digits ≠ []
  digits : ∀ c ∈ d.digits, c.isDigit = true
  low : 10 ^ (d.point - 1) ≤ d.value
  high : d.value < 10 ^ d.point

/-- **The shortest decimal** of a double lies in the interval of the double. -/
theorem shortest_stands {m : Nat} {q : Int} (hc : Canonical m q) : (Decimal.shortest m q).Stands m q := by
  have hi := Interval.ofDouble_stands q hc.pos
  have hm : (0 : ℚ) < m * 2 ^ q := mul_pos (by exact_mod_cast hc.pos) (two_zpow_pos q)
  have hden : (0 : ℚ) < (Interval.ofDouble m q).den := by exact_mod_cast hi.den_pos
  have hratio : ((Interval.ofDouble m q).value : ℚ) / (Interval.ofDouble m q).den = m * 2 ^ q := by
    rw [hi.value, mul_div_assoc, div_self hden.ne', mul_one]
  have hnum : 0 < (Interval.ofDouble m q).value := by
    have : (0 : ℚ) < (Interval.ofDouble m q).value := by
      rw [hi.value]
      exact mul_pos hm hden
    exact_mod_cast this
  obtain ⟨hlow, -⟩ := Ratio.magnitude_spec (r := ⟨(Interval.ofDouble m q).value, (Interval.ofDouble m q).den⟩)
    hnum hi.den_pos (by
      rw [hratio]
      exact two_zpow_bounds.1.trans_le (RoundsTo.self.bounds hc).1)
  rw [hratio] at hlow
  obtain ⟨n, c, hsearch, hpick⟩ := Interval.search_spec (Interval.ofDouble m q) _ 17 1 (by decide) (by decide)
    (hi.pick?_seventeen hc hlow)
  have hrounds := hi.pick?_spec hpick
  have hn : 0 < n := by
    rcases Nat.eq_zero_or_pos n with rfl | hpos
    · have := (RoundsTo.bounds hrounds hc).1
      have := two_zpow_pos (-1075)
      simp only [Nat.cast_zero, zero_mul] at *
      linarith
    · exact hpos
  simp only [Decimal.shortest, if_neg (Nat.pos_iff_ne_zero.mp hc.pos), hsearch]
  obtain ⟨hnonempty, hdigits⟩ := ofGrid_digits hn (Ratio.magnitude ⟨_, _⟩) c
  obtain ⟨hlow, hhigh⟩ := ofGrid_point hn (Ratio.magnitude ⟨_, _⟩) c
  rw [← ofGrid_value] at hrounds
  exact ⟨hrounds, hnonempty, hdigits, hlow, hhigh⟩

end Forager.Number
