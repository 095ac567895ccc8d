import Mathlib
import Forager.Number.Double

/-!
# Rounding to doubles

* `Describes em x` : a mantissa with its round and sticky bits says where `x` lies;
* `Canonical m q` : `m * 2 ^ q` is a positive double in the form in which doubles are kept;
* `RoundsTo m q v` : the exact value `v` lies in the interval of the double `m * 2 ^ q`;
* `roundWithAccuracy_eq` : rounding a value gives the double in whose interval it lies.
-/

namespace Forager.Number

set_option autoImplicit false

open Float.Model Float.Model.UnpackedFloat

/-! ## Mantissas with extra bits -/

/-- Whether a mantissa and its extra bits describe the number `x`. -/
def Describes (em : ExtendedMantissa) (x : ℚ) : Prop :=
  match em.roundBit, em.stickyBit with
  | false, false => x = em.mantissa
  | false, true => em.mantissa < x ∧ x < em.mantissa + 1 / 2
  | true, false => x = em.mantissa + 1 / 2
  | true, true => em.mantissa + 1 / 2 < x ∧ x < em.mantissa + 1

theorem Describes.bounds {em : ExtendedMantissa} {x : ℚ} (h : Describes em x) :
    (em.mantissa : ℚ) ≤ x ∧ x < em.mantissa + 1 := by
  rcases em with ⟨m, r, s⟩
  cases r <;> cases s <;> simp only [Describes] at h ⊢
  · constructor <;> linarith
  · constructor <;> linarith [h.1, h.2]
  · constructor <;> linarith
  · constructor <;> linarith [h.1, h.2]

theorem Describes.halve {em : ExtendedMantissa} {x : ℚ} (h : Describes em x) :
    Describes em.shiftRightOne (x / 2) := by
  rcases em with ⟨m, r, s⟩
  -- The last bit of the mantissa becomes the round bit, and the old round bit sticks.
  rcases Nat.even_or_odd' m with ⟨k, rfl | rfl⟩
  · have hhalf : 2 * k / 2 = k := by omega
    have hbit : 2 * k % 2 = 0 := by omega
    cases r <;> cases s <;>
      simp only [Describes, ExtendedMantissa.shiftRightOne, hhalf, hbit, bne_self_eq_false, Bool.or_false,
        Bool.or_true, Bool.or_self, Nat.cast_mul, Nat.cast_ofNat] at h ⊢
    · linarith
    · constructor <;> linarith [h.1, h.2]
    · constructor <;> linarith
    · constructor <;> linarith [h.1, h.2]
  · have hhalf : (2 * k + 1) / 2 = k := by omega
    have hbit : ((2 * k + 1) % 2 != 0) = true := by
      rw [show (2 * k + 1) % 2 = 1 by omega]
      rfl
    cases r <;> cases s <;>
      simp only [Describes, ExtendedMantissa.shiftRightOne, hhalf, hbit, Bool.or_false, Bool.or_true, Bool.or_self,
        Nat.cast_add, Nat.cast_one, Nat.cast_mul, Nat.cast_ofNat] at h ⊢
    · linarith
    · constructor <;> linarith [h.1, h.2]
    · constructor <;> linarith
    · constructor <;> linarith [h.1, h.2]

theorem Describes.shift {em : ExtendedMantissa} {x : ℚ} (h : Describes em x) (n : Nat) :
    Describes (em >>> n) (x / 2 ^ n) := by
  induction n with
  | zero =>
    rw [pow_zero, div_one]
    exact h
  | succ n ih =>
    have := ih.halve
    rw [div_div, ← pow_succ] at this
    exact this

/-- Whether rounding `x` to a natural number, a half to the even one, gives `n`. -/
def RoundsToNat (n : Nat) (x : ℚ) : Prop :=
  (n : ℚ) - 1 / 2 ≤ x ∧ x ≤ n + 1 / 2 ∧ (n % 2 = 1 → (n : ℚ) - 1 / 2 < x ∧ x < n + 1 / 2)

theorem RoundsToNat.mono {n k : Nat} {x y : ℚ} (hn : RoundsToNat n x) (hk : RoundsToNat k y) (h : x ≤ y) : n ≤ k := by
  by_contra hlt
  have hcast : (k : ℚ) + 1 ≤ n := by exact_mod_cast not_le.mp hlt
  obtain ⟨hnlow, -, hnstrict⟩ := hn
  obtain ⟨-, hkhigh, hkstrict⟩ := hk
  -- Two neighbours share only the half between them, which goes to the even one.
  have hnext : n = k + 1 := by
    have : (n : ℚ) ≤ k + 1 := by linarith
    have : n ≤ k + 1 := by exact_mod_cast this
    omega
  rcases Nat.mod_two_eq_zero_or_one k with heven | hodd
  · have := (hnstrict (by omega)).1
    linarith
  · have := (hkstrict hodd).2
    linarith

theorem roundsToNat_self (n : Nat) : RoundsToNat n n := ⟨by linarith, by linarith, fun _ => ⟨by linarith, by linarith⟩⟩

theorem RoundsToNat.unique {n k : Nat} {x : ℚ} (hn : RoundsToNat n x) (hk : RoundsToNat k x) : n = k :=
  le_antisymm (hn.mono hk le_rfl) (hk.mono hn le_rfl)

theorem Describes.roundsToNat {em : ExtendedMantissa} {x : ℚ} (h : Describes em x) :
    RoundsToNat em.roundedMantissa x := by
  rcases em with ⟨m, r, s⟩
  unfold RoundsToNat
  cases r <;> cases s <;>
    simp only [Describes, ExtendedMantissa.roundedMantissa, ExtendedMantissa.accuracy,
      Accuracy.roundToNearestEven] at h ⊢
  · refine ⟨by linarith, by linarith, fun _ => ⟨by linarith, by linarith⟩⟩
  · refine ⟨by linarith [h.1], by linarith [h.2], fun _ => ⟨by linarith [h.1], by linarith [h.2]⟩⟩
  · rcases Nat.mod_two_eq_zero_or_one m with hm | hm
    · rw [hm, Nat.add_zero]
      exact ⟨by linarith, by linarith, fun hodd => by omega⟩
    · rw [hm]
      push_cast
      exact ⟨by linarith, by linarith, fun hodd => by omega⟩
  · push_cast
    refine ⟨by linarith [h.1], by linarith [h.2], fun _ => ⟨by linarith [h.1], by linarith [h.2]⟩⟩

/-! ## Doubles and their intervals -/

/-- The mantissa and exponent of a positive double. -/
structure Canonical (m : Nat) (q : Int) : Prop where
  pos : 0 < m
  lt : m < 2 ^ 53
  least : -1074 ≤ q
  greatest : q ≤ 971
  normal : 2 ^ 52 ≤ m ∨ q = -1074

/-- The lower end of the interval of a double. Below a power of two the doubles lie closer. -/
def lowEnd (m : Nat) (q : Int) : ℚ := (m - if m = 2 ^ 52 ∧ q ≠ -1074 then 1 / 4 else 1 / 2) * 2 ^ q

def highEnd (m : Nat) (q : Int) : ℚ := (m + 1 / 2) * 2 ^ q

/-- Whether a value lies in the interval of a double. The ends belong to the even mantissas. -/
structure RoundsTo (m : Nat) (q : Int) (v : ℚ) : Prop where
  low : lowEnd m q ≤ v
  high : v ≤ highEnd m q
  odd : m % 2 = 1 → lowEnd m q < v ∧ v < highEnd m q

theorem two_zpow_pos (q : Int) : (0 : ℚ) < 2 ^ q := zpow_pos (by norm_num) q

theorem two_zpow_le {a b : Int} (h : a ≤ b) : (2 : ℚ) ^ a ≤ 2 ^ b := zpow_le_zpow_right₀ (by norm_num) h

theorem lt_of_two_zpow_lt {a b : Int} (h : (2 : ℚ) ^ a < 2 ^ b) : a < b :=
  (zpow_lt_zpow_iff_right₀ (by norm_num)).mp h

theorem two_zpow_add_nat (q : Int) (n : Nat) : (2 : ℚ) ^ (q + n) = 2 ^ n * 2 ^ q := by
  rw [zpow_add₀ (by norm_num), zpow_natCast, mul_comm]

theorem lowEnd_ge (m : Nat) (q : Int) : ((m : ℚ) - 1 / 2) * 2 ^ q ≤ lowEnd m q := by
  unfold lowEnd
  refine mul_le_mul_of_nonneg_right ?_ (two_zpow_pos q).le
  split <;> linarith

theorem Canonical.highEnd_lt {m : Nat} {q : Int} (h : Canonical m q) : highEnd m q < 2 ^ (q + 53) := by
  have hm : (m : ℚ) + 1 ≤ 2 ^ 53 := by exact_mod_cast h.lt
  rw [highEnd, show q + 53 = q + (53 : Nat) from rfl, two_zpow_add_nat]
  exact mul_lt_mul_of_pos_right (by linarith) (two_zpow_pos q)

/-- In units of its own last place a value in the interval rounds to the mantissa. -/
theorem RoundsTo.roundsToNat {m : Nat} {q : Int} {v : ℚ} (h : RoundsTo m q v) : RoundsToNat m (v / 2 ^ q) := by
  have hq := two_zpow_pos q
  have hlow := (lowEnd_ge m q).trans h.low
  refine ⟨(le_div_iff₀ hq).mpr hlow, (div_le_iff₀ hq).mpr h.high, fun hodd => ?_⟩
  obtain ⟨hl, hh⟩ := h.odd hodd
  exact ⟨(lt_div_iff₀ hq).mpr ((lowEnd_ge m q).trans_lt hl), (div_lt_iff₀ hq).mpr hh⟩

/-- Below the power of two where its binade begins, the interval belongs to that power, and the value rounds to it in
the finer units of the binade below. -/
theorem RoundsTo.below_power {m : Nat} {q : Int} {v : ℚ} (hv : RoundsTo m q v) (hc : Canonical m q) (hq : q ≠ -1074)
    (hfar : v < 2 ^ (q + 52)) :
    m = 2 ^ 52 ∧ 2 ^ (q - 1 + 52) ≤ v ∧ v < 2 ^ (q - 1 + 53) ∧ RoundsToNat (2 ^ 53) (v / 2 ^ (q - 1)) := by
  have hpow : (2 : ℚ) ^ (q + 52) = 2 ^ 52 * 2 ^ q := two_zpow_add_nat q 52
  have hm : m = 2 ^ 52 := by
    have hle := ((lowEnd_ge m q).trans hv.low).trans_lt hfar
    rw [hpow] at hle
    have hlt : (m : ℚ) - 1 / 2 < 2 ^ 52 := lt_of_mul_lt_mul_right hle (two_zpow_pos q).le
    have hcast : (m : ℚ) < 2 ^ 52 + 1 := by linarith
    have : m < 2 ^ 52 + 1 := by exact_mod_cast hcast
    have := hc.normal.resolve_right hq
    omega
  subst hm
  have hq1 := two_zpow_pos (q - 1)
  have hhalf : (2 : ℚ) ^ q = 2 * 2 ^ (q - 1) := by
    have := two_zpow_add_nat (q - 1) 1
    rwa [Nat.cast_one, sub_add_cancel, pow_one] at this
  have hunder : (2 ^ 53 - 1 / 2) * (2 : ℚ) ^ (q - 1) ≤ v := by
    refine le_trans (le_of_eq ?_) hv.low
    rw [lowEnd, if_pos ⟨rfl, hq⟩, hhalf]
    push_cast
    ring
  have hover : v < 2 ^ 53 * (2 : ℚ) ^ (q - 1) := by
    refine hfar.trans_le (le_of_eq ?_)
    rw [hpow, hhalf]
    ring
  refine ⟨rfl, ?_, ?_, ?_, ?_, fun hodd => absurd hodd (by decide)⟩
  · refine le_trans ?_ hunder
    rw [show q - 1 + 52 = q - 1 + (52 : Nat) from rfl, two_zpow_add_nat]
    exact mul_le_mul_of_nonneg_right (by norm_num) hq1.le
  · rw [show q - 1 + 53 = q - 1 + (53 : Nat) from rfl, two_zpow_add_nat]
    exact hover
  · rw [le_div_iff₀ hq1]
    exact_mod_cast hunder
  · have := (div_lt_iff₀ hq1).mpr hover
    push_cast
    linarith

/-! ## Rounding a described value -/

theorem target_eq (mant : Nat) (e : Int) :
    Format.binary64.targetExponent (totalExponent mant e) = max (mant.log2 + e - 52) (-1074) := by
  simp only [Format.targetExponent, totalExponent, Format.mantissaBits, Format.minExponent]
  omega

/-- A value between the powers of two of exponent `q`, or below them at the least exponent, is brought to `q`. -/
theorem target_of_value {mant : Nat} {e q : Int} {v : ℚ} (hlow : mant * 2 ^ e ≤ v) (hhigh : v < (mant + 1) * 2 ^ e)
    (hbits : 52 ≤ mant.log2 ∨ e ≤ -1074) (hq : -1074 ≤ q) (hv : v < 2 ^ (q + 53))
    (hnormal : 2 ^ (q + 52) ≤ v ∨ q = -1074) : max (mant.log2 + e - 52) (-1074) = q := by
  rcases Nat.eq_zero_or_pos mant with rfl | hpos
  · have he : e ≤ -1074 := hbits.resolve_left (by decide)
    have hlt : v < 2 ^ e := by simpa using hhigh
    rcases hnormal with hnormal | rfl
    · have := lt_of_two_zpow_lt (hnormal.trans_lt hlt)
      omega
    · simp only [Nat.log2_zero]
      omega
  · have hlog : mant ≠ 0 := by omega
    have hbelow : (2 : ℚ) ^ ((mant.log2 : Int) + e) ≤ v := by
      refine le_trans ?_ hlow
      rw [add_comm, two_zpow_add_nat]
      exact mul_le_mul_of_nonneg_right (by exact_mod_cast Nat.log2_self_le hlog) (two_zpow_pos e).le
    have habove : v < 2 ^ ((mant.log2 : Int) + 1 + e) := by
      refine hhigh.trans_le ?_
      have hcast : (mant : ℚ) + 1 ≤ 2 ^ (mant.log2 + 1) := by exact_mod_cast Nat.lt_log2_self
      rw [show (mant.log2 : Int) + 1 + e = e + ((mant.log2 + 1 : Nat) : Int) by push_cast; ring, two_zpow_add_nat]
      exact mul_le_mul_of_nonneg_right hcast (two_zpow_pos e).le
    have hupper := lt_of_two_zpow_lt (hbelow.trans_lt hv)
    rcases hnormal with hnormal | rfl
    · have := lt_of_two_zpow_lt (hnormal.trans_lt habove)
      omega
    · omega

/-- Bringing a described value to its target exponent keeps it described. -/
theorem Describes.toTarget {mant : Nat} {e t : Int} {acc : Accuracy} {v : ℚ}
    (h : Describes (.ofMantissaAndAccuracy mant acc) (v / 2 ^ e)) (ht : max (mant.log2 + e - 52) (-1074) = t)
    (he : e ≤ t) :
    ∃ em, shiftToTargetExponent .binary64 mant e acc = (em, t) ∧ Describes em (v / 2 ^ t) := by
  have hk : e + ((t - e).toNat : Int) = t := by omega
  have hpow : (2 : ℚ) ^ t = 2 ^ e * 2 ^ (t - e).toNat := by
    rw [mul_comm, ← two_zpow_add_nat, hk]
  refine ⟨ExtendedMantissa.ofMantissaAndAccuracy mant acc >>> (t - e).toNat, ?_, ?_⟩
  · simp only [shiftToTargetExponent, shiftToExponent, target_eq, ht, hk]
  · rw [hpow, ← div_div]
    exact h.shift (t - e).toNat

/-- The second shift, after rounding, only matters if the mantissa has become a power of two. -/
theorem shiftToTarget_of_lt {m : Nat} {q : Int} (hm : m < 2 ^ 53) (hq : -1074 ≤ q) :
    shiftToTargetExponent .binary64 m q .exact = (⟨m, false, false⟩, q) := by
  have hlog : m.log2 ≤ 52 := by
    rcases Nat.eq_zero_or_pos m with rfl | hpos
    · decide
    · have := (Nat.log2_lt (by omega)).mpr hm
      omega
  have hshift : (max ((m.log2 : Int) + q - 52) (-1074) - q).toNat = 0 := by omega
  simp only [shiftToTargetExponent, shiftToExponent, target_eq, hshift, Nat.cast_zero, add_zero]
  rfl

theorem shiftToTarget_carry {q : Int} (hq : -1074 < q) :
    shiftToTargetExponent .binary64 (2 ^ 53) (q - 1) .exact = (⟨2 ^ 52, false, false⟩, q) := by
  have hlog : Nat.log2 (2 ^ 53) = 53 := Nat.log2_two_pow
  have hshift : (max (((53 : Nat) : Int) + (q - 1) - 52) (-1074) - (q - 1)).toNat = 1 := by omega
  simp only [shiftToTargetExponent, shiftToExponent, target_eq, hlog, hshift, Nat.cast_one, sub_add_cancel]
  rfl

theorem roundWithAccuracy_of_shifts {mant m : Nat} {e t q : Int} {acc : Accuracy} {em : ExtendedMantissa} (s : Sign)
    (hfirst : shiftToTargetExponent .binary64 mant e acc = (em, t))
    (hsecond : shiftToTargetExponent .binary64 em.roundedMantissa t .exact = (⟨m, false, false⟩, q)) (hm : 0 < m) :
    roundWithAccuracy .binary64 s mant e acc = .finite s m q hm := by
  simp only [roundWithAccuracy, hfirst, hsecond, dif_neg (Nat.pos_iff_ne_zero.mp hm)]

/-- **Rounding.** A value that is described with enough bits is rounded to the double in whose interval it lies. -/
theorem roundWithAccuracy_eq {mant : Nat} {e : Int} {acc : Accuracy} {v : ℚ} {m : Nat} {q : Int} (s : Sign)
    (hd : Describes (.ofMantissaAndAccuracy mant acc) (v / 2 ^ e)) (hbits : 52 ≤ mant.log2 ∨ e ≤ -1074)
    (hc : Canonical m q) (hv : RoundsTo m q v) :
    roundWithAccuracy .binary64 s mant e acc = .finite s m q hc.pos := by
  have hmant : (ExtendedMantissa.ofMantissaAndAccuracy mant acc).mantissa = mant := by
    rcases acc with _ | o
    · rfl
    · cases o <;> rfl
  obtain ⟨hlow, hhigh⟩ := hd.bounds
  rw [hmant] at hlow hhigh
  rw [le_div_iff₀ (two_zpow_pos e)] at hlow
  rw [div_lt_iff₀ (two_zpow_pos e)] at hhigh
  have hlt : v < 2 ^ (q + 53) := hv.high.trans_lt hc.highEnd_lt
  have hleast := hc.least
  have hneeded : ∀ t, max ((mant.log2 : Int) + e - 52) (-1074) = t → e ≤ t := by omega
  -- Below a power of two the value is first rounded at the finer exponent, and the carry brings it back.
  by_cases hnear : (2 : ℚ) ^ (q + 52) ≤ v ∨ q = -1074
  · have htarget := target_of_value hlow hhigh hbits hleast hlt hnear
    obtain ⟨em, hfirst, hdesc⟩ := hd.toTarget htarget (hneeded q htarget)
    refine roundWithAccuracy_of_shifts s hfirst ?_ hc.pos
    rw [hdesc.roundsToNat.unique hv.roundsToNat]
    exact shiftToTarget_of_lt hc.lt hleast
  · obtain ⟨hfar, hq⟩ := not_or.mp hnear
    obtain ⟨rfl, hnormal, hbound, hnat⟩ := hv.below_power hc hq (not_le.mp hfar)
    have htarget := target_of_value hlow hhigh hbits (by omega) hbound (Or.inl hnormal)
    obtain ⟨em, hfirst, hdesc⟩ := hd.toTarget htarget (hneeded (q - 1) htarget)
    refine roundWithAccuracy_of_shifts s hfirst ?_ hc.pos
    rw [hdesc.roundsToNat.unique hnat]
    exact shiftToTarget_carry (by omega)

end Forager.Number
