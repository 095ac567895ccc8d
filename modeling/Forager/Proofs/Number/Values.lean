import Forager.Proofs.Number.Nearest
import Forager.Proofs.Number.Order
import Forager.Proofs.Number.Overflow

/-!
# Exact values of doubles

Finite doubles are ordered like the numbers they stand for, and arithmetic rounds exact results. Rounding keeps the
order, so sums and products of doubles that are not negative grow with their operands.

* `value x` : the number that a finite double stands for; `lt_iff_value`, `le_iff_value` : the order of doubles;
* `place v` : the exponent of the last place around `v`; `Rounds v x` : the exact result `v` is rounded to `x`;
* `mul_rounds`, `add_rounds` : what products and sums are, unless they are too great;
* `Rounds.le` : rounding keeps the order.
-/

namespace Forager.Number

set_option autoImplicit false

open Float.Model Float.Model.UnpackedFloat

/-! ## Values -/

/-- The number that an unpacked double stands for, zero if it stands for none. -/
def valueOf : UnpackedFloat → ℚ
  | .finite .positive m q _ => m * 2 ^ q
  | .finite .negative m q _ => -(m * 2 ^ q)
  | _ => 0

/-- The number that a double stands for, zero if it stands for none. -/
def value (x : Float) : ℚ := valueOf x.toModel.unpack

variable {x y z : Float}

theorem value_of_shape {m : Nat} {q : Int} (h : shape x = .finite false m q) :
    isFinite x = true ∧ value x = m * 2 ^ q := by
  refine ⟨by rw [isFinite, h], ?_⟩
  rw [shape_eq] at h
  unfold value
  generalize x.toModel.unpack = a at h ⊢
  rcases a with s | _ | s | ⟨s, n, k, hn⟩
  · cases h
  · cases h
  · simp only [shapeOf, Shape.finite.injEq] at h
    simp [valueOf, ← h.2.1]
  · cases s
    · simp [shapeOf, isNegative] at h
    · simp only [shapeOf, Shape.finite.injEq] at h
      obtain ⟨-, rfl, rfl⟩ := h
      rfl

/-- Positive doubles are ordered by their exponents first, since all but the least have a mantissa of full length. -/
theorem Canonical.value_lt {m n : Nat} {q k : Int} (hm : Canonical m q) (hn : Canonical n k)
    (h : toLex (q, (m : Int)) < toLex (k, (n : Int))) : (m : ℚ) * 2 ^ q < n * 2 ^ k := by
  rcases Prod.Lex.toLex_lt_toLex.mp h with hqk | ⟨hqk, hmn⟩
  · have hfull : 2 ^ 52 ≤ n := by
      have := hm.least
      exact hn.normal.resolve_right (by dsimp only at hqk; omega)
    calc (m : ℚ) * 2 ^ q < 2 ^ 53 * 2 ^ q := by
          have : (m : ℚ) < 2 ^ 53 := by exact_mod_cast hm.lt
          exact mul_lt_mul_of_pos_right this (two_zpow_pos q)
      _ = 2 ^ 52 * 2 ^ (q + 1) := by
          rw [zpow_add_one₀ (by norm_num)]
          ring
      _ ≤ n * 2 ^ k := by
          have : (2 : ℚ) ^ 52 ≤ n := by exact_mod_cast hfull
          exact mul_le_mul this (two_zpow_le hqk) (two_zpow_pos _).le (by positivity)
  · dsimp only at hqk hmn
    subst hqk
    exact mul_lt_mul_of_pos_right (by exact_mod_cast hmn) (two_zpow_pos q)

theorem value_pos {m : Nat} (hm : 0 < m) (q : Int) : (0 : ℚ) < m * 2 ^ q := by
  have : (0 : ℚ) < m := by exact_mod_cast hm
  exact mul_pos this (two_zpow_pos q)

theorem fst_le_of_toLex_lt {a c : ℤ} {b d : ℤ ×ₗ ℤ} (h : toLex (a, b) < toLex (c, d)) : a ≤ c := by
  rcases Prod.Lex.toLex_lt_toLex.mp h with h | h
  · exact h.le
  · exact h.1.le

theorem snd_lt_of_toLex_lt {a : ℤ} {b d : ℤ ×ₗ ℤ} (h : toLex (a, b) < toLex (a, d)) : b < d := by
  rcases Prod.Lex.toLex_lt_toLex.mp h with h | h
  · exact absurd h (lt_irrefl _)
  · exact h.2

/-- The double of lesser rank has the lesser value. -/
theorem value_lt_of_rank (hx : isFinite x = true) (hy : isFinite y = true) (h : rank x < rank y) :
    value x < value y := by
  unfold rank at h
  unfold value
  rcases unpack_of_isFinite hx with ⟨s, hx⟩ | ⟨s, m, q, hm, hx⟩ <;>
    rcases unpack_of_isFinite hy with ⟨t, hy⟩ | ⟨t, n, k, hn, hy⟩ <;> rw [hx, hy] at h ⊢
  · exact absurd h (lt_irrefl _)
  · cases t with
    | positive => exact value_pos hn k
    | negative => exact absurd (fst_le_of_toLex_lt h) (by decide)
  · cases s with
    | positive => exact absurd (fst_le_of_toLex_lt h) (by decide)
    | negative => exact neg_neg_of_pos (value_pos hm q)
  · have hm' := canonical_of_unpack hx
    have hn' := canonical_of_unpack hy
    cases s <;> cases t
    · -- The greater of two negative doubles is the one closer to zero.
      have hlex := snd_lt_of_toLex_lt h
      refine neg_lt_neg (hn'.value_lt hm' (Prod.Lex.toLex_lt_toLex.mpr ?_))
      rcases Prod.Lex.toLex_lt_toLex.mp hlex with hq | ⟨hq, hm⟩
      · exact .inl (neg_lt_neg_iff.mp hq)
      · exact .inr ⟨(neg_inj.mp hq).symm, neg_lt_neg_iff.mp hm⟩
    · exact (neg_neg_of_pos (value_pos hm q)).trans (value_pos hn k)
    · exact absurd (fst_le_of_toLex_lt h) (by decide)
    · exact hm'.value_lt hn' (snd_lt_of_toLex_lt h)

theorem value_eq_of_rank (hx : isFinite x = true) (hy : isFinite y = true) (h : rank x = rank y) :
    value x = value y := by
  unfold rank at h
  unfold value
  rcases unpack_of_isFinite hx with ⟨s, hx⟩ | ⟨s, m, q, hm, hx⟩ <;>
    rcases unpack_of_isFinite hy with ⟨t, hy⟩ | ⟨t, n, k, hn, hy⟩ <;> rw [hx, hy] at h ⊢
  · rfl
  · cases t <;> simp [rankOf] at h
  · cases s <;> simp [rankOf] at h
  · cases s <;> cases t <;> simp [rankOf, valueOf] at h ⊢ <;> simp [h]

theorem isNaN_of_isFinite (hx : isFinite x = true) : x.isNaN = false := by
  change x.toModel.unpack.isNaN = false
  rcases unpack_of_isFinite hx with ⟨s, hx⟩ | ⟨s, m, q, hm, hx⟩ <;> rw [hx] <;> rfl

/-- **Finite doubles are ordered like their values.** -/
theorem lt_iff_value (hx : isFinite x = true) (hy : isFinite y = true) : x < y ↔ value x < value y := by
  rw [lt_iff_rank (isNaN_of_isFinite hx) (isNaN_of_isFinite hy)]
  refine ⟨value_lt_of_rank hx hy, fun h => ?_⟩
  rcases lt_trichotomy (rank x) (rank y) with hlt | heq | hgt
  · exact hlt
  · exact absurd (value_eq_of_rank hx hy heq) h.ne
  · exact absurd (value_lt_of_rank hy hx hgt) h.not_gt

theorem le_iff_value (hx : isFinite x = true) (hy : isFinite y = true) : x ≤ y ↔ value x ≤ value y := by
  rw [← not_lt, ← lt_iff_value hy hx]
  refine ⟨fun h hlt => Order.not_le_of_lt hlt h, ?_⟩
  exact Order.le_of_not_lt (isNaN_of_isFinite hy) (isNaN_of_isFinite hx)

theorem rank_of_isFinite (hx : isFinite x = true) : ∃ a b, rank x = toLex (a, b) ∧ -2 < a ∧ a < 2 := by
  unfold rank
  rcases unpack_of_isFinite hx with ⟨s, hx⟩ | ⟨s, m, q, hm, hx⟩ <;> rw [hx]
  · exact ⟨0, _, rfl, by decide, by decide⟩
  · cases s
    · exact ⟨-1, _, rfl, by decide, by decide⟩
    · exact ⟨1, _, rfl, by decide, by decide⟩

/-- What lies between finite doubles is finite. -/
theorem isFinite_of_between (hx : isFinite x = true) (hz : isFinite z = true) (hxy : x ≤ y) (hyz : y < z) :
    isFinite y = true := by
  have hy := (number_of_lt hyz).1
  obtain ⟨a, b, ha, hlow, -⟩ := rank_of_isFinite hx
  obtain ⟨c, d, hc, -, hhigh⟩ := rank_of_isFinite hz
  rw [lt_iff_rank hy (isNaN_of_isFinite hz), hc] at hyz
  rw [le_iff_rank (isNaN_of_isFinite hx) hy, ha] at hxy
  by_contra hinfinite
  obtain ⟨negative, hshape⟩ := exists_infinite hy (eq_false_of_ne_true hinfinite)
  rw [shape_eq] at hshape
  unfold rank at hxy hyz
  rcases hu : y.toModel.unpack with s | _ | s | ⟨s, m, q, hm⟩ <;> rw [hu] at hshape hxy hyz
  · cases s
    · rcases Prod.Lex.toLex_le_toLex.mp hxy with h | ⟨h, -⟩
      · exact absurd h hlow.not_gt
      · exact absurd h hlow.ne'
    · exact absurd (fst_le_of_toLex_lt hyz) hhigh.not_ge
  all_goals cases hshape

theorem value_zero : isFinite 0 = true ∧ value 0 = 0 := by
  have hshape : shape (0 : Float) = .finite false 0 (-1074) := by decide +kernel
  obtain ⟨hfinite, hvalue⟩ := value_of_shape hshape
  exact ⟨hfinite, by simpa using hvalue⟩

theorem value_one : isFinite 1 = true ∧ value 1 = 1 := by
  have hshape : shape (1 : Float) = .finite false (2 ^ 52) (-52) := by decide +kernel
  obtain ⟨hfinite, hvalue⟩ := value_of_shape hshape
  exact ⟨hfinite, by rw [hvalue]; norm_num⟩

/-- A double from zero to one. -/
structure Fraction (u : Float) : Prop where
  isFinite : isFinite u = true
  nonneg : 0 ≤ value u
  le_one : value u ≤ 1

/-- What is not negative and less than one is a fraction, whose value is less than one. -/
theorem fraction_of_lt {u : Float} (hlow : 0 ≤ u) (hhigh : u < 1) : Fraction u ∧ value u < 1 := by
  have hfinite := isFinite_of_between value_zero.1 value_one.1 hlow hhigh
  rw [le_iff_value value_zero.1 hfinite, value_zero.2] at hlow
  rw [lt_iff_value hfinite value_one.1, value_one.2] at hhigh
  exact ⟨⟨hfinite, hlow, hhigh.le⟩, hhigh⟩

/-! ## The last place -/

/-- The exponent of the last place of the doubles around `v`. -/
def place (v : ℚ) : Int := max (Int.log 2 v - 52) (-1074)

theorem log_mul_two_zpow {m : Nat} (hm : 0 < m) (q : Int) : Int.log 2 ((m : ℚ) * 2 ^ q) = m.log2 + q := by
  have hne : m ≠ 0 := by omega
  have hpos := value_pos hm q
  have hlow : (2 : ℚ) ^ ((m.log2 : Int) + q) ≤ m * 2 ^ q := by
    rw [add_comm, two_zpow_add_nat]
    exact mul_le_mul_of_nonneg_right (by exact_mod_cast Nat.log2_self_le hne) (two_zpow_pos q).le
  have hhigh : (m : ℚ) * 2 ^ q < 2 ^ ((m.log2 : Int) + q + 1) := by
    rw [show (m.log2 : Int) + q + 1 = q + ((m.log2 + 1 : Nat) : Int) by push_cast; ring, two_zpow_add_nat]
    exact mul_lt_mul_of_pos_right (by exact_mod_cast Nat.lt_log2_self) (two_zpow_pos q)
  have h₁ := (Int.zpow_le_iff_le_log (b := 2) (by norm_num) hpos).mp (by exact_mod_cast hlow)
  have h₂ := (Int.lt_zpow_iff_log_lt (b := 2) (by norm_num) hpos).mp (by exact_mod_cast hhigh)
  omega

theorem place_eq {m : Nat} (hm : 0 < m) (q : Int) : place (m * 2 ^ q) = max ((m.log2 : Int) + q - 52) (-1074) := by
  rw [place, log_mul_two_zpow hm]

theorem place_canonical {m : Nat} {q : Int} (h : Canonical m q) : place (m * 2 ^ q) = q := by
  rw [place_eq h.pos]
  have hlog := h.log2_lt
  have hleast := h.least
  rcases h.normal with hfull | rfl
  · have := (Nat.le_log2 (Nat.pos_iff_ne_zero.mp h.pos)).mpr hfull
    omega
  · omega

theorem place_mono {v w : ℚ} (hv : 0 < v) (h : v ≤ w) : place v ≤ place w :=
  max_le_max (by have := Int.log_mono_right (b := 2) hv h; omega) le_rfl

theorem lt_of_place (v : ℚ) : v < 2 ^ 53 * 2 ^ place v := by
  have hlog : v < 2 ^ (Int.log 2 v + 1) := by exact_mod_cast Int.lt_zpow_succ_log_self (by norm_num) v
  have hplace : Int.log 2 v - 52 ≤ place v := le_max_left _ _
  have hpow : (2 : ℚ) ^ (place v + (53 : Nat)) = 2 ^ 53 * 2 ^ place v := two_zpow_add_nat (place v) 53
  rw [← hpow]
  exact hlog.trans_le (two_zpow_le (by omega))

/-- Above the least place, numbers have a mantissa of full length. -/
theorem le_of_place {v : ℚ} (hv : 0 < v) (h : -1074 < place v) : 2 ^ 52 * 2 ^ place v ≤ v := by
  have hlog : (2 : ℚ) ^ Int.log 2 v ≤ v := by exact_mod_cast Int.zpow_log_le_self (by norm_num) hv
  have hplace : place v + (52 : Nat) = Int.log 2 v := by
    unfold place at h ⊢
    omega
  rwa [← two_zpow_add_nat, hplace]

/-! ## Rounding keeps the order -/

/-- **Rounding keeps the order.** -/
theorem rounded_mono {v w : ℚ} {n k : Nat} (hv : 0 ≤ v) (h : v ≤ w) (hn : RoundsToNat n (v / 2 ^ place v))
    (hk : RoundsToNat k (w / 2 ^ place w)) : (n : ℚ) * 2 ^ place v ≤ k * 2 ^ place w := by
  rcases hv.eq_or_lt with rfl | hv
  · have hzero : n ≤ 0 := hn.mono (roundsToNat_self 0) (by simp)
    rw [Nat.le_zero.mp hzero, Nat.cast_zero, zero_mul]
    exact mul_nonneg k.cast_nonneg (two_zpow_pos _).le
  · rcases (place_mono hv h).eq_or_lt with hplace | hplace
    · rw [← hplace] at hk ⊢
      have hle := hn.mono hk (div_le_div_of_nonneg_right h (two_zpow_pos _).le)
      exact mul_le_mul_of_nonneg_right (by exact_mod_cast hle) (two_zpow_pos _).le
    -- A power of two lies between them, and neither is rounded past it.
    · have hlow : n ≤ 2 ^ 53 := by
        refine hn.mono (roundsToNat_self _) ?_
        rw [div_le_iff₀ (two_zpow_pos _)]
        exact_mod_cast (lt_of_place v).le
      have hhigh : 2 ^ 52 ≤ k := by
        have hleast : -1074 ≤ place v := le_max_right _ _
        refine (roundsToNat_self _).mono hk ?_
        rw [le_div_iff₀ (two_zpow_pos _)]
        exact_mod_cast le_of_place (hv.trans_le h) (by omega)
      calc (n : ℚ) * 2 ^ place v ≤ 2 ^ 53 * 2 ^ place v := by
            exact mul_le_mul_of_nonneg_right (by exact_mod_cast hlow) (two_zpow_pos _).le
        _ = 2 ^ 52 * 2 ^ (place v + 1) := by
            rw [zpow_add_one₀ (by norm_num)]
            ring
        _ ≤ k * 2 ^ place w := by
            have hcast : (2 : ℚ) ^ 52 ≤ k := by exact_mod_cast hhigh
            exact mul_le_mul hcast (two_zpow_le hplace) (two_zpow_pos _).le (by positivity)

/-- A double is rounded to itself. -/
theorem Canonical.rounded {m : Nat} {q : Int} (h : Canonical m q) :
    RoundsToNat m (m * 2 ^ q / 2 ^ place (m * 2 ^ q)) := by
  rw [place_canonical h, mul_div_cancel_right₀ _ (two_zpow_pos q).ne']
  exact roundsToNat_self m

/-- A number is not rounded down past a double. -/
theorem Canonical.le_rounded {m n : Nat} {q : Int} {v : ℚ} (h : Canonical m q) (hle : m * 2 ^ q ≤ v)
    (hn : RoundsToNat n (v / 2 ^ place v)) : (m : ℚ) * 2 ^ q ≤ n * 2 ^ place v := by
  have hmono := rounded_mono (value_pos h.pos q).le hle h.rounded hn
  rwa [place_canonical h] at hmono

/-- A number is not rounded up past a double. -/
theorem Canonical.rounded_le {m n : Nat} {q : Int} {v : ℚ} (h : Canonical m q) (hv : 0 ≤ v) (hle : v ≤ m * 2 ^ q)
    (hn : RoundsToNat n (v / 2 ^ place v)) : (n : ℚ) * 2 ^ place v ≤ m * 2 ^ q := by
  have hmono := rounded_mono hv hle hn h.rounded
  rwa [place_canonical h] at hmono

/-! ## Results of arithmetic -/

/-- The exact result `v` is rounded to the double `x`. -/
structure Rounds (v : ℚ) (x : Float) : Prop where
  isFinite : isFinite x = true
  nearest : ∃ n : Nat, RoundsToNat n (v / 2 ^ place v) ∧ value x = n * 2 ^ place v

/-- Larger results are rounded to larger doubles. -/
theorem Rounds.le {v w : ℚ} (hx : Rounds v x) (hy : Rounds w y) (hv : 0 ≤ v) (h : v ≤ w) : x ≤ y := by
  obtain ⟨n, hn, hxn⟩ := hx.nearest
  obtain ⟨k, hk, hyk⟩ := hy.nearest
  rw [le_iff_value hx.isFinite hy.isFinite, hxn, hyk]
  exact rounded_mono hv h hn hk

theorem Rounds.value_nonneg {v : ℚ} (hx : Rounds v x) : 0 ≤ value x := by
  obtain ⟨n, -, hxn⟩ := hx.nearest
  rw [hxn]
  exact mul_nonneg n.cast_nonneg (two_zpow_pos _).le

/-- A finite double that is not negative is zero or has the sign of the positive ones. -/
theorem unpack_of_nonneg (hx : isFinite x = true) (h : 0 ≤ value x) :
    value x = 0 ∧ (∃ s, x.toModel.unpack = .zero s) ∨
    ∃ m q hm, Canonical m q ∧ x.toModel.unpack = .finite .positive m q hm ∧ value x = m * 2 ^ q := by
  unfold value at h ⊢
  rcases unpack_of_isFinite hx with ⟨s, hx⟩ | ⟨s, m, q, hm, hx⟩ <;> rw [hx] at h ⊢
  · exact .inl ⟨rfl, s, rfl⟩
  · cases s
    · exact absurd (neg_neg_of_pos (value_pos hm q)) h.not_gt
    · exact .inr ⟨m, q, hm, canonical_of_unpack hx, rfl, rfl⟩

theorem rounds_self (hx : isFinite x = true) (h : 0 ≤ value x) : Rounds (value x) x := by
  refine ⟨hx, ?_⟩
  rcases unpack_of_nonneg hx h with ⟨hzero, -⟩ | ⟨m, q, -, hc, -, hvalue⟩
  · exact ⟨0, by simpa [hzero] using roundsToNat_self 0, by simp [hzero]⟩
  · refine ⟨m, ?_, ?_⟩
    · rw [hvalue]
      exact hc.rounded
    · rw [hvalue, place_canonical hc]

/-- What rounding can make of a number that is not negative, whatever its magnitude. -/
inductive Rounded : UnpackedFloat → ℚ → Prop where
  | zero : Rounded (.zero .positive) 0
  | finite {m : Nat} {q : Int} (hm : 0 < m) (hlt : m < 2 ^ 53) (hleast : -1074 ≤ q) (hnormal : 2 ^ 52 ≤ m ∨ q = -1074) :
    Rounded (.finite .positive m q hm) (m * 2 ^ q)

theorem roundWithAccuracy_nearest {mant : Nat} {e : Int} (hmant : 0 < mant) (he : e ≤ place (mant * 2 ^ e)) :
    ∃ n : Nat, RoundsToNat n (mant * 2 ^ e / 2 ^ place (mant * 2 ^ e)) ∧
      Rounded (roundWithAccuracy .binary64 .positive mant e .exact) (n * 2 ^ place (mant * 2 ^ e)) := by
  have hvalue := value_pos hmant e
  have hexact : Describes (.ofMantissaAndAccuracy mant .exact) ((mant : ℚ) * 2 ^ e / 2 ^ e) := by
    rw [mul_div_cancel_right₀ _ (two_zpow_pos e).ne']
    exact describes_exact mant
  obtain ⟨em, hfirst, hdesc⟩ := hexact.toTarget (place_eq hmant e).symm he
  have hnearest := hdesc.roundsToNat
  have hhigh := (lt_of_place ((mant : ℚ) * 2 ^ e)).le
  have hfull := le_of_place hvalue
  have hleast : -1074 ≤ place ((mant : ℚ) * 2 ^ e) := le_max_right _ _
  refine ⟨em.roundedMantissa, hnearest, ?_⟩
  generalize place ((mant : ℚ) * 2 ^ e) = t at *
  generalize hn : em.roundedMantissa = n at *
  have hmax : n ≤ 2 ^ 53 := by
    refine hnearest.mono (roundsToNat_self _) ?_
    rw [div_le_iff₀ (two_zpow_pos t)]
    exact_mod_cast hhigh
  rcases Nat.eq_zero_or_pos n with rfl | hpos
  · have hsecond := shiftToTarget_of_lt (m := 0) (by norm_num) hleast
    have hzero : roundWithAccuracy .binary64 .positive mant e .exact = .zero .positive := by
      simp only [roundWithAccuracy, hfirst, hn, hsecond, dif_pos]
    rw [hzero, Nat.cast_zero, zero_mul]
    exact .zero
  · rcases Nat.lt_or_eq_of_le hmax with hlt | rfl
    · have hsecond : shiftToTargetExponent .binary64 em.roundedMantissa t .exact = (⟨n, false, false⟩, t) := by
        rw [hn]
        exact shiftToTarget_of_lt hlt hleast
      rw [roundWithAccuracy_of_shifts .positive hfirst hsecond hpos]
      refine .finite hpos hlt hleast ?_
      rcases hleast.eq_or_lt with heq | hmore
      · exact .inr heq.symm
      · refine .inl ((roundsToNat_self _).mono hnearest ?_)
        rw [le_div_iff₀ (two_zpow_pos t)]
        exact_mod_cast hfull hmore
    -- Rounding up has made the mantissa a power of two.
    · have hcarry := shiftToTarget_carry (q := t + 1) (by omega)
      rw [add_sub_cancel_right, ← hn] at hcarry
      have hpower : ((2 ^ 53 : Nat) : ℚ) * 2 ^ t = ((2 ^ 52 : Nat) : ℚ) * 2 ^ (t + 1) := by
        rw [zpow_add_one₀ (by norm_num)]
        push_cast
        ring
      rw [roundWithAccuracy_of_shifts .positive hfirst hcarry (by norm_num), hpower]
      exact .finite _ (by norm_num) (by omega) (.inl le_rfl)

theorem value_double {m : Nat} {q : Int} (h : Canonical m q) :
    isFinite (double false m q h.pos) = true ∧ value (double false m q h.pos) = m * 2 ^ q :=
  value_of_shape (shape_double h false)

/-- A result that is not too great is packed as it is. -/
theorem Rounded.pack {a : UnpackedFloat} {w : ℚ} (h : Rounded a w) (hw : w < 2 ^ (1024 : Int)) :
    isFinite (.ofModel (.pack a)) = true ∧ value (.ofModel (.pack a)) = w := by
  cases h with
  | zero => exact ⟨rfl, rfl⟩
  | @finite m q hm hlt hleast hnormal =>
    have hgreatest : q ≤ 971 := by
      rcases hnormal with hfull | rfl
      · have hpow : (2 : ℚ) ^ (q + (52 : Nat)) < 2 ^ (1024 : Int) := by
          rw [two_zpow_add_nat]
          refine (mul_le_mul_of_nonneg_right ?_ (two_zpow_pos q).le).trans_lt hw
          exact_mod_cast hfull
        have := lt_of_two_zpow_lt hpow
        omega
      · omega
    exact value_double ⟨hm, hlt, hleast, hgreatest, hnormal⟩

theorem value_lt (hz : isFinite z = true) : value z < 2 ^ (1024 : Int) := by
  unfold value
  rcases unpack_of_isFinite hz with ⟨s, hz⟩ | ⟨s, m, q, hm, hz⟩ <;> rw [hz]
  · exact two_zpow_pos 1024
  · cases s
    · exact (neg_neg_of_pos (value_pos hm q)).trans (two_zpow_pos 1024)
    · have hc := canonical_of_unpack hz
      calc (m : ℚ) * 2 ^ q < 2 ^ 53 * 2 ^ q := by
            have : (m : ℚ) < 2 ^ 53 := by exact_mod_cast hc.lt
            exact mul_lt_mul_of_pos_right this (two_zpow_pos q)
        _ = 2 ^ (q + (53 : Nat)) := (two_zpow_add_nat q 53).symm
        _ ≤ 2 ^ (1024 : Int) := two_zpow_le (by have := hc.greatest; omega)

theorem rounds_pack {v : ℚ} {a : UnpackedFloat} {n : Nat} (hv : 0 ≤ v) (hz : isFinite z = true) (hvz : v ≤ value z)
    (hn : RoundsToNat n (v / 2 ^ place v)) (ha : Rounded a (n * 2 ^ place v)) : Rounds v (.ofModel (.pack a)) := by
  obtain ⟨k, hk, hzk⟩ := (rounds_self hz (hv.trans hvz)).nearest
  have hle := rounded_mono hv hvz hn hk
  rw [← hzk] at hle
  obtain ⟨hfinite, hvalue⟩ := ha.pack (hle.trans_lt (value_lt hz))
  exact ⟨hfinite, n, hn, hvalue⟩

theorem rounds_zero (s : Sign) : Rounds 0 (.ofModel (.pack (.zero s))) := by
  have hx : isFinite (.ofModel (.pack (.zero s))) = true ∧ value (.ofModel (.pack (.zero s))) = 0 := by
    cases s <;> exact ⟨rfl, rfl⟩
  have hself := rounds_self hx.1 hx.2.ge
  rwa [hx.2] at hself

/-- **Products** are rounded, if they do not exceed a finite double. -/
theorem mul_rounds (hx : isFinite x = true) (hy : isFinite y = true) (hz : isFinite z = true) (hx₀ : 0 ≤ value x)
    (hy₀ : 0 ≤ value y) (hle : value x * value y ≤ value z) : Rounds (value x * value y) (x * y) := by
  have hnonneg := mul_nonneg hx₀ hy₀
  change Rounds _ (.ofModel (.pack (UnpackedFloat.mul .binary64 x.toModel.unpack y.toModel.unpack)))
  rcases unpack_of_nonneg hx hx₀ with ⟨hxv, s, hx⟩ | ⟨m, q, hm, hmq, hx, hxv⟩ <;>
    rcases unpack_of_nonneg hy hy₀ with ⟨hyv, t, hy⟩ | ⟨n, k, hn, hnk, hy, hyv⟩ <;> rw [hx, hy]
  · rw [hxv, zero_mul]
    exact rounds_zero _
  · rw [hxv, zero_mul]
    exact rounds_zero _
  · rw [hyv, mul_zero]
    exact rounds_zero _
  · have hpos : 0 < m * n := Nat.mul_pos hm hn
    have hexact : value x * value y = (m * n : Nat) * 2 ^ (q + k) := by
      rw [hxv, hyv, zpow_add₀ (by norm_num)]
      push_cast
      ring
    rw [hexact] at hnonneg hle ⊢
    -- If a mantissa has full length, so has the product; if none has, the product is far below the least place.
    have hplace : q + k ≤ place ((m * n : Nat) * 2 ^ (q + k)) := by
      rw [place_eq hpos]
      rcases hmq.normal with hfull | hsub
      · have := (Nat.le_log2 hpos.ne').mpr (hfull.trans (Nat.le_mul_of_pos_right m hn))
        omega
      · rcases hnk.normal with hfull | hsub'
        · have := (Nat.le_log2 hpos.ne').mpr (hfull.trans (Nat.le_mul_of_pos_left n hm))
          omega
        · omega
    obtain ⟨r, hr, hrounded⟩ := roundWithAccuracy_nearest hpos hplace
    exact rounds_pack hnonneg hz hle hr hrounded

theorem shiftLeft_mul_zpow (m k : Nat) (e : Int) : ((m <<< k : Nat) : ℚ) * 2 ^ (e - k) = m * 2 ^ e := by
  have hpow : (2 : ℚ) ^ e = 2 ^ k * 2 ^ (e - k) := by
    rw [← two_zpow_add_nat, sub_add_cancel]
  rw [Nat.shiftLeft_eq, hpow]
  push_cast
  ring

theorem round_nearest {mant : Nat} (e : Int) (hmant : 0 < mant) :
    ∃ n : Nat, RoundsToNat n (mant * 2 ^ e / 2 ^ place (mant * 2 ^ e)) ∧
      Rounded (UnpackedFloat.round .binary64 .positive mant e) (n * 2 ^ place (mant * 2 ^ e)) := by
  have htarget : Format.binary64.targetExponent (totalExponent mant e) = place (mant * 2 ^ e) := by
    rw [target_eq, place_eq hmant]
  simp only [UnpackedFloat.round, decreaseExponent, htarget]
  generalize hk : (e - place (mant * 2 ^ e)).toNat = k
  have hvalue := shiftLeft_mul_zpow mant k e
  have hpos : 0 < mant <<< k := by
    rw [Nat.shiftLeft_eq]
    positivity
  have hnearest := roundWithAccuracy_nearest (e := e - k) hpos (by rw [hvalue]; omega)
  rwa [hvalue] at hnearest

/-- The sum of two positive doubles is that of the mantissas at the lesser exponent, rounded. -/
theorem add_positive {m n : Nat} {q k : Int} (hm : 0 < m) (hn : 0 < n) :
    UnpackedFloat.add .binary64 (.finite .positive m q hm) (.finite .positive n k hn) =
      UnpackedFloat.round .binary64 .positive (m <<< (q - min q k).toNat + n <<< (k - min q k).toNat) (min q k) := by
  have hpos : 0 < m <<< (q - min q k).toNat := by
    rw [Nat.shiftLeft_eq]
    positivity
  simp only [UnpackedFloat.add, decreaseExponent, Sign.apply, UnpackedFloat.normalize]
  generalize m <<< (q - min q k).toNat = a at *
  generalize n <<< (k - min q k).toNat = b
  have hcompare : compare ((a : Int) + b) 0 = .gt := by
    rw [compare_gt_iff_gt]
    omega
  rw [hcompare]
  rfl

/-- **Sums** are rounded, if they do not exceed a finite double. -/
theorem add_rounds (hx : isFinite x = true) (hy : isFinite y = true) (hz : isFinite z = true) (hx₀ : 0 ≤ value x)
    (hy₀ : 0 ≤ value y) (hle : value x + value y ≤ value z) : Rounds (value x + value y) (x + y) := by
  have hnonneg := add_nonneg hx₀ hy₀
  have hself (w : Float) (hw : isFinite w = true) (hw₀ : 0 ≤ value w) :
      Rounds (value w) (.ofModel (.pack w.toModel.unpack)) := by
    rw [pack_unpack_model]
    exact rounds_self hw hw₀
  have hxself := hself x hx hx₀
  have hyself := hself y hy hy₀
  change Rounds _ (.ofModel (.pack (UnpackedFloat.add .binary64 x.toModel.unpack y.toModel.unpack)))
  rcases unpack_of_nonneg hx hx₀ with ⟨hxv, s, hx⟩ | ⟨m, q, hm, hmq, hx, hxv⟩ <;>
    rcases unpack_of_nonneg hy hy₀ with ⟨hyv, t, hy⟩ | ⟨n, k, hn, hnk, hy, hyv⟩ <;> rw [hx] at hxself ⊢ <;>
    rw [hy] at hyself ⊢
  · rw [hxv, hyv, zero_add]
    simp only [UnpackedFloat.add]
    split <;> exact rounds_zero _
  · rwa [hxv, zero_add]
  · rwa [hyv, add_zero]
  · have hpos : 0 < m <<< (q - min q k).toNat + n <<< (k - min q k).toNat := by
      rw [Nat.shiftLeft_eq]
      positivity
    have hexact : value x + value y = (m <<< (q - min q k).toNat + n <<< (k - min q k).toNat : Nat) * 2 ^ min q k := by
      rw [hxv, hyv, ← shiftLeft_mul_zpow m (q - min q k).toNat q, ← shiftLeft_mul_zpow n (k - min q k).toNat k,
        show q - (q - min q k).toNat = min q k by omega, show k - (k - min q k).toNat = min q k by omega]
      push_cast
      ring
    rw [hexact] at hnonneg hle ⊢
    obtain ⟨r, hr, hrounded⟩ := round_nearest (min q k) hpos
    rw [add_positive]
    exact rounds_pack hnonneg hz hle hr hrounded

/-- A part of a double is rounded. -/
theorem Fraction.mul_rounds {u : Float} (hu : Fraction u) (hx : Number.isFinite x = true) (hx₀ : 0 ≤ value x) :
    Rounds (value x * value u) (x * u) :=
  Number.mul_rounds hx hu.isFinite hx hx₀ hu.nonneg (mul_le_of_le_one_right hx₀ hu.le_one)

end Forager.Number
