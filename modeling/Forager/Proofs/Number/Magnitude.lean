import Forager.Proofs.Number.Differences
import Forager.Proofs.Number.Values

/-!
# The magnitude of results

Rounding treats both signs alike. So a product or a difference of doubles is finite, and its magnitude at most that of
some double, as soon as this holds of the exact result.

* `Within v x` : `x` is finite, and its magnitude is at most `v`;
* `mul_within`, `sub_within` : products, and differences of doubles that are not negative.
-/

namespace Forager.Number

set_option autoImplicit false

open Float.Model Float.Model.UnpackedFloat

/-- A finite double of a magnitude up to `v`. -/
structure Within (v : ℚ) (x : Float) : Prop where
  isFinite : isFinite x = true
  le : |value x| ≤ v

theorem Within.mono {v w : ℚ} {x : Float} (h : Within v x) (hvw : v ≤ w) : Within w x := ⟨h.isFinite, h.le.trans hvw⟩

theorem within_of_nonneg {x : Float} {v : ℚ} (hx : isFinite x = true) (h₀ : 0 ≤ value x) (h : value x ≤ v) :
    Within v x :=
  ⟨hx, by rwa [abs_of_nonneg h₀]⟩

/-! ## Signs -/

theorem valueOf_abs (a : UnpackedFloat) : valueOf a.abs = |valueOf a| := by
  cases a with
  | finite s m q hm =>
    have hpos := value_pos hm q
    cases s
    · change (m : ℚ) * 2 ^ q = |-((m : ℚ) * 2 ^ q)|
      rw [abs_neg, abs_of_pos hpos]
    · exact (abs_of_pos hpos).symm
  | _ => exact abs_zero.symm

/-- What is finite, and how great it is, does not depend on the sign. -/
theorem Within.of_abs {v : ℚ} {x y : Float} (h : Within v y) (habs : x.toModel.unpack.abs = y.toModel.unpack.abs) :
    Within v x := by
  refine ⟨?_, ?_⟩
  · have hy := h.isFinite
    unfold Number.isFinite at hy ⊢
    rw [shape_eq] at hy ⊢
    revert habs hy
    cases x.toModel.unpack <;> cases y.toModel.unpack <;> simp [UnpackedFloat.abs, shapeOf]
  · have hle := h.le
    unfold value at hle ⊢
    rwa [← valueOf_abs, habs, valueOf_abs]

theorem value_abs {x : Float} (hx : isFinite x = true) :
    isFinite x.abs = true ∧ value x.abs = |value x| ∧ x.abs.toModel.unpack.abs = x.toModel.unpack.abs := by
  have hmodel : x.abs = .ofModel (.pack x.toModel.unpack.abs) := rfl
  rcases unpack_of_isFinite hx with ⟨s, hx⟩ | ⟨s, m, q, hm, hx⟩
  · have hzero : x.abs = 0 := by rw [hmodel, hx]; rfl
    unfold value
    rw [hzero, hx]
    exact ⟨value_zero.1, value_zero.2.trans abs_zero.symm, rfl⟩
  · have hc := canonical_of_unpack hx
    have hdouble : x.abs = double false m q hm := by rw [hmodel, hx]; rfl
    have hunpack : (double false m q hm).toModel.unpack = .finite .positive m q hm := unpack_pack hc _
    have hvalue : value x = valueOf (.finite s m q hm) := congrArg valueOf hx
    rw [hdouble, hvalue, ← valueOf_abs, hunpack, hx]
    exact ⟨(value_double hc).1, (value_double hc).2, rfl⟩

theorem within_of_abs_le {x z : Float} (hx : isFinite x = true) (hz : isFinite z = true) (h : x.abs ≤ z) :
    Within (value z) x := by
  obtain ⟨hfinite, hvalue, -⟩ := value_abs hx
  rw [le_iff_value hfinite hz, hvalue] at h
  exact ⟨hx, h⟩

/-! ## Products -/

theorem abs_mul_unpacked (spec : Format) {a b c d : UnpackedFloat} (hab : a.abs = b.abs) (hcd : c.abs = d.abs) :
    (UnpackedFloat.mul spec a c).abs = (UnpackedFloat.mul spec b d).abs := by
  cases a <;> cases b <;> cases hab <;> cases c <;> cases d <;> cases hcd <;> try rfl
  exact abs_roundWithAccuracy spec _ _ _ _ _

theorem Rounds.within {v : ℚ} {x z : Float} (h : Rounds v x) (hv : 0 ≤ v) (hz : Number.isFinite z = true)
    (hvz : v ≤ value z) : Within (value z) x := by
  have hle := h.le (rounds_self hz (hv.trans hvz)) hv hvz
  rw [le_iff_value h.isFinite hz] at hle
  exact within_of_nonneg h.isFinite h.value_nonneg hle

/-- **Products** are finite if their magnitude is that of a finite double at most. -/
theorem mul_within {v w : ℚ} {x y z : Float} (hx : Within v x) (hy : Within w y) (hz : isFinite z = true)
    (h : v * w ≤ value z) : Within (value z) (x * y) := by
  obtain ⟨hx', hxv, hxabs⟩ := value_abs hx.isFinite
  obtain ⟨hy', hyv, hyabs⟩ := value_abs hy.isFinite
  have hx₀ : 0 ≤ value x.abs := hxv ▸ abs_nonneg _
  have hy₀ : 0 ≤ value y.abs := hyv ▸ abs_nonneg _
  have hle : value x.abs * value y.abs ≤ value z := by
    rw [hxv, hyv]
    exact (mul_le_mul hx.le hy.le (abs_nonneg _) ((abs_nonneg _).trans hx.le)).trans h
  have hrounds := mul_rounds hx' hy' hz hx₀ hy₀ hle
  exact (hrounds.within (mul_nonneg hx₀ hy₀) hz hle).of_abs
    (abs_unpack_pack (abs_mul_unpacked .binary64 hxabs.symm hyabs.symm))

/-! ## Differences -/

theorem abs_normalize {d : ℤ} (hd : d ≠ 0) (e : ℤ) (s : Sign) :
    (UnpackedFloat.normalize .binary64 d e s).abs = (UnpackedFloat.round .binary64 .positive d.natAbs e).abs := by
  unfold UnpackedFloat.normalize
  rcases lt_or_gt_of_ne hd with hlt | hgt
  · rw [compare_lt_iff_lt.mpr hlt]
    dsimp only
    rw [abs_round .binary64 .negative .positive, show (-d).toNat = d.natAbs by omega]
  · rw [compare_gt_iff_gt.mpr hgt]
    dsimp only
    rw [show d.toNat = d.natAbs by omega]

/-- **Differences** of doubles that are not negative are finite, and no greater than the greater of the two. -/
theorem sub_within {x y z : Float} (hx : isFinite x = true) (hy : isFinite y = true) (hz : isFinite z = true)
    (hx₀ : 0 ≤ value x) (hy₀ : 0 ≤ value y) (hxz : value x ≤ value z) (hyz : value y ≤ value z) :
    Within (value z) (x - y) := by
  have hxself := within_of_nonneg hx hx₀ hxz
  have hyself := within_of_nonneg hy hy₀ hyz
  have hzero : ∀ s, Within (value z) (.ofModel (.pack (.zero s))) := fun s =>
    (rounds_zero s).within le_rfl hz (hx₀.trans hxz)
  have hmodel : (x - y).toModel =
      .pack (UnpackedFloat.sub .binary64 x.toModel.unpack y.toModel.unpack) := rfl
  rcases unpack_of_nonneg hx hx₀ with ⟨-, s, hxu⟩ | ⟨m, q, hm, hmq, hxu, hxv⟩ <;>
    rcases unpack_of_nonneg hy hy₀ with ⟨-, t, hyu⟩ | ⟨n, k, hn, hnk, hyu, hyv⟩ <;> rw [hxu, hyu] at hmodel
  · refine (hzero .positive).of_abs ?_
    rw [hmodel]
    refine abs_unpack_pack ?_
    cases s <;> cases t <;> rfl
  · refine hyself.of_abs ?_
    rw [hmodel, ← pack_unpack_model y.toModel, hyu]
    exact abs_unpack_pack rfl
  · refine hxself.of_abs ?_
    rw [hmodel, ← pack_unpack_model x.toModel, hxu]
    exact abs_unpack_pack rfl
  · -- The mantissas are brought to the lesser exponent; what is left of them is rounded.
    have ha := shiftLeft_mul_zpow m (q - min q k).toNat q
    have hb := shiftLeft_mul_zpow n (k - min q k).toNat k
    rw [show q - (q - min q k).toNat = min q k by omega, ← hxv] at ha
    rw [show k - (k - min q k).toNat = min q k by omega, ← hyv] at hb
    simp only [UnpackedFloat.sub, decreaseExponent, Sign.apply] at hmodel
    generalize m <<< (q - min q k).toNat = a at ha hmodel
    generalize n <<< (k - min q k).toNat = b at hb hmodel
    by_cases hd : (a : ℤ) - b = 0
    · refine (hzero .positive).of_abs ?_
      rw [hmodel, hd]
      rfl
    · have hpos : 0 < ((a : ℤ) - b).natAbs := Int.natAbs_pos.mpr hd
      obtain ⟨r, hr, hrounded⟩ := round_nearest (min q k) hpos
      have hexact : (((a : ℤ) - b).natAbs : ℚ) * 2 ^ min q k = |value x - value y| := by
        rw [← ha, ← hb, ← sub_mul, abs_mul, abs_of_pos (two_zpow_pos _), Nat.cast_natAbs]
        push_cast
        rfl
      have hle : |value x - value y| ≤ value z := abs_sub_le_of_nonneg_of_le hx₀ hxz hy₀ hyz
      rw [hexact] at hr hrounded
      have hrounds := rounds_pack (abs_nonneg _) hz hle hr hrounded
      refine (hrounds.within (abs_nonneg _) hz hle).of_abs ?_
      rw [hmodel]
      exact abs_unpack_pack (abs_normalize hd _ _)

end Forager.Number
