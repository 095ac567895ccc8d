import Mathlib
import Forager.Number.Double

/-!
# Differences of doubles

Rounding, packing and unpacking treat both signs alike, so the difference of two doubles has the same magnitude
whichever is taken from the other.

* `abs_round`, `abs_unpack_pack` : the magnitude of what is rounded, and of what is packed, does not depend on its sign;
* `abs_sub_swap` : hence neither does that of a difference on the order of its terms.
-/

namespace Forager.Number

set_option autoImplicit false

open Float.Model Float.Model.UnpackedFloat

theorem abs_roundWithAccuracy (spec : Format) (s t : Sign) (m : Nat) (e : Int) (acc : Accuracy) :
    (roundWithAccuracy spec s m e acc).abs = (roundWithAccuracy spec t m e acc).abs := by
  unfold roundWithAccuracy
  dsimp only
  split <;> rfl

/-- The magnitude of a rounded number does not depend on its sign. -/
theorem abs_round (spec : Format) (s t : Sign) (m : Nat) (e : Int) : (round spec s m e).abs = (round spec t m e).abs :=
  abs_roundWithAccuracy spec s t _ _ _

theorem abs_normalize_neg (spec : Format) (m e : Int) (s : Sign) :
    (UnpackedFloat.normalize spec (-m) e s).abs = (UnpackedFloat.normalize spec m e s).abs := by
  unfold UnpackedFloat.normalize
  rcases lt_trichotomy m 0 with h | rfl | h
  · rw [compare_lt_iff_lt.mpr h, compare_gt_iff_gt.mpr (neg_pos.mpr h)]
    exact abs_round spec _ _ _ e
  · rfl
  · rw [compare_gt_iff_gt.mpr h, compare_lt_iff_lt.mpr (neg_neg_of_pos h)]
    dsimp only
    rw [neg_neg]
    exact abs_round spec _ _ _ e

/-- Taking the one from the other or the other from the one makes no difference to the magnitude. -/
theorem abs_sub_unpacked (spec : Format) (a b : UnpackedFloat) :
    (UnpackedFloat.sub spec a b).abs = (UnpackedFloat.sub spec b a).abs := by
  cases a with
  | notANumber => cases b <;> rfl
  | infinity s =>
    cases b with
    | infinity t => cases s <;> cases t <;> rfl
    | _ => rfl
  | zero s =>
    cases b with
    | zero t => cases s <;> cases t <;> rfl
    | _ => rfl
  | finite s m e hm =>
    cases b with
    | finite t n k hn =>
      simp only [UnpackedFloat.sub]
      rw [min_comm k e, ← abs_normalize_neg, neg_sub]
    | _ => rfl

theorem abs_unpack_packComponents (s t : Sign) (e : BitVec 11) (m : BitVec 52) :
    (UnpackedFloat.unpack .binary64 (packComponents .binary64 s e m)).abs =
      (UnpackedFloat.unpack .binary64 (packComponents .binary64 t e m)).abs := by
  simp only [UnpackedFloat.unpack, unpackMantissa_packComponents, unpackExponent_packComponents,
    unpackSign_packComponents, Sign.ofBitVec_toBitVec]
  split
  · split <;> rfl
  · split
    · split <;> rfl
    · rfl

/-- The magnitude of a double does not depend on the sign it is packed with. -/
theorem abs_unpack_pack {a b : UnpackedFloat} (h : a.abs = b.abs) :
    (Float.Model.pack a).unpack.abs = (Float.Model.pack b).unpack.abs := by
  change (UnpackedFloat.unpack .binary64 (UnpackedFloat.pack .binary64 a)).abs =
    (UnpackedFloat.unpack .binary64 (UnpackedFloat.pack .binary64 b)).abs
  cases a with
  | notANumber =>
    cases b with
    | notANumber => rfl
    | _ => cases h
  | infinity s =>
    cases b with
    | infinity t => exact abs_unpack_packComponents s t _ _
    | _ => cases h
  | zero s =>
    cases b with
    | zero t => exact abs_unpack_packComponents s t _ _
    | _ => cases h
  | finite s m e hm =>
    cases b with
    | finite t n k hn =>
      cases h
      simp only [UnpackedFloat.pack, packedInfinity]
      split
      · exact abs_unpack_packComponents s t _ _
      · split <;> exact abs_unpack_packComponents s t _ _
    | _ => cases h

/-- **Differences have no direction.** -/
theorem abs_sub_swap (x y : Float) : (x - y).abs = (y - x).abs := by
  have habs (a b : Float) : (a - b).abs =
      .ofModel (.pack (Float.Model.pack (UnpackedFloat.sub .binary64 a.toModel.unpack b.toModel.unpack)).unpack.abs) :=
    rfl
  rw [habs, habs, abs_unpack_pack (abs_sub_unpacked .binary64 x.toModel.unpack y.toModel.unpack)]

end Forager.Number
