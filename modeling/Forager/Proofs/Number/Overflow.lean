import Forager.Proofs.Number.Packing

/-!
# Results that are numbers

Which operations on doubles give a number or an infinity, and never NaN:

* `isNaN_pack` : packing makes no NaN, however large the result;
* `isNaN_add`, `isNaN_sub`, `isNaN_mul`, `isNaN_div` : operations with one finite operand;
* `add_mul_zero` : adding a multiple of zero changes nothing, unless it gives NaN;
* `exists_infinite` : a double that is neither NaN nor finite is an infinity.
-/

namespace Forager.Number

set_option autoImplicit false

open Float.Model Float.Model.UnpackedFloat

/-- Unpacking finds NaN only under a full exponent. -/
theorem isNaN_unpack_of_exponent {b : BitVec Format.binary64.numBits} (h : unpackExponent b ≠ -1#11) :
    (UnpackedFloat.unpack .binary64 b).isNaN = false := by
  simp only [UnpackedFloat.unpack, if_neg h]
  split
  · split <;> rfl
  · rfl

theorem isNaN_packedInfinity (s : Sign) :
    (UnpackedFloat.unpack .binary64 (packedInfinity .binary64 s)).isNaN = false := by
  simp only [UnpackedFloat.unpack, packedInfinity, unpackMantissa_packComponents, unpackExponent_packComponents]
  rfl

/-- A number that is too large is packed as an infinity, and no other number has a full exponent. -/
theorem isNaN_pack {x : UnpackedFloat} (h : x.isNaN = false) : (Float.Model.pack x).unpack.isNaN = false := by
  change (UnpackedFloat.unpack .binary64 (UnpackedFloat.pack .binary64 x)).isNaN = false
  cases x with
  | notANumber => cases h
  | infinity s => exact isNaN_packedInfinity s
  | zero s => exact isNaN_unpack_of_exponent (by simp [UnpackedFloat.pack, packedZero])
  | finite s m q hm =>
    simp only [UnpackedFloat.pack]
    generalize (q + Format.binary64.exponentBias + (52 : Nat)).toNat = biased
    split
    · exact isNaN_packedInfinity s
    · rename_i htop
      split
      · refine isNaN_unpack_of_exponent ?_
        rw [unpackExponent_packComponents]
        intro hfull
        have hnat : biased % 2 ^ 11 = 2047 := congrArg BitVec.toNat hfull
        omega
      · exact isNaN_unpack_of_exponent (by simp)

theorem isNaN_roundWithAccuracy (s : Sign) (m : Nat) (e : Int) (acc : Accuracy) :
    (roundWithAccuracy .binary64 s m e acc).isNaN = false := by
  simp only [roundWithAccuracy]
  split <;> rfl

theorem isNaN_normalize (n e : Int) (s : Sign) : (UnpackedFloat.normalize .binary64 n e s).isNaN = false := by
  unfold UnpackedFloat.normalize
  split
  · exact isNaN_roundWithAccuracy _ _ _ _
  · rfl
  · exact isNaN_roundWithAccuracy _ _ _ _

/-! ## Operations -/

theorem isNaN_toFloat (n : UInt64) : n.toFloat.isNaN = false := isNaN_pack (isNaN_normalize _ _ _)

variable {x y : Float}

/-- A double of a finite shape is unpacked as zero or as a finite number. -/
theorem unpack_of_isFinite (h : isFinite x = true) :
    (∃ s, x.toModel.unpack = .zero s) ∨ ∃ s m q hm, x.toModel.unpack = .finite s m q hm := by
  rw [isFinite, shape_eq] at h
  match hx : x.toModel.unpack with
  | .notANumber => simp [hx, shapeOf] at h
  | .infinity s => simp [hx, shapeOf] at h
  | .zero s => exact .inl ⟨s, rfl⟩
  | .finite s m q hm => exact .inr ⟨s, m, q, hm, rfl⟩

theorem isNaN_add (hx : isFinite x = true) (hy : y.isNaN = false) : (x + y).isNaN = false := by
  refine isNaN_pack (x := UnpackedFloat.add .binary64 x.toModel.unpack y.toModel.unpack) ?_
  change y.toModel.unpack.isNaN = false at hy
  rcases unpack_of_isFinite hx with ⟨s, hx⟩ | ⟨s, m, q, hm, hx⟩ <;> rw [hx] <;>
    rcases hu : y.toModel.unpack with t | _ | t | ⟨t, n, k, hn⟩ <;> rw [hu] at hy
  · rfl
  · cases hy
  · simp only [UnpackedFloat.add]
    split <;> rfl
  · rfl
  · rfl
  · cases hy
  · rfl
  · exact isNaN_normalize _ _ _

theorem isNaN_sub (hx : x.isNaN = false) (hy : isFinite y = true) : (x - y).isNaN = false := by
  refine isNaN_pack (x := UnpackedFloat.sub .binary64 x.toModel.unpack y.toModel.unpack) ?_
  change x.toModel.unpack.isNaN = false at hx
  rcases unpack_of_isFinite hy with ⟨t, hy⟩ | ⟨t, n, k, hn, hy⟩ <;> rw [hy] <;>
    rcases hu : x.toModel.unpack with s | _ | s | ⟨s, m, q, hm⟩ <;> rw [hu] at hx
  · rfl
  · cases hx
  · simp only [UnpackedFloat.sub]
    split <;> rfl
  · rfl
  · rfl
  · cases hx
  · rfl
  · exact isNaN_normalize _ _ _

theorem unpack_of_nonzero (h : isFinite x = true) (hzero : (x == 0) = false) :
    ∃ s m q hm, x.toModel.unpack = .finite s m q hm := by
  rcases unpack_of_isFinite h with ⟨s, hx⟩ | hx
  · have hequal : (x == 0) = true := by
      change x.toModel.unpack.beq (0 : Float).toModel.unpack = true
      rw [hx]
      rfl
    rw [hequal] at hzero
    cases hzero
  · exact hx

/-- Only the product of a zero and an infinity is no number. -/
theorem isNaN_mul (hx : isFinite x = true) (hzero : (x == 0) = false) (hy : y.isNaN = false) :
    (x * y).isNaN = false := by
  refine isNaN_pack (x := UnpackedFloat.mul .binary64 x.toModel.unpack y.toModel.unpack) ?_
  change y.toModel.unpack.isNaN = false at hy
  obtain ⟨s, m, q, hm, hx⟩ := unpack_of_nonzero hx hzero
  rw [hx]
  rcases hu : y.toModel.unpack with t | _ | t | ⟨t, n, k, hn⟩ <;> rw [hu] at hy
  · rfl
  · cases hy
  · rfl
  · exact isNaN_roundWithAccuracy _ _ _ _

theorem isNaN_mul_right (hx : x.isNaN = false) (hy : isFinite y = true) (hzero : (y == 0) = false) :
    (x * y).isNaN = false := by
  refine isNaN_pack (x := UnpackedFloat.mul .binary64 x.toModel.unpack y.toModel.unpack) ?_
  change x.toModel.unpack.isNaN = false at hx
  obtain ⟨t, n, k, hn, hy⟩ := unpack_of_nonzero hy hzero
  rw [hy]
  rcases hu : x.toModel.unpack with s | _ | s | ⟨s, m, q, hm⟩ <;> rw [hu] at hx
  · rfl
  · cases hx
  · rfl
  · exact isNaN_roundWithAccuracy _ _ _ _

/-- A multiple of zero is a zero or NaN. -/
theorem mul_zero_cases (y : Float) :
    (∃ s, (y * 0).toModel.unpack = .zero s) ∨ (y * 0).toModel.unpack = .notANumber := by
  have hmodel : (y * 0).toModel = .pack (UnpackedFloat.mul .binary64 y.toModel.unpack (.zero .positive)) := rfl
  have hproduct (a : UnpackedFloat) :
      (∃ s, UnpackedFloat.mul .binary64 a (.zero .positive) = .zero s) ∨
        UnpackedFloat.mul .binary64 a (.zero .positive) = .notANumber := by
    cases a with
    | infinity s => exact .inr rfl
    | notANumber => exact .inr rfl
    | zero s => exact .inl ⟨_, rfl⟩
    | finite s m q hm => exact .inl ⟨_, rfl⟩
  rw [hmodel]
  rcases hproduct y.toModel.unpack with ⟨s, h⟩ | h
  · rw [h]
    exact .inl ⟨s, by cases s <;> rfl⟩
  · rw [h]
    exact .inr rfl

/-- A multiple of zero that is added to a number leaves it as it is, unless the result is NaN. -/
theorem add_mul_zero (hx : isFinite x = true) (hzero : (x == 0) = false) (y : Float) :
    x + y * 0 = x ∨ x + y * 0 = nan := by
  have hmodel : x + y * 0 =
      .ofModel (.pack (UnpackedFloat.add .binary64 x.toModel.unpack (y * 0).toModel.unpack)) := rfl
  obtain ⟨s, m, q, hm, hunpack⟩ := unpack_of_nonzero hx hzero
  rw [hmodel, hunpack]
  rcases mul_zero_cases y with ⟨t, hy⟩ | hy
  · rw [hy]
    change Float.ofModel (.pack (.finite s m q hm)) = x ∨ _
    rw [← hunpack, pack_unpack_model]
    exact .inl rfl
  · rw [hy]
    exact .inr rfl

theorem isNaN_div (hx : x.isNaN = false) (hy : isFinite y = true) (hzero : (y == 0) = false) :
    (x / y).isNaN = false := by
  refine isNaN_pack (x := UnpackedFloat.div .binary64 x.toModel.unpack y.toModel.unpack) ?_
  change x.toModel.unpack.isNaN = false at hx
  obtain ⟨t, n, k, hn, hy⟩ := unpack_of_nonzero hy hzero
  rw [hy]
  rcases hu : x.toModel.unpack with s | _ | s | ⟨s, m, q, hm⟩ <;> rw [hu] at hx
  · rfl
  · cases hx
  · rfl
  · exact isNaN_roundWithAccuracy _ _ _ _

/-- A double that is neither NaN nor finite is an infinity. -/
theorem exists_infinite (hx : x.isNaN = false) (hfinite : isFinite x = false) :
    ∃ negative, shape x = .infinite negative := by
  change x.toModel.unpack.isNaN = false at hx
  rw [isFinite, shape_eq] at hfinite
  rw [shape_eq]
  match hu : x.toModel.unpack with
  | .notANumber => simp [hu, UnpackedFloat.isNaN] at hx
  | .infinity s => exact ⟨isNegative s, rfl⟩
  | .zero s => simp [hu, shapeOf] at hfinite
  | .finite s m q hm => simp [hu, shapeOf] at hfinite

end Forager.Number
