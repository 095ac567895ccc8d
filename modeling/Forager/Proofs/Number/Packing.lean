import Forager.Proofs.Number.Rounding

/-!
# Doubles and their bits

* `shapeOf` : the shape of an unpacked double;
* `shape_eq` : taking the bits of a double apart gives the shape of the unpacked double;
* `double s m q` : the double of sign `s` and magnitude `m * 2 ^ q`;
* `shape_double`, `eq_double_of_shape`, `neg_double` : doubles of a finite shape other than zero are those.
-/

namespace Forager.Number

set_option autoImplicit false

open Float.Model Float.Model.UnpackedFloat

/-! ## Fields -/

theorem toNat_unpackMantissa (b : BitVec Format.binary64.numBits) : (unpackMantissa b).toNat = b.toNat % 2 ^ 52 := by
  simp [unpackMantissa, BitVec.extractLsb_toNat]

theorem toNat_unpackExponent (b : BitVec Format.binary64.numBits) :
    (unpackExponent b).toNat = b.toNat / 2 ^ 52 % 2 ^ 11 := by
  simp [unpackExponent, BitVec.extractLsb_toNat, Nat.shiftRight_eq_div_pow]

theorem toNat_unpackSign (b : BitVec Format.binary64.numBits) : (unpackSign b).toNat = b.toNat / 2 ^ 63 := by
  have := b.isLt
  simp only [Format.numBits] at this
  simp only [unpackSign, BitVec.toNat_cast, BitVec.extractLsb_toNat, Nat.shiftRight_eq_div_pow]
  omega

theorem toNat_hidden_append (m : BitVec 52) : (1#1 ++ m).toNat = 2 ^ 52 + m.toNat := by
  rw [BitVec.toNat_append, ← Nat.shiftLeft_add_eq_or_of_lt m.isLt]
  rfl

/-! ## Shapes -/

def isNegative : Sign → Bool
  | .negative => true
  | .positive => false

def signOf (negative : Bool) : Sign := if negative then .negative else .positive

theorem signOf_isNegative (s : Sign) : signOf (isNegative s) = s := by
  cases s <;> rfl

theorem isNegative_signOf (b : Bool) : isNegative (signOf b) = b := by
  cases b <;> rfl

def shapeOf : UnpackedFloat → Shape
  | .notANumber => .nan
  | .infinity s => .infinite (isNegative s)
  | .zero s => .finite (isNegative s) 0 leastExponent
  | .finite s m q _ => .finite (isNegative s) m q

theorem biased_eq (bits : UInt64) :
    ((bits >>> 52) &&& 0x7FF).toNat = (@unpackExponent .binary64 bits.toBitVec).toNat := by
  rw [toNat_unpackExponent, UInt64.toNat_and, UInt64.toNat_shiftRight, UInt64.toNat_toBitVec]
  exact (Nat.and_two_pow_sub_one_eq_mod _ 11).trans (by rw [Nat.shiftRight_eq_div_pow]; rfl)

theorem fraction_eq (bits : UInt64) :
    (bits &&& 0xFFFFFFFFFFFFF).toNat = (@unpackMantissa .binary64 bits.toBitVec).toNat := by
  rw [toNat_unpackMantissa, UInt64.toNat_and, UInt64.toNat_toBitVec]
  exact Nat.and_two_pow_sub_one_eq_mod _ 52

theorem negative_eq (bits : UInt64) :
    (bits >>> 63 == 1) = isNegative (.ofBitVec (@unpackSign .binary64 bits.toBitVec)) := by
  have hlt := bits.toNat_lt
  have hbit : (bits >>> 63).toNat = (@unpackSign .binary64 bits.toBitVec).toNat := by
    rw [toNat_unpackSign, UInt64.toNat_shiftRight, UInt64.toNat_toBitVec, Nat.shiftRight_eq_div_pow]
    rfl
  by_cases hzero : @unpackSign .binary64 bits.toBitVec = 0#1
  · have hnat : (bits >>> 63).toNat = 0 := by rw [hbit, hzero]; rfl
    have hshift : bits >>> 63 = 0 := UInt64.toNat_inj.mp hnat
    rw [hshift, hzero]
    rfl
  · have hone : @unpackSign .binary64 bits.toBitVec = 1#1 := by
      apply BitVec.eq_of_toNat_eq
      have : (@unpackSign .binary64 bits.toBitVec).toNat ≠ 0 := fun h => hzero (BitVec.eq_of_toNat_eq h)
      have := (@unpackSign .binary64 bits.toBitVec).isLt
      simp only [BitVec.toNat_ofNat]
      omega
    have hnat : (bits >>> 63).toNat = 1 := by rw [hbit, hone]; rfl
    have hshift : bits >>> 63 = 1 := UInt64.toNat_inj.mp hnat
    rw [hshift, hone]
    rfl

/-- The shape of a double is that of the unpacked double. -/
theorem shape_eq (x : Float) : shape x = shapeOf x.toModel.unpack := by
  have hbits : x.toBits = x.toModel.toBits := rfl
  have htop (e : BitVec 11) : e = -1#11 ↔ e.toNat = 0x7FF := BitVec.toNat_inj.symm
  have hleast (e : BitVec 11) : e = 0#11 ↔ e.toNat = 0 := BitVec.toNat_inj.symm
  have hnone (m : BitVec 52) : m = 0#52 ↔ m.toNat = 0 := BitVec.toNat_inj.symm
  have hbias : Format.binary64.exponentBias = 1023 := rfl
  simp only [shape, Shape.ofBits, Float.Model.unpack, UnpackedFloat.unpack, hbits, biased_eq, fraction_eq,
    negative_eq, htop, hleast, hnone]
  split
  · split <;> rfl
  · split
    · rename_i hfin hsub
      split
      · rename_i hm
        rw [hm]
        rfl
      · simp only [shapeOf, hsub, hbias, leastExponent]
        rfl
    · simp only [shapeOf, hbias, hiddenBit]
      rw [toNat_hidden_append, Nat.add_comm]
      rfl

/-! ## Packing -/

/-- The biased exponent of a double. -/
theorem Canonical.biased {m : Nat} {q : Int} (h : Canonical m q) :
    ∃ b : Nat, (q + Format.binary64.exponentBias + (52 : Nat)).toNat = b ∧
      (b : Int) = q + 1075 ∧ 1 ≤ b ∧ b + 1 < 2 ^ 11 := by
  have hleast := h.least
  have hgreatest := h.greatest
  have hbias : Format.binary64.exponentBias = 1023 := rfl
  rw [hbias]
  refine ⟨_, rfl, ?_, ?_, ?_⟩ <;> omega

theorem Canonical.log2_lt {m : Nat} {q : Int} (h : Canonical m q) : m.log2 < 53 :=
  (Nat.log2_lt (Nat.pos_iff_ne_zero.mp h.pos)).mpr h.lt

theorem pack_normal {m : Nat} {q : Int} (h : Canonical m q) (hm : 2 ^ 52 ≤ m) (s : Sign) :
    ∃ b : Nat, (b : Int) = q + 1075 ∧ 1 ≤ b ∧ b + 1 < 2 ^ 11 ∧
      UnpackedFloat.pack .binary64 (.finite s m q h.pos) = packComponents .binary64 s (.ofNat 11 b) (.ofNat 52 m) := by
  obtain ⟨b, hb, heq, hone, htop⟩ := h.biased
  have hlog : m.log2 + 1 = 53 := by
    have := (Nat.le_log2 (Nat.pos_iff_ne_zero.mp h.pos)).mpr hm
    have := h.log2_lt
    omega
  refine ⟨b, heq, hone, htop, ?_⟩
  simp only [UnpackedFloat.pack, hb]
  rw [if_neg (by omega), if_pos (by rw [hlog]; rfl)]

theorem pack_subnormal {m : Nat} {q : Int} (h : Canonical m q) (hm : m < 2 ^ 52) (s : Sign) :
    UnpackedFloat.pack .binary64 (.finite s m q h.pos) = packComponents .binary64 s 0#11 (.ofNat 52 m) := by
  obtain ⟨b, hb, -, -, htop⟩ := h.biased
  have hlog : m.log2 < 52 := (Nat.log2_lt (Nat.pos_iff_ne_zero.mp h.pos)).mpr hm
  have hbits : Format.binary64.mantissaBits = 53 := rfl
  simp only [UnpackedFloat.pack, hb]
  rw [if_neg (by omega), if_neg (by omega)]

/-- Packing a double keeps it. -/
theorem unpack_pack {m : Nat} {q : Int} (h : Canonical m q) (s : Sign) :
    (Float.Model.pack (.finite s m q h.pos)).unpack = .finite s m q h.pos := by
  change UnpackedFloat.unpack .binary64 (UnpackedFloat.pack .binary64 (.finite s m q h.pos)) = _
  have hbias : Format.binary64.exponentBias = 1023 := rfl
  by_cases hm : 2 ^ 52 ≤ m
  -- The leading bit is left out, and the exponent field is neither empty nor full.
  · obtain ⟨b, heq, hone, htop, hpack⟩ := pack_normal h hm s
    have hnat : (BitVec.ofNat 11 b).toNat = b := Nat.mod_eq_of_lt (by omega)
    have hinf : BitVec.ofNat 11 b ≠ -1#11 := fun hc => by
      have := hnat.symm.trans (congrArg BitVec.toNat hc)
      simp at this
      omega
    have hzero : BitVec.ofNat 11 b ≠ 0#11 := fun hc => by
      have := hnat.symm.trans (congrArg BitVec.toNat hc)
      simp at this
      omega
    have hmant : (1#1 ++ BitVec.ofNat 52 m).toNat = m := by
      have := h.lt
      rw [toNat_hidden_append, BitVec.toNat_ofNat]
      omega
    rw [hpack]
    simp only [UnpackedFloat.unpack, unpackMantissa_packComponents, unpackExponent_packComponents,
      unpackSign_packComponents, Sign.ofBitVec_toBitVec, if_neg hinf, if_neg hzero, hmant, hnat, hbias]
    congr 1
    push_cast
    omega
  -- The exponent field is empty, and no bit is left out.
  · have hq := h.normal.resolve_left hm
    have hnat : (BitVec.ofNat 52 m).toNat = m := Nat.mod_eq_of_lt (by omega)
    have hzero : BitVec.ofNat 52 m ≠ 0#52 := fun hc => by
      have hpos := h.pos
      have := hnat.symm.trans (congrArg BitVec.toNat hc)
      simp at this
      omega
    rw [pack_subnormal h (by omega) s]
    simp only [UnpackedFloat.unpack, unpackMantissa_packComponents, unpackExponent_packComponents,
      unpackSign_packComponents, Sign.ofBitVec_toBitVec, dif_neg hzero, hnat, hbias, hq]
    rfl

/-- Packing what a double was unpacked to gives it back. -/
theorem pack_unpack_model (x : Float.Model) : Float.Model.pack x.unpack = x := by
  obtain ⟨bits, valid⟩ := x
  simp only [Float.Model.pack, Float.Model.unpack, pack_unpack_of_valid valid]

/-- A finite double other than zero is in canonical form. -/
theorem canonical_of_unpack {x : Float.Model} {s : Sign} {m : Nat} {q : Int} {hm : 0 < m}
    (h : x.unpack = .finite s m q hm) : Canonical m q := by
  have hbias : Format.binary64.exponentBias = 1023 := rfl
  obtain ⟨bits, valid⟩ := x
  have hexp : (@unpackExponent .binary64 bits.toBitVec).toNat < 2 ^ 11 := BitVec.isLt _
  have hfrac : (@unpackMantissa .binary64 bits.toBitVec).toNat < 2 ^ 52 := BitVec.isLt _
  simp only [Float.Model.unpack, UnpackedFloat.unpack, hbias] at h
  split at h
  · split at h <;> cases h
  · rename_i htop
    split at h
    · rename_i hsub
      split at h
      · cases h
      · injection h with hs hmant hq
        have hleast : q = -1074 := by
          rw [← hq, hsub]
          rfl
        exact ⟨hm, by omega, by omega, by omega, Or.inr hleast⟩
    · rename_i hnormal
      injection h with hs hmant hq
      rw [toNat_hidden_append] at hmant
      have hone : (@unpackExponent .binary64 bits.toBitVec).toNat ≠ 0 := fun h => hnormal (BitVec.eq_of_toNat_eq h)
      have hmax : (@unpackExponent .binary64 bits.toBitVec).toNat ≠ 2047 := fun h => htop (BitVec.eq_of_toNat_eq h)
      exact ⟨hm, by omega, by omega, by omega, Or.inl (by omega)⟩

/-! ## Doubles by their parts -/

/-- The double `m * 2 ^ q`, negated if `negative`. -/
def double (negative : Bool) (m : Nat) (q : Int) (hm : 0 < m) : Float :=
  .ofModel (.pack (.finite (signOf negative) m q hm))

theorem shape_double {m : Nat} {q : Int} (h : Canonical m q) (negative : Bool) :
    shape (double negative m q h.pos) = .finite negative m q := by
  rw [shape_eq, double, unpack_pack h, shapeOf, isNegative_signOf]

theorem neg_double {m : Nat} {q : Int} (h : Canonical m q) (negative : Bool) :
    -double negative m q h.pos = double (!negative) m q h.pos := by
  have hneg : -double negative m q h.pos = .ofModel (.pack (double negative m q h.pos).toModel.unpack.neg) := rfl
  rw [hneg, double, unpack_pack h]
  cases negative <;> rfl

/-- A double of a finite shape other than zero is the double of these parts. -/
theorem eq_double_of_shape {x : Float} {negative : Bool} {m : Nat} {q : Int}
    (h : shape x = .finite negative m q) (hm : m ≠ 0) :
    ∃ hc : Canonical m q, x = double negative m q hc.pos := by
  rw [shape_eq] at h
  match hx : x.toModel.unpack with
  | .notANumber => simp [hx, shapeOf] at h
  | .infinity s => simp [hx, shapeOf] at h
  | .zero s =>
    simp only [hx, shapeOf, Shape.finite.injEq] at h
    exact absurd h.2.1.symm hm
  | .finite s m' q' hpos =>
    simp only [hx, shapeOf, Shape.finite.injEq] at h
    obtain ⟨rfl, rfl, rfl⟩ := h
    refine ⟨canonical_of_unpack hx, ?_⟩
    rw [double, signOf_isNegative, ← hx, pack_unpack_model]

/-- The doubles whose shape has no digits are the two zeros. -/
theorem eq_zero_of_shape {x : Float} {negative : Bool} {q : Int} (h : shape x = .finite negative 0 q) :
    x = if negative then -0.0 else 0.0 := by
  have hplus : (0.0 : Float) = .ofModel (.pack (.zero .positive)) := by decide +kernel
  have hminus : (-0.0 : Float) = .ofModel (.pack (.zero .negative)) := by decide +kernel
  rw [shape_eq] at h
  match hx : x.toModel.unpack with
  | .notANumber => simp [hx, shapeOf] at h
  | .infinity s => simp [hx, shapeOf] at h
  | .finite s m q hpos =>
    simp only [hx, shapeOf, Shape.finite.injEq] at h
    omega
  | .zero s =>
    simp only [hx, shapeOf, Shape.finite.injEq] at h
    obtain ⟨rfl, -, -⟩ := h
    have hpack := pack_unpack_model x.toModel
    rw [hx] at hpack
    cases s
    · rw [isNegative, if_pos rfl, hminus, hpack]
    · rw [isNegative, if_neg (by decide), hplus, hpack]

end Forager.Number
