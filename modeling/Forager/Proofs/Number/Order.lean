import Mathlib
import Forager.Number.Double

/-!
# The order of doubles

Doubles other than NaN are ordered like their ranks, so comparing them has all the laws of a linear order, except that
the two zeros are different doubles of the same rank.

* `rank x` : where a double stands, by its sign, its exponent and its mantissa;
* `lt_iff_rank`, `le_iff_rank` : comparing doubles that are numbers is comparing their ranks, from which the laws of
  a linear order follow (`Order.le_of_not_lt`, `Order.le_trans`, `Order.lt_of_le_of_lt`);
* `Order.not_le_of_lt` : of any two doubles at most one comparison holds.
-/

namespace Forager.Number

set_option autoImplicit false

open Float.Model Float.Model.UnpackedFloat

/-- The place of an unpacked double: its sign and whether it is finite, then its exponent, then its mantissa. -/
def rankOf : UnpackedFloat → ℤ ×ₗ ℤ ×ₗ ℤ
  | .notANumber => toLex (0, toLex (0, 0))
  | .infinity .negative => toLex (-2, toLex (0, 0))
  | .infinity .positive => toLex (2, toLex (0, 0))
  | .zero _ => toLex (0, toLex (0, 0))
  | .finite .negative m e _ => toLex (-1, toLex (-e, -m))
  | .finite .positive m e _ => toLex (1, toLex (e, m))

/-- The place of a double among all doubles. -/
def rank (x : Float) : ℤ ×ₗ ℤ ×ₗ ℤ := rankOf x.toModel.unpack

section

variable {α β : Type} [LinearOrder α] [LinearOrder β]

/-- Comparing is comparing the images under a map that keeps the order. -/
theorem compare_of_strictMono {f : α → β} (hf : StrictMono f) (a b : α) : compare (f a) (f b) = compare a b := by
  rcases lt_trichotomy a b with h | rfl | h
  · rw [compare_lt_iff_lt.mpr h, compare_lt_iff_lt.mpr (hf h)]
  · rw [compare_eq_iff_eq.mpr rfl, compare_eq_iff_eq.mpr rfl]
  · rw [compare_gt_iff_gt.mpr h, compare_gt_iff_gt.mpr (hf h)]

theorem compare_toLex (a a' : α) (b b' : β) :
    compare (toLex (a, b)) (toLex (a', b')) = (compare a a').then (compare b b') := by
  rcases lt_trichotomy a a' with h | rfl | h
  · rw [compare_lt_iff_lt.mpr h, compare_lt_iff_lt.mpr (Prod.Lex.toLex_lt_toLex.mpr (.inl h))]
    rfl
  · have hmono : StrictMono fun b : β => toLex (a, b) := fun b b' h => Prod.Lex.toLex_lt_toLex.mpr (.inr ⟨rfl, h⟩)
    rw [compare_of_strictMono hmono, compare_eq_iff_eq.mpr rfl]
    rfl
  · rw [compare_gt_iff_gt.mpr h, compare_gt_iff_gt.mpr (Prod.Lex.toLex_lt_toLex.mpr (.inl h))]
    rfl

end

theorem compare_eq_rank {a b : UnpackedFloat} (ha : a ≠ .notANumber) (hb : b ≠ .notANumber) :
    a.compare b = some (compare (rankOf a) (rankOf b)) := by
  have hcast (m n : ℕ) : compare (m : ℤ) (n : ℤ) = compare m n := compare_of_strictMono Nat.strictMono_cast m n
  have hneg (m n : ℤ) : compare (-m) (-n) = (compare m n).swap := by
    rw [← Std.OrientedOrd.eq_swap]
    rcases lt_trichotomy m n with h | rfl | h
    · rw [compare_gt_iff_gt.mpr h, compare_gt_iff_gt.mpr (neg_lt_neg h)]
    · rw [compare_eq_iff_eq.mpr rfl, compare_eq_iff_eq.mpr rfl]
    · rw [compare_lt_iff_lt.mpr h, compare_lt_iff_lt.mpr (neg_lt_neg h)]
  cases a with
  | notANumber => exact absurd rfl ha
  | infinity s =>
    cases b with
    | notANumber => exact absurd rfl hb
    | infinity t => cases s <;> cases t <;> rfl
    | zero t => cases s <;> rfl
    | finite t m e _ => cases s <;> cases t <;> rfl
  | zero s =>
    cases b with
    | notANumber => exact absurd rfl hb
    | infinity t => cases t <;> rfl
    | zero t => rfl
    | finite t m e _ => cases t <;> rfl
  | finite s m e _ =>
    cases b with
    | notANumber => exact absurd rfl hb
    | infinity t => cases s <;> cases t <;> rfl
    | zero t => cases s <;> rfl
    | finite t n k _ =>
      cases s <;> cases t
      · rw [UnpackedFloat.compare, rankOf, rankOf, compare_toLex, compare_toLex, hneg, hneg, hneg, hcast,
          Ordering.swap_then]
        rfl
      · rfl
      · rfl
      · rw [UnpackedFloat.compare, rankOf, rankOf, compare_toLex, compare_toLex, hcast]
        rfl

theorem ne_notANumber {x : Float} (h : x.isNaN = false) : x.toModel.unpack ≠ .notANumber := by
  intro hnan
  change x.toModel.unpack.isNaN = false at h
  rw [hnan] at h
  cases h

variable {x y z : Float}

/-- **Doubles that are numbers** are ordered like their ranks. -/
theorem lt_iff_rank (hx : x.isNaN = false) (hy : y.isNaN = false) : x < y ↔ rank x < rank y := by
  change decide (x.toModel < y.toModel) = true ↔ _
  rw [decide_eq_true_iff]
  change (x.toModel.unpack.compare y.toModel.unpack == some .lt) = true ↔ _
  rw [compare_eq_rank (ne_notANumber hx) (ne_notANumber hy), beq_iff_eq, Option.some.injEq, compare_lt_iff_lt,
    rank, rank]

theorem le_iff_rank (hx : x.isNaN = false) (hy : y.isNaN = false) : x ≤ y ↔ rank x ≤ rank y := by
  change decide (x.toModel ≤ y.toModel) = true ↔ _
  rw [decide_eq_true_iff]
  change (x.toModel.unpack.compare y.toModel.unpack).any (·.isLE) = true ↔ _
  rw [compare_eq_rank (ne_notANumber hx) (ne_notANumber hy), Option.any_some, Ordering.isLE_iff_ne_gt,
    compare_gt_iff_gt, not_lt, rank, rank]

/-- What is less than something is a number, and so is what it is less than. -/
theorem number_of_lt (h : x < y) : x.isNaN = false ∧ y.isNaN = false := by
  change decide (x.toModel < y.toModel) = true at h
  rw [decide_eq_true_iff] at h
  change (x.toModel.unpack.compare y.toModel.unpack == some .lt) = true at h
  change x.toModel.unpack.isNaN = false ∧ y.toModel.unpack.isNaN = false
  cases hx : x.toModel.unpack with
  | notANumber =>
    rw [hx] at h
    cases h
  | _ =>
    cases hy : y.toModel.unpack with
    | notANumber =>
      rw [hx, hy] at h
      cases h
    | _ => exact ⟨rfl, rfl⟩

namespace Order

theorem le_self (hx : x.isNaN = false) : x ≤ x := (le_iff_rank hx hx).mpr le_rfl

theorem le_of_not_lt (hx : x.isNaN = false) (hy : y.isNaN = false) (h : ¬ x < y) : y ≤ x := by
  rw [lt_iff_rank hx hy] at h
  exact (le_iff_rank hy hx).mpr (not_lt.mp h)

theorem not_le_of_lt (h : x < y) : ¬y ≤ x := by
  obtain ⟨hx, hy⟩ := number_of_lt h
  rw [le_iff_rank hy hx, not_le]
  exact (lt_iff_rank hx hy).mp h

theorem le_of_lt (hx : x.isNaN = false) (hy : y.isNaN = false) (h : x < y) : x ≤ y :=
  (le_iff_rank hx hy).mpr ((lt_iff_rank hx hy).mp h).le

theorem le_trans (hx : x.isNaN = false) (hy : y.isNaN = false) (hz : z.isNaN = false) (hxy : x ≤ y) (hyz : y ≤ z) :
    x ≤ z :=
  (le_iff_rank hx hz).mpr (((le_iff_rank hx hy).mp hxy).trans ((le_iff_rank hy hz).mp hyz))

theorem lt_of_le_of_lt (hx : x.isNaN = false) (hy : y.isNaN = false) (hz : z.isNaN = false) (hxy : x ≤ y)
    (hyz : y < z) : x < z :=
  (lt_iff_rank hx hz).mpr (((le_iff_rank hx hy).mp hxy).trans_lt ((lt_iff_rank hy hz).mp hyz))

end Order

end Forager.Number
