import Mathlib.Data.List.GetD
import Forager.Chance.Source
import Forager.Proofs.Computation

/-!
# What can be drawn

Whatever the source yields, a number drawn below `n` lies below `n`, and what is chosen from a list is a member of it.
Which one does not depend on what the members are.
-/

namespace Forager.Chance

set_option autoImplicit false

theorem belowWithin_lt {n : Nat} (width : Nat) (hn : 0 < n) (fuel : Nat) :
    Gives (· < n) (belowWithin width n fuel) := by
  induction fuel with
  | zero => exact .pure hn
  | succ fuel ih =>
    refine .bind (.any bits) fun x _ => ?_
    dsimp only
    split
    · exact .pure (Nat.mod_lt _ hn)
    · exact ih

/-- A number drawn below `n` lies below `n`. -/
theorem below_lt {n : Nat} (hn : 0 < n) : Gives (· < n) (below n) := belowWithin_lt _ hn _

/-- What is chosen is among the choices. -/
theorem choose_mem {α : Type} (default : α) {xs : List α} (hxs : xs ≠ []) : Gives (· ∈ xs) (choose default xs) := by
  refine .bind (below_lt (List.length_pos_iff.mpr hxs)) fun i hi => .pure ?_
  rw [List.getD_eq_getElem xs default hi]
  exact List.getElem_mem hi

/-- To choose among images is to choose first. -/
theorem choose_map {α β : Type} (f : α → β) (default : α) (xs : List α) :
    choose (f default) (xs.map f) = f <$> choose default xs := by
  unfold choose
  rw [List.length_map, map_bind]
  congr 1
  funext i
  rw [map_pure, List.getD_map]

end Forager.Chance
