import Mathlib.Data.List.Basic
import Mathlib.Tactic.Common
import Forager.Sexp.Forest

/-!
# Exchanging subtrees

What changes and what stays when two subtrees change places.

* `treeWithin_inv` : what a node from which a tree is read looks like;
* `swap_changes` : what a swap that succeeds has found and changes; `swap_inv` : what becomes of texts and children;
* `mem_children_swap`, `head_swap` : what it does to a list, if the two nodes have the same text.
-/

namespace Forager.Sexp.Forest

set_option autoImplicit false

variable {f g : Forest} {x y : Ref}

theorem node?_update (f : Forest) (p : Ref) (change : Node → Node) (r : Ref) :
    (f.update p change).node? r = if p = r then (f.node? r).map change else f.node? r := by
  cases p with
  | negSucc n =>
    cases r with
    | negSucc m => simp [node?]
    | ofNat m => simp [update]
  | ofNat n =>
    cases r with
    | negSucc m => simp [node?]
    | ofNat m => simp only [update, node?, Array.getElem?_modify, Int.ofNat.injEq]

theorem children_eq (f : Forest) (r : Ref) : f.children r = ((f.node? r).map (·.children)).getD [] := by
  unfold children
  cases f.node? r <;> rfl

theorem text_eq (f : Forest) (r : Ref) : f.text r = (((f.node? r).map (·.text?)).getD none).getD "" := by
  unfold text
  cases f.node? r <;> rfl

theorem isList_eq (f : Forest) (r : Ref) : f.isList r = (((f.node? r).map (·.text?)).map (·.isNone)).getD false := by
  unfold isList
  cases f.node? r <;> rfl

theorem head_eq (f : Forest) (r : Ref) : f.head r = ((f.children r).map f.text).headD "" := by
  unfold head
  cases f.children r <;> rfl

theorem text_of_isList {r : Ref} (h : f.isList r = true) : f.text r = "" := by
  rw [isList_eq] at h
  rw [text_eq]
  generalize (f.node? r).map (·.text?) = text? at h ⊢
  rcases text? with - | - | text
  · rfl
  · rfl
  · cases h

/-! ## Reading -/

theorem map_of_mapM {α β : Type} {read : α → Option β} {as : List α} {bs : List β} (h : as.mapM read = some bs) :
    as.map read = bs.map some := by
  induction as generalizing bs with
  | nil =>
    cases h
    rfl
  | cons a as ih =>
    rw [List.mapM_cons] at h
    obtain ⟨b, hb, h⟩ := Option.bind_eq_some_iff.mp h
    obtain ⟨bs', hbs, h⟩ := Option.bind_eq_some_iff.mp h
    cases h
    rw [List.map_cons, List.map_cons, hb, ih hbs]

theorem mapM_of_map {α β : Type} {read : α → Option β} {as : List α} {bs : List β} (h : as.map read = bs.map some) :
    as.mapM read = some bs := by
  induction as generalizing bs with
  | nil =>
    rw [List.map_nil, eq_comm, List.map_eq_nil_iff] at h
    rw [h]
    rfl
  | cons a as ih =>
    cases bs with
    | nil => cases h
    | cons b bs =>
      obtain ⟨hb, hbs⟩ := List.cons.inj h
      rw [List.mapM_cons, hb, ih hbs]
      rfl

/-- A tree that is read is an atom's text, or the trees that are read from the children of a list. -/
theorem treeWithin_inv {fuel : Nat} {r : Ref} {s : Sexp} (h : f.treeWithin fuel r = some s) :
    (∃ text, s = .atom text ∧ (f.node? r).map (·.text?) = some (some text)) ∨
    ∃ items k, fuel = k + 1 ∧ s = .list items ∧ (f.node? r).map (·.text?) = some none ∧
      (f.children r).map (f.treeWithin k) = items.map some := by
  cases fuel with
  | zero => cases h
  | succ k =>
    rw [treeWithin] at h
    split at h
    · rename_i text _ _ hnode
      cases h
      exact .inl ⟨text, rfl, by rw [hnode]; rfl⟩
    · rename_i children hnode
      obtain ⟨items, hitems, h⟩ := Option.map_eq_some_iff.mp h
      refine .inr ⟨items, k, rfl, h.symm, by rw [hnode]; rfl, ?_⟩
      rw [children_eq, hnode]
      exact map_of_mapM hitems
    · cases h

theorem isList_of_treeWithin {fuel : Nat} {r : Ref} {s : Sexp} (h : f.treeWithin fuel r = some s) :
    f.isList r = s.isList := by
  rw [isList_eq]
  rcases treeWithin_inv h with ⟨text, rfl, htext⟩ | ⟨items, k, -, rfl, htext, -⟩
  · rw [htext]
    rfl
  · rw [htext]
    rfl

/-! ## Relinking -/

/-- Replaces one child of a list. -/
theorem children_update_set (f : Forest) (p : Ref) (i : Nat) (z r : Ref) :
    (f.update p fun n => { n with children := n.children.set i z }).children r =
      if p = r then (f.children r).set i z else f.children r := by
  rw [children_eq, children_eq, node?_update]
  split
  · cases f.node? r <;> rfl
  · rfl

theorem children_update_parent (f : Forest) (p : Ref) (parent : Option Ref) (r : Ref) :
    (f.update p fun n => { n with parent }).children r = f.children r := by
  rw [children_eq, children_eq, node?_update]
  split
  · cases f.node? r <;> rfl
  · rfl

theorem text?_update_children (f : Forest) (p : Ref) (below : Node → List Ref) (r : Ref) :
    ((f.update p fun n => { n with children := below n }).node? r).map (·.text?) = (f.node? r).map (·.text?) := by
  rw [node?_update]
  split
  · cases f.node? r <;> rfl
  · rfl

theorem text?_update_parent (f : Forest) (p : Ref) (parent : Option Ref) (r : Ref) :
    ((f.update p fun n => { n with parent }).node? r).map (·.text?) = (f.node? r).map (·.text?) := by
  rw [node?_update]
  split
  · cases f.node? r <;> rfl
  · rfl

theorem parent_update_children (f : Forest) (p : Ref) (below : Node → List Ref) (r : Ref) :
    (f.update p fun n => { n with children := below n }).parent r = f.parent r := by
  unfold parent
  rw [node?_update]
  split
  · cases f.node? r <;> rfl
  · rfl

theorem parent_update_parent (f : Forest) (p : Ref) (parent : Option Ref) (r : Ref) :
    (f.update p fun n => { n with parent }).parent r = if p = r ∧ f.valid r = true then parent else f.parent r := by
  unfold Forest.parent valid
  rw [node?_update]
  by_cases hr : p = r
  · cases f.node? r <;> simp [hr]
  · simp [hr]

theorem valid_eq (f : Forest) (r : Ref) : f.valid r = ((f.node? r).map (·.text?)).isSome := by
  unfold valid
  cases f.node? r <;> rfl

/-- What a swap that succeeds has found, and the four changes that it makes. -/
theorem swap_changes (h : f.swap x y = .ok g) :
    ∃ px py ix iy, x ≠ y ∧ f.parent x = some px ∧ f.parent y = some py ∧ f.isAncestor x y = false ∧
      f.isAncestor y x = false ∧ (f.children px).idxOf? x = some ix ∧ (f.children py).idxOf? y = some iy ∧
      g = (((f.update px fun n => { n with children := n.children.set ix y }).update py
        fun n => { n with children := n.children.set iy x }).update x
          fun n => { n with parent := some py }).update y fun n => { n with parent := some px } := by
  unfold swap at h
  split at h
  · rename_i nx ny hx hy
    split at h
    · cases h
    · rename_i hne
      split at h
      · rename_i px py hpx hpy
        split at h
        · cases h
        · rename_i habove
          rw [Bool.or_eq_true, not_or, Bool.not_eq_true, Bool.not_eq_true] at habove
          split at h
          · rename_i ix iy hix hiy
            cases h
            refine ⟨px, py, ix, iy, hne, ?_, ?_, habove.1, habove.2, hix, hiy, rfl⟩
            · rw [parent, hx]
              exact hpx
            · rw [parent, hy]
              exact hpy
          · cases h
      · cases h
  · cases h

/-- A swap that misses a node does so although the node has a parent. -/
theorem swap_notAmongChildren (h : f.swap x y = .error .notAmongChildren) :
    ∃ px py, f.parent x = some px ∧ f.parent y = some py ∧
      ((f.children px).idxOf? x = none ∨ (f.children py).idxOf? y = none) := by
  unfold swap at h
  split at h
  · rename_i nx ny hx hy
    split at h
    · cases h
    · split at h
      · rename_i px py hpx hpy
        split at h
        · cases h
        · split at h
          · cases h
          · rename_i hmissing
            refine ⟨px, py, by rw [parent, hx]; exact hpx, by rw [parent, hy]; exact hpy, ?_⟩
            cases hix : (f.children px).idxOf? x with
            | none => exact .inl rfl
            | some ix =>
              cases hiy : (f.children py).idxOf? y with
              | none => exact .inr rfl
              | some iy => exact absurd hiy (hmissing ix iy hix)
      · cases h
  · cases h

/-- All that a swap does to texts and children. -/
theorem swap_inv (h : f.swap x y = .ok g) :
    ∃ px py ix iy, (f.children px)[ix]? = some x ∧ (f.children py)[iy]? = some y ∧
      (∀ r, (g.node? r).map (·.text?) = (f.node? r).map (·.text?)) ∧
      ∀ r, g.children r =
        let below := if px = r then (f.children r).set ix y else f.children r
        if py = r then below.set iy x else below := by
  have hget : ∀ {l : List Ref} {z : Ref} {i : Nat}, l.idxOf? z = some i → l[i]? = some z := by
    intro l z i hi
    obtain ⟨hlt, hz, -⟩ := List.idxOf?_eq_some_iff.mp hi
    rw [List.getElem?_eq_getElem hlt, hz]
  obtain ⟨px, py, ix, iy, -, -, -, -, -, hix, hiy, rfl⟩ := swap_changes h
  -- Of the four changes two are of children and two of parents; none is of a text.
  refine ⟨px, py, ix, iy, hget hix, hget hiy, fun r => ?_, fun r => ?_⟩
  · rw [text?_update_parent, text?_update_parent, text?_update_children, text?_update_children]
  · rw [children_update_parent, children_update_parent, children_update_set, children_update_set]

theorem text?_swap (h : f.swap x y = .ok g) (r : Ref) : (g.node? r).map (·.text?) = (f.node? r).map (·.text?) := by
  obtain ⟨px, py, ix, iy, -, -, htext, -⟩ := swap_inv h
  exact htext r

theorem isList_swap (h : f.swap x y = .ok g) (r : Ref) : g.isList r = f.isList r := by
  rw [isList_eq, isList_eq, text?_swap h]

theorem text_swap (h : f.swap x y = .ok g) (r : Ref) : g.text r = f.text r := by
  rw [text_eq, text_eq, text?_swap h]

/-- A child after a swap was a child before, or has taken the place of one. -/
theorem mem_children_swap (h : f.swap x y = .ok g) {r c : Ref} (hc : c ∈ g.children r) :
    c ∈ f.children r ∨ c = y ∧ x ∈ f.children r ∨ c = x ∧ y ∈ f.children r := by
  obtain ⟨px, py, ix, iy, hx, hy, -, hchildren⟩ := swap_inv h
  rw [hchildren] at hc
  have hfirst : c ∈ (if px = r then (f.children r).set ix y else f.children r) →
      c ∈ f.children r ∨ c = y ∧ x ∈ f.children r := by
    intro hmem
    split at hmem
    · rename_i hp
      subst hp
      exact (List.mem_or_eq_of_mem_set hmem).imp_right fun hcy => ⟨hcy, List.mem_of_getElem? hx⟩
    · exact .inl hmem
  dsimp only at hc
  split at hc
  · rename_i hp
    rcases List.mem_or_eq_of_mem_set hc with hmem | hcx
    · exact (hfirst hmem).imp_right .inl
    · subst hp
      exact .inr (.inr ⟨hcx, List.mem_of_getElem? hy⟩)
  · exact (hfirst hc).imp_right .inl

/-- A swap of nodes with the same text changes no word that leads a list. -/
theorem head_swap (h : f.swap x y = .ok g) (hsame : f.text x = f.text y) (r : Ref) : g.head r = f.head r := by
  obtain ⟨px, py, ix, iy, hx, hy, -, hchildren⟩ := swap_inv h
  have hset : ∀ {l : List Ref} {i : Nat} {z w : Ref}, l[i]? = some z → f.text z = f.text w →
      (l.map f.text).set i (f.text w) = l.map f.text := by
    intro l i z w hz hzw
    have hlt : i < (l.map f.text).length := by
      rw [List.length_map]
      exact (List.getElem?_eq_some_iff.mp hz).1
    have hvalue : (l.map f.text)[i] = f.text w := by
      rw [List.getElem_map, (List.getElem?_eq_some_iff.mp hz).2, hzw]
    rw [← hvalue, List.set_getElem_self]
  have hfirst : (if px = r then (f.children r).set ix y else f.children r).map f.text = (f.children r).map f.text := by
    split
    · rename_i hp
      subst hp
      rw [List.map_set, hset hx hsame]
    · rfl
  rw [head_eq, head_eq, hchildren, funext (text_swap h)]
  congr 1
  dsimp only
  split
  · rename_i hp
    subst hp
    rw [List.map_set, hfirst, hset hy hsame.symm]
  · exact hfirst

end Forager.Sexp.Forest
