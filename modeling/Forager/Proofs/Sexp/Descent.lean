import Mathlib.Data.List.Forall2
import Forager.Proofs.Sexp.Links

/-!
# Reading linked forests

Everything that is read from a node of a linked forest is read from the node itself and from its children, however
deep they lie: no walk and no tree is cut off.

* `Linked.walk_eq` : a walk visits a node and then what lies below its children;
* `Linked.exists_tree` : a tree can be read at every node, and `Linked.tree?_list` says which;
* `Linked.print_eq`, `Linked.same_iff` : what is printed at a node, and when two nodes have the same tree.
-/

namespace Forager.Sexp

set_option autoImplicit false

/-- The printed members of a list stand between parentheses, with single spaces between them. -/
theorem print_list (items : List Sexp) : print (.list items) = "(" ++ " ".intercalate (items.map print) ++ ")" := by
  have hafter : ∀ (rest : List Sexp) (item : Sexp),
      chars item ++ charsAfter rest = [' '].intercalate ((item :: rest).map chars) ++ [')'] := by
    intro rest
    induction rest with
    | nil => simp [charsAfter]
    | cons next rest ih =>
      intro item
      rw [charsAfter, ih next, List.map_cons, List.map_cons, List.map_cons, List.intercalate_cons_cons]
      simp
  have hchars : charsOf items = [' '].intercalate (items.map chars) ++ [')'] := by
    cases items with
    | nil => simp [charsOf]
    | cons item rest => rw [charsOf, hafter]
  have hprint : items.map (fun t => (print t).toList) = items.map chars :=
    List.map_congr_left fun t _ => String.toList_ofList
  apply String.toList_inj.mp
  rw [print, String.toList_ofList, chars, hchars, String.toList_append, String.toList_append,
    String.toList_intercalate, List.map_map]
  change _ = ['('] ++ [' '].intercalate (items.map fun t => (print t).toList) ++ [')']
  rw [hprint]
  simp

namespace Forest

variable {f g : Forest}

/-! ## Walks -/

theorem preorder_succ (f : Forest) (enter : Ref → Bool) (fuel : Nat) (r : Ref) :
    f.preorder enter (fuel + 1) r =
      if f.valid r then r :: if enter r then (f.children r).flatMap (f.preorder enter fuel) else [] else [] := by
  rw [preorder, valid, children_eq]
  cases f.node? r with
  | none => rfl
  | some n => rfl

/-- With enough levels for all nodes below, one more changes nothing. -/
theorem Linked.preorder_stable (h : f.Linked) (enter : Ref → Bool) (fuel : Nat) (r : Ref)
    (hfuel : f.size < fuel + f.depth r) : f.preorder enter (fuel + 1) r = f.preorder enter fuel r := by
  induction fuel generalizing r with
  | zero =>
    have hr : f.valid r = false := by
      cases hr : f.valid r with
      | false => rfl
      | true =>
        have hlt := h.depth_lt hr
        omega
    rw [preorder_succ, hr]
    rfl
  | succ fuel ih =>
    have hbelow : (f.children r).flatMap (f.preorder enter (fuel + 1)) =
        (f.children r).flatMap (f.preorder enter fuel) := by
      apply List.flatMap_congr
      intro c hc
      have hdepth := h.depth_child hc
      exact ih c (by omega)
    rw [preorder_succ, preorder_succ, hbelow]

theorem Linked.walk_eq (h : f.Linked) (r : Ref) (enter : Ref → Bool) :
    f.walk r enter =
      if f.valid r then r :: if enter r then (f.children r).flatMap (f.walk · enter) else [] else [] := by
  have hbelow : (f.children r).flatMap (f.walk · enter) = (f.children r).flatMap (f.preorder enter f.size) := by
    apply List.flatMap_congr
    intro c hc
    have hdepth := h.depth_child hc
    exact h.preorder_stable enter f.size c (by omega)
  rw [hbelow]
  exact f.preorder_succ enter f.size r

/-! ## Trees -/

theorem text?_of_isList {r : Ref} (hr : f.isList r = true) : (f.node? r).map (·.text?) = some none := by
  rw [isList_eq] at hr
  generalize (f.node? r).map (·.text?) = text? at hr ⊢
  rcases text? with - | - | text
  · cases hr
  · rfl
  · cases hr

theorem text?_of_atom {r : Ref} (hvalid : f.valid r = true) (hr : f.isList r = false) :
    (f.node? r).map (·.text?) = some (some (f.text r)) := by
  rw [valid_eq] at hvalid
  rw [isList_eq] at hr
  rw [text_eq]
  generalize (f.node? r).map (·.text?) = text? at hvalid hr ⊢
  rcases text? with - | - | text
  · cases hvalid
  · cases hr
  · rfl

theorem treeWithin_atom {r : Ref} {text : String} (hr : (f.node? r).map (·.text?) = some (some text)) (fuel : Nat) :
    f.treeWithin (fuel + 1) r = some (.atom text) := by
  obtain ⟨⟨text?, parent, below⟩, hnode, htext⟩ := Option.map_eq_some_iff.mp hr
  cases htext
  rw [treeWithin, hnode]

theorem treeWithin_list {r : Ref} (hr : (f.node? r).map (·.text?) = some none) {fuel : Nat} {items : List Sexp}
    (hitems : (f.children r).map (f.treeWithin fuel) = items.map some) :
    f.treeWithin (fuel + 1) r = some (.list items) := by
  obtain ⟨⟨text?, parent, below⟩, hnode, htext⟩ := Option.map_eq_some_iff.mp hr
  cases htext
  rw [children_eq, hnode] at hitems
  have hread := mapM_of_map hitems
  rw [treeWithin, hnode]
  simp only [Option.map_some, Option.getD_some] at hread
  simp only [hread, Option.map_some]

/-- A tree that is read through some levels is read through more. -/
theorem treeWithin_succ {fuel : Nat} {r : Ref} {t : Sexp} (ht : f.treeWithin fuel r = some t) :
    f.treeWithin (fuel + 1) r = some t := by
  induction fuel generalizing r t with
  | zero => cases ht
  | succ fuel ih =>
    rcases treeWithin_inv ht with ⟨text, rfl, htext⟩ | ⟨items, k, hk, rfl, htext, hitems⟩
    · exact treeWithin_atom htext _
    · cases hk
      refine treeWithin_list htext ?_
      rw [← hitems]
      apply List.map_congr_left
      intro c hc
      have hmem : f.treeWithin fuel c ∈ items.map some := hitems ▸ List.mem_map_of_mem hc
      obtain ⟨s, -, hs⟩ := List.mem_map.mp hmem
      rw [← hs, ih hs.symm]

theorem tree?_of_invalid {r : Ref} (hr : f.valid r = false) : f.tree? r = none := by
  unfold valid at hr
  rw [tree?, treeWithin]
  cases hnode : f.node? r with
  | none => rfl
  | some n =>
    rw [hnode] at hr
    cases hr

theorem tree?_of_atom {r : Ref} (hvalid : f.valid r = true) (hr : f.isList r = false) :
    f.tree? r = some (.atom (f.text r)) := treeWithin_atom (text?_of_atom hvalid hr) f.size

theorem same_iff_exists (a b : Ref) : f.same a g b = true ↔ ∃ t, f.tree? a = some t ∧ g.tree? b = some t := by
  unfold same
  cases f.tree? a <;> cases g.tree? b <;> simp [eq_comm]

theorem isList_of_same {a b : Ref} (h : f.same a g b = true) : f.isList a = g.isList b := by
  obtain ⟨t, ha, hb⟩ := (same_iff_exists a b).mp h
  rw [isList_of_treeWithin ha, isList_of_treeWithin hb]

theorem forall₂_same_iff {cs ds : List Ref} {items others : List Sexp} (hcs : cs.map f.tree? = items.map some)
    (hds : ds.map g.tree? = others.map some) :
    List.Forall₂ (fun c d => f.same c g d = true) cs ds ↔ items = others := by
  have hsome : ∀ s t : Sexp, (∃ u, some s = some u ∧ some t = some u) ↔ s = t := by
    intro s t
    simp [eq_comm]
  calc List.Forall₂ (fun c d => f.same c g d = true) cs ds
      ↔ List.Forall₂ (fun s? t? => ∃ t, s? = some t ∧ t? = some t) (cs.map f.tree?) (ds.map g.tree?) := by
        rw [List.forall₂_map_left_iff, List.forall₂_map_right_iff]
        simp only [same_iff_exists]
    _ ↔ List.Forall₂ (· = ·) items others := by
        rw [hcs, hds, List.forall₂_map_left_iff, List.forall₂_map_right_iff]
        simp only [hsome]
    _ ↔ items = others := by rw [List.forall₂_eq_eq_eq]

namespace Linked

variable (h : f.Linked)

include h

theorem exists_treeWithin (fuel : Nat) {r : Ref} (hr : f.valid r = true) (hfuel : f.size < fuel + f.depth r) :
    ∃ t, f.treeWithin fuel r = some t := by
  induction fuel generalizing r with
  | zero =>
    have hlt := h.depth_lt hr
    omega
  | succ fuel ih =>
    cases hlist : f.isList r with
    | false => exact ⟨_, treeWithin_atom (text?_of_atom hr hlist) fuel⟩
    | true =>
      have hall : ∀ c ∈ f.children r, ∃ t, f.treeWithin fuel c = some t := by
        intro c hc
        have hdepth := h.depth_child hc
        exact ih (h.valid_child hc) (by omega)
      have hitems : ∃ items : List Sexp, (f.children r).map (f.treeWithin fuel) = items.map some := by
        generalize f.children r = cs at hall
        induction cs with
        | nil => exact ⟨[], rfl⟩
        | cons c cs ihcs =>
          obtain ⟨⟨t, ht⟩, hrest⟩ := List.forall_mem_cons.mp hall
          obtain ⟨items, hitems⟩ := ihcs hrest
          exact ⟨t :: items, by rw [List.map_cons, List.map_cons, ht, hitems]⟩
      obtain ⟨items, hitems⟩ := hitems
      exact ⟨_, treeWithin_list (text?_of_isList hlist) hitems⟩

/-- A tree can be read at every node. -/
theorem exists_tree {r : Ref} (hr : f.valid r = true) : ∃ t, f.tree? r = some t :=
  h.exists_treeWithin (f.size + 1) hr (by omega)

/-- The tree of a list is made of the trees of its children. -/
theorem tree?_list {r : Ref} (hr : f.isList r = true) :
    ∃ items, f.tree? r = some (.list items) ∧ (f.children r).map f.tree? = items.map some := by
  obtain ⟨t, ht⟩ := h.exists_tree (valid_of_isList hr)
  rcases treeWithin_inv ht with ⟨text, rfl, htext⟩ | ⟨items, k, hk, rfl, -, hitems⟩
  · rw [text?_of_isList hr] at htext
    cases htext
  · cases hk
    refine ⟨items, ht, ?_⟩
    rw [← hitems]
    apply List.map_congr_left
    intro c hc
    have hdepth := h.depth_child hc
    obtain ⟨s, hs⟩ := h.exists_treeWithin f.size (h.valid_child hc) (by omega)
    rw [hs]
    exact treeWithin_succ hs

theorem print_eq (r : Ref) :
    f.print r = if f.isList r then "(" ++ " ".intercalate ((f.children r).map f.print) ++ ")" else f.text r := by
  cases hlist : f.isList r with
  | true =>
    obtain ⟨items, htree, hitems⟩ := h.tree?_list hlist
    have hprints : (f.children r).map f.print = items.map Sexp.print := by
      have hmap := congrArg (List.map fun t? : Option Sexp => (t?.map Sexp.print).getD "") hitems
      rwa [List.map_map, List.map_map] at hmap
    rw [print, htree, if_pos rfl, hprints]
    exact print_list items
  | false =>
    rw [if_neg (by simp), print]
    cases hr : f.valid r with
    | true =>
      rw [tree?_of_atom hr hlist]
      exact String.ofList_toList
    | false =>
      rw [valid_eq, Option.isSome_eq_false_iff, Option.isNone_iff_eq_none] at hr
      rw [tree?_of_invalid (by rw [valid_eq, hr]; rfl), text_eq, hr]
      rfl

/-- Two nodes have the same tree if both are atoms with the same text, or lists whose children have the same trees. -/
theorem same_iff (hg : g.Linked) (a b : Ref) : f.same a g b = true ↔
    f.isList a = g.isList b ∧
      (f.isList a = false → f.valid a = true ∧ g.valid b = true ∧ f.text a = g.text b) ∧
      (f.isList a = true → List.Forall₂ (fun c d => f.same c g d = true) (f.children a) (g.children b)) := by
  by_cases hkind : f.isList a = g.isList b
  · rw [same_iff_exists]
    cases ha : f.isList a with
    | false =>
      have hb : g.isList b = false := hkind ▸ ha
      simp only [hb, true_and, true_implies, Bool.false_eq_true, false_implies, and_true]
      constructor
      · rintro ⟨t, hta, htb⟩
        have hva : f.valid a = true := by
          cases hva : f.valid a with
          | true => rfl
          | false => rw [tree?_of_invalid hva] at hta; cases hta
        have hvb : g.valid b = true := by
          cases hvb : g.valid b with
          | true => rfl
          | false => rw [tree?_of_invalid hvb] at htb; cases htb
        rw [tree?_of_atom hva ha, ← htb, tree?_of_atom hvb hb, Option.some.injEq, Sexp.atom.injEq] at hta
        exact ⟨hva, hvb, hta⟩
      · rintro ⟨hva, hvb, htext⟩
        exact ⟨.atom (f.text a), tree?_of_atom hva ha, htext ▸ tree?_of_atom hvb hb⟩
    | true =>
      have hb : g.isList b = true := hkind ▸ ha
      obtain ⟨items, hta, hitems⟩ := h.tree?_list ha
      obtain ⟨others, htb, hothers⟩ := hg.tree?_list hb
      rw [forall₂_same_iff hitems hothers, hta, htb, hb]
      simp only [Option.some.injEq, exists_eq_left', Sexp.list.injEq, true_and, Bool.true_eq_false, false_implies,
        true_implies]
      exact eq_comm
  · constructor
    · intro hsame
      exact absurd (isList_of_same hsame) hkind
    · intro hboth
      exact absurd hboth.1 hkind

end Linked

end Forest

end Forager.Sexp
