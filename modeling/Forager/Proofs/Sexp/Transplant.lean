import Mathlib.Logic.Equiv.Basic
import Forager.Proofs.Sexp.Edits
import Forager.Proofs.Sexp.Nodes

/-!
# Subtrees that change places

* `Linked.eq_of_below`, `Linked.root_unique` : a node lies below one of several siblings only, and has one root;
* `Apart f x y` : two nodes that can be exchanged (`Linked.exists_swap_iff`), such as nodes below different roots
  (`Linked.exists_swap`);
* `Exchanged f g x y` : `g` is `f` with the subtrees of `x` and `y` exchanged (`Linked.exchanged`);
  `Exchanged.tree?_eq` : a node has the same tree as before, unless one of the two lies below it, and then one of its
  children has not (`Exchanged.map_tree?`);
* `linked_planted`, `parent_planted` : planted lists make a linked forest, and are roots of it;
* `follow f r path` : the node reached from `r` by the arguments that `path` numbers.
-/

namespace Forager.Sexp.Forest

set_option autoImplicit false

open Relation (ReflTransGen TransGen)

variable {f g : Forest} {x y : Ref}

/-! ## One way up -/

theorem up_rightUnique (f : Forest) : Relator.RightUnique f.Up := by
  intro c p q hp hq
  exact Option.some.inj (hp.symm.trans hq)

/-- Both nodes have a parent, and neither is the other or lies above it. -/
structure Apart (f : Forest) (x y : Ref) : Prop where
  ne : x ≠ y
  left : f.parent x ≠ none
  right : f.parent y ≠ none
  not_below : ¬ TransGen f.Up x y
  not_above : ¬ TransGen f.Up y x

namespace Linked

variable (h : f.Linked)

include h

theorem not_below_sibling {r c d : Ref} (hc : c ∈ f.children r) (hd : d ∈ f.children r)
    (hbelow : ReflTransGen f.Up c d) : c = d := by
  rcases hbelow.cases_head with heq | ⟨p, hp, hpd⟩
  · exact heq
  · have hr : p = r := up_rightUnique f hp (h.parent_of_mem hc)
    rw [hr] at hpd
    exact absurd (.tail' hpd (h.parent_of_mem hd)) (h.not_above_itself r)

/-- A node lies below one of several siblings only. -/
theorem eq_of_below {r c d z : Ref} (hc : c ∈ f.children r) (hd : d ∈ f.children r) (hzc : ReflTransGen f.Up z c)
    (hzd : ReflTransGen f.Up z d) : c = d := by
  rcases hzc.total_of_right_unique (up_rightUnique f) hzd with hcd | hdc
  · exact h.not_below_sibling hc hd hcd
  · exact (h.not_below_sibling hd hc hdc).symm

omit h in
/-- A node has one root. -/
theorem root_unique {a b z : Ref} (ha : f.parent a = none) (hb : f.parent b = none) (hza : ReflTransGen f.Up z a)
    (hzb : ReflTransGen f.Up z b) : a = b := by
  have hroot : ∀ {a b : Ref}, f.parent a = none → ReflTransGen f.Up a b → a = b := by
    intro a b ha hab
    rcases hab.cases_head with heq | ⟨p, hp, -⟩
    · exact heq
    · rw [Up, ha] at hp
      cases hp
  rcases hza.total_of_right_unique (up_rightUnique f) hzb with hab | hba
  · exact hroot ha hab
  · exact (hroot hb hba).symm

/-- A walk stays below the node where it begins. -/
theorem below_of_mem_walk {r z : Ref} {enter : Ref → Bool} (hz : z ∈ f.walk r enter) : ReflTransGen f.Up z r := by
  induction r using h.descends.induction with
  | _ r ih =>
    rw [h.walk_eq] at hz
    split at hz
    · rcases List.mem_cons.mp hz with rfl | hz
      · exact .refl
      · split at hz
        · obtain ⟨c, hc, hz⟩ := List.mem_flatMap.mp hz
          exact (ih c hc hz).tail (h.parent_of_mem hc)
        · cases hz
    · cases hz

/-! ## Exchanges -/

/-- A swap succeeds for nodes that are apart, and only for these. -/
theorem exists_swap_iff : (∃ g, f.swap x y = .ok g) ↔ f.Apart x y := by
  constructor
  · rintro ⟨g, hswap⟩
    obtain ⟨px, py, -, -, hne, hpx, hpy, hxy, hyx, -⟩ := swap_changes hswap
    rw [Bool.eq_false_iff, ne_eq, h.isAncestor_iff] at hxy hyx
    exact ⟨hne, by simp [hpx], by simp [hpy], hyx, hxy⟩
  · rintro ⟨hne, hx, hy, hyx, hxy⟩
    rw [← h.isAncestor_iff, Bool.not_eq_true] at hxy hyx
    -- Both have a parent, among whose children they are found.
    have hplace : ∀ {z p : Ref}, f.parent z = some p → ∃ i, (f.children p).idxOf? z = some i := by
      intro z p hp
      cases hi : (f.children p).idxOf? z with
      | none => exact absurd (h.mem_children hp) (List.idxOf?_eq_none_iff.mp hi)
      | some i => exact ⟨i, rfl⟩
    obtain ⟨px, hpx⟩ := Option.ne_none_iff_exists'.mp hx
    obtain ⟨py, hpy⟩ := Option.ne_none_iff_exists'.mp hy
    obtain ⟨ix, hix⟩ := hplace hpx
    obtain ⟨iy, hiy⟩ := hplace hpy
    obtain ⟨nx, hnx, hpx⟩ := Option.bind_eq_some_iff.mp hpx
    obtain ⟨ny, hny, hpy⟩ := Option.bind_eq_some_iff.mp hpy
    unfold Forest.swap
    rw [hnx, hny]
    dsimp only
    rw [if_neg hne, hpx, hpy]
    dsimp only
    rw [hxy, hyx, if_neg (by simp), hix, hiy]
    exact ⟨_, rfl⟩

/-- Nodes below different roots can be exchanged. -/
theorem exists_swap {a b : Ref} (ha : f.parent a = none) (hb : f.parent b = none) (hab : a ≠ b)
    (hx : TransGen f.Up x a) (hy : TransGen f.Up y b) : ∃ g, f.swap x y = .ok g := by
  have hparent : ∀ {z r : Ref}, TransGen f.Up z r → f.parent z ≠ none := by
    intro z r hz
    obtain ⟨p, hp, -⟩ := Relation.TransGen.head'_iff.mp hz
    simp [show f.parent z = some p from hp]
  refine h.exists_swap_iff.mpr ⟨?_, hparent hx, hparent hy, ?_, ?_⟩
  · rintro rfl
    exact hab (root_unique ha hb hx.to_reflTransGen hy.to_reflTransGen)
  · intro hxy
    exact hab (root_unique ha hb hx.to_reflTransGen (hxy.trans hy).to_reflTransGen)
  · intro hyx
    exact hab (root_unique ha hb (hyx.trans hx).to_reflTransGen hy.to_reflTransGen)

end Linked

/-- The second forest is the first with the subtrees of two nodes exchanged, neither of which lies above the other. -/
structure Exchanged (f g : Forest) (x y : Ref) : Prop where
  before : f.Linked
  after : g.Linked
  children : ∀ r, g.children r = (f.children r).map (Equiv.swap x y)
  text? : ∀ r, (g.node? r).map (·.text?) = (f.node? r).map (·.text?)
  apart : ¬ TransGen f.Up x y ∧ ¬ TransGen f.Up y x

theorem Linked.exchanged (h : f.Linked) (hswap : f.swap x y = .ok g) : Exchanged f g x y where
  before := h
  after := h.swap hswap
  children := (h.swap_links hswap).1
  text? := text?_swap hswap
  apart := by
    obtain ⟨-, -, -, -, -, -, -, hxy, hyx, -⟩ := swap_changes hswap
    rw [← h.isAncestor_iff, ← h.isAncestor_iff, hxy, hyx]
    simp

namespace Exchanged

variable (h : Exchanged f g x y)

include h

theorem symm : Exchanged f g y x where
  before := h.before
  after := h.after
  children r := by rw [h.children, Equiv.swap_comm]
  text? := h.text?
  apart := h.apart.symm

theorem isList_eq (r : Ref) : g.isList r = f.isList r := by rw [Forest.isList_eq, Forest.isList_eq, h.text?]

/-- A node has the same tree as before, unless one of the two nodes lies below it. -/
theorem tree?_eq {r : Ref} (hx : ¬ TransGen f.Up x r) (hy : ¬ TransGen f.Up y r) : g.tree? r = f.tree? r := by
  induction r using h.before.descends.induction with
  | _ r ih =>
    cases hlist : f.isList r with
    | true =>
      obtain ⟨items, htree, hitems⟩ := h.before.tree?_list hlist
      obtain ⟨items', htree', hitems'⟩ := h.after.tree?_list ((h.isList_eq r).trans hlist)
      have hchildren : (g.children r).map g.tree? = (f.children r).map f.tree? := by
        rw [h.children, List.map_map]
        apply List.map_congr_left
        intro c hc
        have hup := h.before.parent_of_mem hc
        have hcx : c ≠ x := fun hcx => hx (hcx ▸ .single hup)
        have hcy : c ≠ y := fun hcy => hy (hcy ▸ .single hup)
        rw [Function.comp_apply, Equiv.swap_apply_of_ne_of_ne hcx hcy]
        exact ih c hc (fun hxc => hx (hxc.tail hup)) (fun hyc => hy (hyc.tail hup))
      rw [hitems, hitems'] at hchildren
      rw [htree, htree', List.map_injective_iff.mpr (Option.some_injective _) hchildren]
    | false =>
      have hvalid : g.valid r = f.valid r := by rw [valid_eq, valid_eq, h.text?]
      cases hr : f.valid r with
      | true =>
        rw [tree?_of_atom hr hlist, tree?_of_atom (hvalid.trans hr) ((h.isList_eq r).trans hlist), text_eq, text_eq,
          h.text?]
      | false => rw [tree?_of_invalid hr, tree?_of_invalid (hvalid.trans hr)]

theorem tree?_right : g.tree? y = f.tree? y := h.tree?_eq h.apart.1 (h.before.not_above_itself y)

/-- What is in neither of the subtrees and above none of them stays where it is. -/
theorem tree?_swap {r : Ref} (hx : ¬ ReflTransGen f.Up x r) (hy : ¬ ReflTransGen f.Up y r) :
    g.tree? (Equiv.swap x y r) = f.tree? r := by
  have hrx : r ≠ x := fun hrx => hx (hrx ▸ .refl)
  have hry : r ≠ y := fun hry => hy (hry ▸ .refl)
  rw [Equiv.swap_apply_of_ne_of_ne hrx hry]
  exact h.tree?_eq (fun hxr => hx hxr.to_reflTransGen) (fun hyr => hy hyr.to_reflTransGen)

/-- A node above one of the two stays where it is. -/
theorem swap_of_above {r : Ref} (hx : TransGen f.Up x r) (hy : ¬ ReflTransGen f.Up y r) : Equiv.swap x y r = r := by
  have hrx : r ≠ x := by
    rintro rfl
    exact h.before.not_above_itself r hx
  have hry : r ≠ y := by
    rintro rfl
    exact hy .refl
  exact Equiv.swap_apply_of_ne_of_ne hrx hry

/-- Above one of the two nodes, the children have the same trees as before, but for the one on the way down to it. -/
theorem map_tree? {r c : Ref} {front back : List Ref} (hchildren : f.children r = front ++ c :: back)
    (hx : ReflTransGen f.Up x c) (hy : ¬ ReflTransGen f.Up y r) :
    (g.children r).map g.tree? = front.map f.tree? ++ g.tree? (Equiv.swap x y c) :: back.map f.tree? := by
  have hc : c ∈ f.children r := by simp [hchildren]
  have hsibling : ∀ d ∈ f.children r, d ≠ c → g.tree? (Equiv.swap x y d) = f.tree? d := by
    intro d hd hne
    have hup : f.Up d r := h.before.parent_of_mem hd
    exact h.tree?_swap (fun hxd => hne (h.before.eq_of_below hd hc hxd hx)) (fun hyd => hy (hyd.tail hup))
  have hnodup := h.before.nodup r
  rw [hchildren, List.nodup_middle, List.nodup_cons, List.mem_append, not_or] at hnodup
  have hfront : front.map (g.tree? ∘ Equiv.swap x y) = front.map f.tree? := List.map_congr_left fun d hd =>
    hsibling d (by simp [hchildren, hd]) (fun hdc => hnodup.1.1 (hdc ▸ hd))
  have hback : back.map (g.tree? ∘ Equiv.swap x y) = back.map f.tree? := List.map_congr_left fun d hd =>
    hsibling d (by simp [hchildren, hd]) (fun hdc => hnodup.1.2 (hdc ▸ hd))
  rw [h.children, hchildren, List.map_map, List.map_append, List.map_cons, hfront, hback, Function.comp_apply]

end Exchanged

/-! ## Planted trees -/

/-- Planted lists make a linked forest. -/
theorem linked_planted {nodes : List Node} (h : (ofNodes nodes).Linked) (items : List Sexp) :
    (ofNodes (nodes ++ nodesOf none nodes.length (.list items))).Linked := by
  rw [← grow_list]
  exact h.grow [] nofun _

theorem parent_planted (t : Sexp) (pre post : List Node) :
    (ofNodes (pre ++ nodesOf none pre.length t ++ post)).parent pre.length = none := by
  unfold parent
  cases t <;> rw [nodesOf, List.append_assoc, List.cons_append, node?_at] <;> rfl

/-- The node that is reached from `r` by taking the argument with each of these numbers. -/
def follow (f : Forest) : Ref → List Nat → Ref
  | r, [] => r
  | r, i :: path => follow f ((f.args r).getD i r) path

end Forager.Sexp.Forest
