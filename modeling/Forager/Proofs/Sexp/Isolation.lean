import Forager.Proofs.Sexp.RoundTrip
import Forager.Proofs.Sexp.Transplant

/-!
# Reading beside other trees

What a text adds to a forest does not depend on what stands there already: it is what the text adds to the empty forest,
with all references moved up. So trees that share a forest do not meet, and what a failed reading leaves behind is in
nobody's way.

* `beside f e` : the nodes of `e` after those of `f`; `node?_beside_old`, `node?_beside_new` : its nodes;
* `grow_beside`, `parse_beside` : growing and reading beside other nodes is growing and reading alone;
* `Rooted f g r` : `r` is a root of `g`, and neither it nor a node below it is one of `f`;
* `parse_isolated` : reading leaves all nodes as they are, and its result is that of reading alone.
-/

namespace Forager.Sexp

set_option autoImplicit false

open Relation (ReflTransGen)

/-- The node with its links moved up by `k`. -/
def Node.shift (k : Nat) (n : Node) : Node := ⟨n.text?, n.parent.map (· + (k : Ref)), n.children.map (· + (k : Ref))⟩

namespace Forest

variable {f g : Forest}

/-- The nodes of `e` after those of `f`. -/
def beside (f e : Forest) : Forest := ⟨f.nodes ++ e.nodes.map (Node.shift f.size)⟩

/-! ## Nodes beside others -/

theorem beside_empty (f : Forest) : f.beside empty = f := by
  simp [beside, empty]

theorem size_beside (f e : Forest) : (f.beside e).size = f.size + e.size := by
  simp [beside, size]

theorem node?_beside_old (f e : Forest) {r : Ref} (hr : f.valid r = true) : (f.beside e).node? r = f.node? r := by
  obtain ⟨n, hn, rfl⟩ := (f.valid_iff r).mp hr
  exact Array.getElem?_append_left hn

theorem node?_beside_new (f e : Forest) (n : Nat) :
    (f.beside e).node? (n + f.size : Nat) = (e.node? n).map (Node.shift f.size) := by
  change (f.nodes ++ e.nodes.map (Node.shift f.size))[n + f.size]? = e.nodes[n]?.map (Node.shift f.size)
  rw [Array.getElem?_append_right (Nat.le_add_left f.size n), ← size, Nat.add_sub_cancel, Array.getElem?_map]

theorem children_beside_new (f e : Forest) (n : Nat) :
    (f.beside e).children (n + f.size : Nat) = (e.children n).map (· + (f.size : Ref)) := by
  rw [children_eq, children_eq, node?_beside_new]
  cases e.node? n with
  | none => rfl
  | some x => rfl

theorem parent_beside_new (f e : Forest) (n : Nat) :
    (f.beside e).parent (n + f.size : Nat) = (e.parent n).map (· + (f.size : Ref)) := by
  unfold parent
  rw [node?_beside_new]
  cases e.node? n with
  | none => rfl
  | some x => rfl

theorem push_beside (f e : Forest) (text? : Option String) :
    (f.beside e).push ⟨text?, none, []⟩ =
      (f.beside (e.push ⟨text?, none, []⟩).1, ((e.size + f.size : Nat) : Ref)) := by
  have hnode : Node.shift f.size ⟨text?, none, []⟩ = ⟨text?, none, []⟩ := rfl
  unfold push beside
  rw [Array.map_push, Array.append_push, hnode]
  simp [size, Nat.add_comm]

theorem update_beside (f e : Forest) (n : Nat) (change : Node → Node) {change' : Node → Node}
    (h : ∀ x : Node, change' (x.shift f.size) = (change x).shift f.size) :
    (f.beside e).update (n + f.size : Nat) change' = f.beside (e.update n change) := by
  change (⟨(f.nodes ++ e.nodes.map (Node.shift f.size)).modify (n + f.size) change'⟩ : Forest) =
    ⟨f.nodes ++ (e.nodes.modify n change).map (Node.shift f.size)⟩
  congr 1
  apply Array.ext_getElem?
  intro i
  rw [Array.getElem?_modify]
  by_cases hi : i < f.nodes.size
  · have hne : n + f.size ≠ i := by
      unfold size
      omega
    rw [if_neg hne, Array.getElem?_append_left hi, Array.getElem?_append_left hi]
  · obtain ⟨j, rfl⟩ : ∃ j, i = j + f.nodes.size := ⟨i - f.nodes.size, by omega⟩
    rw [Array.getElem?_append_right (by omega), Array.getElem?_append_right (by omega), Nat.add_sub_cancel,
      Array.getElem?_map, Array.getElem?_map, Array.getElem?_modify, size]
    by_cases hj : n = j
    · rw [if_pos (by omega), if_pos hj, Option.map_map, Option.map_map]
      congr 1
      funext x
      exact h x
    · rw [if_neg (by omega), if_neg hj]

/-! ## Growing beside others -/

theorem append_beside (f e : Forest) (l c : Nat) :
    (f.beside e).append (l + f.size : Nat) (c + f.size : Nat) = (e.append l c).map f.beside := by
  unfold append
  rw [node?_beside_new, node?_beside_new]
  cases e.node? l with
  | none => rfl
  | some x =>
    cases e.node? c with
    | none => rfl
    | some y =>
      simp only [Option.map_some, Node.shift, Option.isSome_map]
      split
      · rfl
      · split
        · rfl
        · rw [update_beside f e l (fun n => { n with children := n.children ++ [(c : Ref)] }) fun n => by
              simp [Node.shift],
            update_beside f _ c (fun n => { n with parent := some (l : Ref) }) fun n => by simp [Node.shift]]
          rfl

/-- The numbers of open lists, moved up by `k`. -/
def lifted (k : Nat) (stack : List Nat) : List Ref := stack.map fun n => ((n + k : Nat) : Ref)

theorem link_beside (f e : Forest) (stack : List Nat) (r : Nat) :
    grow.link (f.beside e) (lifted f.size stack) (r + f.size : Nat) = f.beside (grow.link e (lifted 0 stack) r) := by
  cases stack with
  | nil => rfl
  | cons l stack =>
    change ((f.beside e).append (l + f.size : Nat) (r + f.size : Nat)).toOption.getD (f.beside e) =
      f.beside ((e.append l r).toOption.getD e)
    rw [append_beside]
    cases e.append l r with
    | error cause => rfl
    | ok h => rfl

/-- **Growing beside other nodes** is growing alone. -/
theorem grow_beside (f e : Forest) (stack : List Nat) (tokens : List Token) :
    grow (f.beside e) (lifted f.size stack) tokens = f.beside (grow e (lifted 0 stack) tokens) := by
  induction tokens generalizing e stack with
  | nil => rfl
  | cons token tokens ih =>
    cases token with
    | opening =>
      rw [grow, grow, emptyList, emptyList, push_beside]
      dsimp only
      rw [link_beside]
      exact ih _ (e.size :: stack)
    | closing =>
      rw [grow, grow, lifted, lifted, ← List.map_tail, ← List.map_tail]
      exact ih e stack.tail
    | atom text =>
      rw [grow, grow, Forest.atom, Forest.atom, push_beside]
      dsimp only
      rw [link_beside]
      exact ih _ stack

/-- **Reading beside other nodes** is reading alone: the nodes that are added and the result are the same, moved up. -/
theorem parse_beside (f : Forest) (text : String) :
    f.parse text = (f.beside (empty.parse text).1, (empty.parse text).2.map (· + (f.size : Ref))) := by
  have hgrow := grow_beside f empty [] (scan text).tokens
  rw [beside_empty] at hgrow
  change grow f [] _ = f.beside (grow empty [] _) at hgrow
  unfold parse
  cases hfault : (scan text).fault with
  | some e => simp only [hfault, hgrow]; rfl
  | none =>
    simp only [hfault, hgrow]
    simp [Except.map, empty, size]

/-! ## Trees beside others -/

/-- The step from a node to one of its children. -/
def Down (f : Forest) (p c : Ref) : Prop := c ∈ f.children p

/-- A root of `g`, such that neither it nor a node below it is one of `f`. -/
structure Rooted (f g : Forest) (r : Ref) : Prop where
  root : g.parent r = none
  below : ∀ z, ReflTransGen g.Down r z → g.valid z = true ∧ f.valid z = false

/-- Below a node of `e`, beside `f`, are only nodes of `e`. -/
theorem Linked.below_beside {e : Forest} (h : e.Linked) (f : Forest) {n : Nat} (hn : n < e.size) {z : Ref}
    (hz : ReflTransGen (f.beside e).Down (n + f.size : Nat) z) : ∃ m < e.size, z = ((m + f.size : Nat) : Ref) := by
  induction hz with
  | refl => exact ⟨n, hn, rfl⟩
  | tail _ hstep ih =>
    obtain ⟨m, -, rfl⟩ := ih
    unfold Down at hstep
    rw [children_beside_new] at hstep
    obtain ⟨c, hc, rfl⟩ := List.mem_map.mp hstep
    obtain ⟨k, hk, rfl⟩ := (e.valid_iff c).mp (h.valid_child hc)
    exact ⟨k, hk, rfl⟩

theorem Linked.rooted_beside {e : Forest} (h : e.Linked) (f : Forest) {n : Nat} (hn : n < e.size)
    (hroot : e.parent n = none) : Rooted f (f.beside e) (n + f.size : Nat) where
  root := by
    rw [parent_beside_new, hroot]
    rfl
  below z hz := by
    obtain ⟨m, hm, rfl⟩ := h.below_beside f hn hz
    constructor
    · exact (valid_iff _ _).mpr ⟨m + f.size, by rw [size_beside]; omega, rfl⟩
    · rw [Bool.eq_false_iff, ne_eq, valid_iff]
      rintro ⟨k, hk, heq⟩
      have := Int.natCast_inj.mp heq
      omega

theorem Linked.treeWithin_beside (h : f.Linked) (e : Forest) {fuel : Nat} {r : Ref} {t : Sexp} (hr : f.valid r = true)
    (ht : f.treeWithin fuel r = some t) : (f.beside e).treeWithin fuel r = some t := by
  have hnode : ∀ {z : Ref}, f.valid z = true → (f.beside e).node? z = f.node? z := fun hz => f.node?_beside_old e hz
  induction fuel generalizing r t with
  | zero => cases ht
  | succ fuel ih =>
    rcases treeWithin_inv ht with ⟨text, rfl, htext⟩ | ⟨items, k, hk, rfl, htext, hitems⟩
    · exact treeWithin_atom (by rw [hnode hr, htext]) fuel
    · cases hk
      have hchildren : (f.beside e).children r = f.children r := by rw [children_eq, children_eq, hnode hr]
      refine treeWithin_list (by rw [hnode hr, htext]) ?_
      rw [← hitems, hchildren]
      apply List.map_congr_left
      intro c hc
      have hmem : f.treeWithin fuel c ∈ items.map some := hitems ▸ List.mem_map_of_mem hc
      obtain ⟨s, -, hs⟩ := List.mem_map.mp hmem
      rw [← hs]
      exact ih (h.valid_child hc) hs.symm

/-- What stands in a linked forest reads the same with other nodes beside it. -/
theorem Linked.tree?_beside_old (h : f.Linked) (e : Forest) {r : Ref} (hr : f.valid r = true) :
    (f.beside e).tree? r = f.tree? r := by
  obtain ⟨t, ht⟩ := h.exists_tree hr
  have hmore : ∀ fuel, f.size + 1 ≤ fuel → (f.beside e).treeWithin fuel r = some t := by
    intro fuel hfuel
    induction fuel, hfuel using Nat.le_induction with
    | base => exact h.treeWithin_beside e hr ht
    | succ fuel _ ih => exact treeWithin_succ ih
  rw [ht]
  exact hmore _ (by rw [size_beside]; omega)

/-! ## Texts -/

/-- What is read alone is the tree of the first node, which is a root. -/
theorem parse_alone {text : String} {r : Ref} (h : (empty.parse text).2 = .ok r) :
    r = 0 ∧ 0 < (empty.parse text).1.size ∧ (empty.parse text).1.parent r = none := by
  have hboth : empty.parse text = ((empty.parse text).1, .ok r) := Prod.ext rfl h
  obtain ⟨items, -, hspells⟩ := tree?_of_parse hboth
  have hparse := parse_of_spells [] hspells
  have hroot := parent_planted (.list items) [] []
  change empty.parse text = _ at hparse
  rw [hparse] at h ⊢
  cases h
  refine ⟨rfl, ?_, ?_⟩
  · rw [size_ofNodes, List.nil_append, length_nodesOf]
    exact count_pos _
  · rwa [List.append_nil] at hroot

/-- Two forests into which the same text is read have the same tree at its roots. -/
theorem same_of_parse {base base' f g : Forest} {text : String} {r s : Ref} (hf : base.parse text = (f, .ok r))
    (hg : base'.parse text = (g, .ok s)) : f.same r g s = true := by
  obtain ⟨items, htree, hspells⟩ := tree?_of_parse hf
  obtain ⟨f', r', hparse, htree'⟩ := tree?_of_spells base' hspells
  rw [hg] at hparse
  cases hparse
  exact same_of_tree? htree htree'

/-- **Reading is isolated.** Whatever a forest holds, reading a text leaves every node of it as it is and adds nodes
after them. It fails as reading the text alone fails; if it succeeds, the result is a root with nothing but new nodes
below it, whose tree is the one that is read alone. A forest that was linked stays so, and all its trees are still
read there. -/
theorem parse_isolated (f : Forest) (text : String) :
    let g := (f.parse text).1
    let alone := empty.parse text
    (∃ added, g.nodes = f.nodes ++ added) ∧ (∀ r, f.valid r = true → g.node? r = f.node? r) ∧
    (∀ e, (f.parse text).2 = .error e ↔ alone.2 = .error e) ∧
    (∀ r, (f.parse text).2 = .ok r → f.Rooted g r ∧
      ∃ r₀, alone.2 = .ok r₀ ∧ g.same r alone.1 r₀ = true) ∧
    (f.Linked → g.Linked ∧ ∀ r, f.valid r = true → g.tree? r = f.tree? r) := by
  intro g alone
  have hparse := parse_beside f text
  have hg : g = f.beside alone.1 := congrArg Prod.fst hparse
  have hresult : (f.parse text).2 = alone.2.map (· + (f.size : Ref)) := congrArg Prod.snd hparse
  have halone : alone.1.Linked := Edit.apply_linked linked_empty (.parse text) trivial
  refine ⟨⟨_, congrArg nodes hg⟩, fun r hr => hg ▸ f.node?_beside_old _ hr, fun e => ?_, fun r hr => ?_,
    fun h => ⟨?_, ?_⟩⟩
  · rw [hresult]
    cases alone.2 with
    | error e' => simp [Except.map]
    | ok r => simp [Except.map]
  · have hboth : f.parse text = (g, .ok r) := Prod.ext rfl hr
    rw [hresult] at hr
    cases halone₂ : alone.2 with
    | error e => rw [halone₂] at hr; cases hr
    | ok r₀ =>
      obtain ⟨rfl, hsize, hroot⟩ := parse_alone halone₂
      rw [halone₂] at hr
      cases hr
      refine ⟨?_, 0, rfl, same_of_parse hboth (Prod.ext rfl halone₂)⟩
      rw [hg]
      exact halone.rooted_beside f hsize hroot
  · exact Edit.apply_linked h (.parse text) trivial
  · intro r hr
    rw [hg]
    exact h.tree?_beside_old _ hr

/-- A text that was read, and what is left of one that breaks off. -/
def littered : Forest := [Edit.parse "(a (b c) d)", .parse "(x (y"].foldl Edit.apply .empty

theorem parse_isolated_littered :
    littered.Linked ∧ (littered.parse "(p (q) r)").2 = .ok 9 ∧ littered.Rooted (littered.parse "(p (q) r)").1 9 ∧
      (littered.parse "(p (q) r)").1.same 9 (empty.parse "(p (q) r)").1 0 = true ∧
      (littered.parse "(p (q) r)").1.tree? 0 = littered.tree? 0 ∧
      (littered.parse "(p (q").2 = .error ⟨.unterminated, 5⟩ := by
  have hlinked : littered.Linked := (Edited.edit (.edit .empty (.parse _) trivial) (.parse _) trivial).linked
  have hresult : (littered.parse "(p (q) r)").2 = .ok 9 := by decide +kernel
  obtain ⟨-, -, -, hread, hkept⟩ := parse_isolated littered "(p (q) r)"
  obtain ⟨hrooted, r₀, halone, hsame⟩ := hread 9 hresult
  obtain ⟨rfl, -, -⟩ := parse_alone halone
  refine ⟨hlinked, hresult, hrooted, hsame, (hkept hlinked).2 0 (by decide +kernel), ?_⟩
  exact ((parse_isolated littered "(p (q").2.2.1 _).mpr (by decide +kernel)

end Forest

end Forager.Sexp
