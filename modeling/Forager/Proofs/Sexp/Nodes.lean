import Mathlib.Data.List.Basic
import Mathlib.Tactic.Common
import Forager.Sexp.Forest
import Forager.Proofs.Sexp.Tokens

/-!
# Trees laid out in a forest

A tree that is read or planted takes up consecutive nodes, in preorder.

* `nodesOf parent start t` : the nodes of `t` when its root is number `start`;
* `tree?_nodesOf` : reading them gives `t` back;
* `exists_subtree` : every node of a tree reads as a part of it;
* `grow_list` : what growing a forest from the tokens of a list adds; `plant_ofNodes` : what planting a tree adds.
-/

namespace Forager.Sexp

set_option autoImplicit false

mutual

def count : Sexp → Nat
  | .atom _ => 1
  | .list items => countAll items + 1

def countAll : List Sexp → Nat
  | [] => 0
  | t :: rest => count t + countAll rest

end

/-- The roots of trees that lie one after the other from number `start` on. -/
def starts (start : Nat) : List Sexp → List Ref
  | [] => []
  | t :: rest => (start : Ref) :: starts (start + count t) rest

mutual

def nodesOf (parent : Option Ref) (start : Nat) : Sexp → List Node
  | .atom text => [⟨some text, parent, []⟩]
  | .list items => ⟨none, parent, starts (start + 1) items⟩ :: nodesOfAll start (start + 1) items

/-- The nodes of the children of `parent`. -/
def nodesOfAll (parent start : Nat) : List Sexp → List Node
  | [] => []
  | t :: rest => nodesOf (some (parent : Ref)) start t ++ nodesOfAll parent (start + count t) rest

end

mutual

theorem length_nodesOf (parent : Option Ref) (start : Nat) (t : Sexp) :
    (nodesOf parent start t).length = count t := by
  match t with
  | .atom text => rfl
  | .list items => rw [nodesOf, List.length_cons, length_nodesOfAll, count]

theorem length_nodesOfAll (parent start : Nat) (ts : List Sexp) :
    (nodesOfAll parent start ts).length = countAll ts := by
  match ts with
  | [] => rfl
  | t :: rest => rw [nodesOfAll, List.length_append, length_nodesOf, length_nodesOfAll, countAll]

end

theorem count_pos (t : Sexp) : 0 < count t := by
  cases t with
  | atom text => simp [count]
  | list items => simp [count]

namespace Forest

def ofNodes (nodes : List Node) : Forest := ⟨nodes.toArray⟩

theorem ofNodes_toList (f : Forest) : ofNodes f.nodes.toList = f := rfl

@[simp] theorem size_ofNodes (nodes : List Node) : (ofNodes nodes).size = nodes.length := by
  simp [ofNodes, Forest.size]

theorem node?_ofNodes (nodes : List Node) (n : Nat) : (ofNodes nodes).node? n = nodes[n]? := by
  change nodes.toArray[n]? = _
  simp

theorem node?_at (pre : List Node) (n : Node) (post : List Node) :
    (ofNodes (pre ++ n :: post)).node? pre.length = some n := by
  rw [node?_ofNodes, List.getElem?_append_right (Nat.le_refl _), Nat.sub_self, List.getElem?_cons_zero]

theorem update_at (pre : List Node) (n : Node) (post : List Node) (change : Node → Node) :
    (ofNodes (pre ++ n :: post)).update pre.length change = ofNodes (pre ++ change n :: post) := by
  change (⟨(pre ++ n :: post).toArray.modify pre.length change⟩ : Forest) = _
  rw [List.modify_toArray, ofNodes]
  congr 2
  induction pre with
  | nil => rfl
  | cons m pre ih => rw [List.cons_append, List.length_cons, List.modify_succ_cons, ih, List.cons_append]

theorem push_ofNodes (nodes : List Node) (n : Node) :
    (ofNodes nodes).push n = (ofNodes (nodes ++ [n]), (nodes.length : Ref)) := by
  simp [Forest.push, ofNodes]

/-! ## Reading -/

mutual

theorem treeWithin_nodesOf (t : Sexp) (parent : Option Ref) (pre post : List Node) (fuel : Nat)
    (hfuel : count t ≤ fuel) :
    (ofNodes (pre ++ nodesOf parent pre.length t ++ post)).treeWithin fuel pre.length = some t := by
  obtain ⟨fuel, rfl⟩ : ∃ k, fuel = k + 1 := ⟨fuel - 1, by have := count_pos t; omega⟩
  match t with
  | .atom text =>
    rw [nodesOf, List.append_assoc, List.cons_append, treeWithin, node?_at]
  | .list items =>
    rw [count] at hfuel
    rw [nodesOf, List.append_assoc, List.cons_append, treeWithin, node?_at]
    have h := mapM_treeWithin items pre.length
      (pre ++ [⟨none, parent, starts (pre.length + 1) items⟩]) post fuel (by omega)
    simp only [List.length_append, List.length_singleton, List.append_assoc, List.cons_append, List.nil_append] at h
    simp only [h, Option.map_some]

theorem mapM_treeWithin (ts : List Sexp) (parent : Nat) (pre post : List Node) (fuel : Nat)
    (hfuel : countAll ts ≤ fuel) :
    (starts pre.length ts).mapM
      ((ofNodes (pre ++ nodesOfAll parent pre.length ts ++ post)).treeWithin fuel) = some ts := by
  match ts with
  | [] => rfl
  | t :: rest =>
    rw [countAll] at hfuel
    have hfirst := treeWithin_nodesOf t (some (parent : Ref)) pre
      (nodesOfAll parent (pre.length + count t) rest ++ post) fuel (by omega)
    have hrest := mapM_treeWithin rest parent (pre ++ nodesOf (some (parent : Ref)) pre.length t) post fuel (by omega)
    rw [List.length_append, length_nodesOf] at hrest
    rw [starts, nodesOfAll, List.mapM_cons]
    simp only [List.append_assoc] at hfirst hrest ⊢
    rw [hfirst, hrest]
    rfl

end

/-- Reading the nodes of a tree gives the tree. -/
theorem tree?_nodesOf (t : Sexp) (parent : Option Ref) (pre post : List Node) :
    (ofNodes (pre ++ nodesOf parent pre.length t ++ post)).tree? pre.length = some t := by
  refine treeWithin_nodesOf t parent pre post _ ?_
  rw [size_ofNodes, List.length_append, List.length_append, length_nodesOf]
  omega

mutual

/-- What a tree has along with all its parts is had by whatever is read at one of its nodes. -/
theorem exists_subtree {P : Sexp → Prop} (hparts : ∀ items, P (.list items) → ∀ s ∈ items, P s) (t : Sexp) (h : P t)
    (parent : Option Ref) (pre post : List Node) (i : Nat) (hi : i < count t) :
    ∃ s, P s ∧ (ofNodes (pre ++ nodesOf parent pre.length t ++ post)).tree? (pre.length + i : Nat) = some s := by
  match t, i with
  | t, 0 => exact ⟨t, h, tree?_nodesOf t parent pre post⟩
  | .atom text, i + 1 =>
    rw [count] at hi
    omega
  | .list items, i + 1 =>
    rw [count] at hi
    have hbelow := exists_subtree_of_mem hparts items (hparts items h) pre.length
      (pre ++ [⟨none, parent, starts (pre.length + 1) items⟩]) post i (by omega)
    rw [List.length_append, List.length_singleton] at hbelow
    rw [nodesOf, Nat.add_comm i 1, ← Nat.add_assoc]
    simpa only [List.append_assoc, List.cons_append, List.nil_append] using hbelow

theorem exists_subtree_of_mem {P : Sexp → Prop} (hparts : ∀ items, P (.list items) → ∀ s ∈ items, P s)
    (ts : List Sexp) (h : ∀ s ∈ ts, P s) (parent : Nat) (pre post : List Node) (i : Nat) (hi : i < countAll ts) :
    ∃ s, P s ∧ (ofNodes (pre ++ nodesOfAll parent pre.length ts ++ post)).tree? (pre.length + i : Nat) = some s := by
  match ts with
  | [] =>
    rw [countAll] at hi
    omega
  | t :: rest =>
    rw [countAll] at hi
    rw [List.forall_mem_cons] at h
    by_cases hfirst : i < count t
    · have ht := exists_subtree hparts t h.1 (some (parent : Ref)) pre
        (nodesOfAll parent (pre.length + count t) rest ++ post) i hfirst
      simpa only [nodesOfAll, List.append_assoc] using ht
    · have hrest := exists_subtree_of_mem hparts rest h.2 parent
        (pre ++ nodesOf (some (parent : Ref)) pre.length t) post (i - count t) (by omega)
      rw [List.length_append, length_nodesOf, Nat.add_assoc, Nat.add_sub_cancel' (by omega)] at hrest
      simpa only [nodesOfAll, List.append_assoc, Nat.add_assoc] using hrest

end

/-! ## Growing -/

/-- Appending a root to a list that stands before it. -/
theorem append_ofNodes (pre mid post : List Node) (parent : Option Ref) (text? : Option String)
    (children below : List Ref) (r : Nat) (hr : r = (pre ++ ⟨none, parent, children⟩ :: mid).length) :
    (ofNodes (pre ++ ⟨none, parent, children⟩ :: mid ++ ⟨text?, none, below⟩ :: post)).append pre.length r =
      .ok (ofNodes (pre ++ ⟨none, parent, children ++ [(r : Ref)]⟩ :: mid ++
        ⟨text?, some (pre.length : Ref), below⟩ :: post)) := by
  have hlist : (ofNodes (pre ++ ⟨none, parent, children⟩ :: mid ++ ⟨text?, none, below⟩ :: post)).node? pre.length =
      some ⟨none, parent, children⟩ := by
    rw [List.append_assoc, List.cons_append, node?_at]
  have hchild : (ofNodes (pre ++ ⟨none, parent, children⟩ :: mid ++ ⟨text?, none, below⟩ :: post)).node? r =
      some ⟨text?, none, below⟩ := by
    rw [hr, node?_at]
  have hr' : r = (pre ++ ⟨none, parent, children ++ [(r : Ref)]⟩ :: mid).length := by
    rw [hr]
    simp
  have hup := update_at pre ⟨none, parent, children⟩ (mid ++ ⟨text?, none, below⟩ :: post)
    fun n => { n with children := n.children ++ [(r : Ref)] }
  have hdown := update_at (pre ++ ⟨none, parent, children ++ [(r : Ref)]⟩ :: mid) ⟨text?, none, below⟩ post
    fun n => { n with parent := some (pre.length : Ref) }
  rw [← hr'] at hdown
  unfold append
  rw [hlist, hchild]
  simp only [Option.isSome_none, Bool.false_eq_true, if_false]
  rw [List.append_assoc, List.cons_append, hup, ← List.cons_append, ← List.append_assoc, hdown]

theorem link_push (pre mid : List Node) (parent : Option Ref) (children : List Ref) (stack : List Ref)
    (text? : Option String) (r : Nat) (hr : r = (pre ++ ⟨none, parent, children⟩ :: mid).length) :
    grow.link (ofNodes (pre ++ ⟨none, parent, children⟩ :: mid ++ [⟨text?, none, []⟩])) (pre.length :: stack) r =
      ofNodes (pre ++ ⟨none, parent, children ++ [(r : Ref)]⟩ :: mid ++ [⟨text?, some (pre.length : Ref), []⟩]) := by
  rw [grow.link, append_ofNodes pre mid [] parent text? children [] r hr]
  rfl

mutual

-- The innermost open list stands between `pre` and `mid`; the tree goes to the end and becomes its last child.
theorem grow_tokensOf (t : Sexp) (pre mid : List Node) (parent : Option Ref) (children : List Ref) (stack : List Ref)
    (rest : List Token) (r : Nat) (hr : r = (pre ++ ⟨none, parent, children⟩ :: mid).length) :
    grow (ofNodes (pre ++ ⟨none, parent, children⟩ :: mid)) (pre.length :: stack) (tokensOf t ++ rest) =
      grow (ofNodes (pre ++ ⟨none, parent, children ++ [(r : Ref)]⟩ :: mid ++ nodesOf (some (pre.length : Ref)) r t))
        (pre.length :: stack) rest := by
  match t with
  | .atom text =>
    rw [tokensOf, List.singleton_append, grow, Forest.atom, push_ofNodes, nodesOf]
    simp only
    rw [← hr, link_push pre mid parent children stack (some text) r hr]
  | .list items =>
    have hr' : r = (pre ++ ⟨none, parent, children ++ [(r : Ref)]⟩ :: mid).length := by
      rw [hr]
      simp
    have h := grow_tokensOfAll items (pre ++ ⟨none, parent, children ++ [(r : Ref)]⟩ :: mid) []
      (some (pre.length : Ref)) [] (pre.length :: stack) (.closing :: rest) (r + 1)
      (by rw [List.length_append, ← hr']; rfl)
    rw [← hr'] at h
    rw [tokensOf, List.cons_append, List.append_assoc, grow, emptyList, push_ofNodes]
    simp only
    rw [← hr, link_push pre mid parent children stack none r hr, List.singleton_append, h, grow, nodesOf]
    simp

theorem grow_tokensOfAll (ts : List Sexp) (pre mid : List Node) (parent : Option Ref) (children : List Ref)
    (stack : List Ref) (rest : List Token) (r : Nat) (hr : r = (pre ++ ⟨none, parent, children⟩ :: mid).length) :
    grow (ofNodes (pre ++ ⟨none, parent, children⟩ :: mid)) (pre.length :: stack) (tokensOfAll ts ++ rest) =
      grow (ofNodes (pre ++ ⟨none, parent, children ++ starts r ts⟩ :: mid ++ nodesOfAll pre.length r ts))
        (pre.length :: stack) rest := by
  match ts with
  | [] => simp [tokensOfAll, starts, nodesOfAll]
  | t :: ts =>
    have hnext : r + count t = (pre ++ ⟨none, parent, children ++ [(r : Ref)]⟩ ::
        (mid ++ nodesOf (some (pre.length : Ref)) r t)).length := by
      rw [hr]
      simp [length_nodesOf]
      omega
    rw [tokensOfAll, List.append_assoc, grow_tokensOf t pre mid parent children stack _ r hr, List.append_assoc,
      List.cons_append, grow_tokensOfAll ts pre _ parent _ stack rest (r + count t) hnext, starts, nodesOfAll]
    simp

end

/-- Growing a forest from the tokens of a list adds the nodes of the list. -/
theorem grow_list (nodes : List Node) (items : List Sexp) :
    grow (ofNodes nodes) [] (tokensOf (.list items)) = ofNodes (nodes ++ nodesOf none nodes.length (.list items)) := by
  rw [tokensOf, grow, emptyList, push_ofNodes]
  simp only
  rw [grow.link, grow_tokensOfAll items nodes [] none [] [] [.closing] (nodes.length + 1) (by simp), grow, grow,
    nodesOf]
  simp

/-! ## Planting -/

mutual

theorem plant_ofNodes (t : Sexp) (nodes : List Node) :
    (ofNodes nodes).plant t = (ofNodes (nodes ++ nodesOf none nodes.length t), (nodes.length : Ref)) := by
  match t with
  | .atom text => rw [plant, Forest.atom, push_ofNodes, nodesOf]
  | .list items =>
    rw [plant, emptyList, push_ofNodes]
    simp only
    rw [plantAll_ofNodes items nodes [] none [] (nodes.length + 1) (by simp), nodesOf]
    simp

theorem plantAll_ofNodes (ts : List Sexp) (pre mid : List Node) (parent : Option Ref) (children : List Ref)
    (r : Nat) (hr : r = (pre ++ ⟨none, parent, children⟩ :: mid).length) :
    (ofNodes (pre ++ ⟨none, parent, children⟩ :: mid)).plantAll pre.length ts =
      ofNodes (pre ++ ⟨none, parent, children ++ starts r ts⟩ :: mid ++ nodesOfAll pre.length r ts) := by
  match ts with
  | [] => simp [plantAll, starts, nodesOfAll]
  | t :: ts =>
    have hnext : r + count t = (pre ++ ⟨none, parent, children ++ [(r : Ref)]⟩ ::
        (mid ++ nodesOf (some (pre.length : Ref)) r t)).length := by
      rw [hr]
      simp [length_nodesOf]
      omega
    obtain ⟨text?, below, post, hroot⟩ : ∃ text? below post, ∀ p, nodesOf p r t = ⟨text?, p, below⟩ :: post := by
      cases t with
      | atom text => exact ⟨_, _, _, fun p => by rw [nodesOf]⟩
      | list items => exact ⟨_, _, _, fun p => by rw [nodesOf]⟩
    rw [plantAll, plant_ofNodes]
    simp only
    rw [← hr, hroot, append_ofNodes pre mid post parent text? children below r hr]
    simp only [Except.toOption, Option.getD_some]
    rw [← hroot, List.append_assoc, List.cons_append,
      plantAll_ofNodes ts pre _ parent _ (r + count t) hnext, starts, nodesOfAll]
    simp

end

end Forest

end Forager.Sexp
