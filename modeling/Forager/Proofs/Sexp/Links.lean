import Mathlib.Data.List.Chain
import Mathlib.Data.List.Nodup
import Mathlib.Data.List.Perm.Subperm
import Mathlib.Logic.Equiv.Basic
import Mathlib.Logic.Relation
import Mathlib.Order.WellFounded
import Forager.Proofs.Sexp.Relink

/-!
# Linked forests

Parents and children of a forest are stored separately. In a linked forest they agree, and the way up from any node
ends at a root.

* `Up f c p` : `p` is the parent of `c`; `Relation.ReflTransGen f.Up c a` says that `c` is `a` or lies below it;
* `Linked f` : parents and children agree, no child is listed twice, atoms have no children, there is no cycle;
* `ancestors f r` : the nodes above `r`, of which there are fewer than nodes in the forest (`Linked.depth_lt`), so that
  `root` and `isAncestor` never stop short (`Linked.root_eq`, `Linked.isAncestor_iff`);
* `Linked.push`, `Linked.append`, `Linked.swap` : new nodes, new links and exchanges keep a forest linked;
* `Linked.swap_ne_notAmongChildren` : a swap finds the nodes among the children of their parents.
-/

namespace Forager.Sexp.Forest

set_option autoImplicit false

open Relation (ReflTransGen TransGen)

variable {f g : Forest}

/-- The step from a node to its parent. -/
def Up (f : Forest) (c p : Ref) : Prop := f.parent c = some p

/-- A forest whose parents and children agree, without cycles. -/
structure Linked (f : Forest) : Prop where
  child_iff : ∀ p c, c ∈ f.children p ↔ f.parent c = some p
  nodup : ∀ p, (f.children p).Nodup
  childless : ∀ r, f.isList r = false → f.children r = []
  grounded : WellFounded fun p c => f.Up c p

/-! ## Validity -/

theorem valid_iff (f : Forest) (r : Ref) : f.valid r = true ↔ ∃ n, n < f.size ∧ r = (n : Ref) := by
  unfold valid node?
  cases r with
  | ofNat n =>
    constructor
    · intro h
      exact ⟨n, by simpa [size] using h, rfl⟩
    · rintro ⟨m, hm, hr⟩
      cases hr
      simpa [size] using hm
  | negSucc n =>
    constructor
    · intro h
      cases h
    · rintro ⟨m, -, hr⟩
      cases hr

theorem valid_of_parent {c p : Ref} (h : f.parent c = some p) : f.valid c = true := by
  unfold parent at h
  unfold valid
  cases hnode : f.node? c with
  | none =>
    rw [hnode] at h
    cases h
  | some n => rfl

theorem valid_of_child {p c : Ref} (h : c ∈ f.children p) : f.valid p = true := by
  rw [children_eq] at h
  unfold valid
  cases hnode : f.node? p with
  | none =>
    rw [hnode] at h
    cases h
  | some n => rfl

theorem valid_of_isList {r : Ref} (h : f.isList r = true) : f.valid r = true := by
  unfold isList at h
  unfold valid
  cases hnode : f.node? r with
  | none =>
    rw [hnode] at h
    cases h
  | some n => rfl

/-- There is only room for as many references as there are nodes. -/
theorem length_le_size {refs : List Ref} (hnodup : refs.Nodup) (hvalid : ∀ r ∈ refs, f.valid r = true) :
    refs.length ≤ f.size := by
  have hsubset : refs ⊆ (List.range f.size).map ((↑) : Nat → Ref) := by
    intro r hr
    obtain ⟨n, hn, rfl⟩ := (f.valid_iff r).mp (hvalid r hr)
    exact List.mem_map_of_mem (List.mem_range.mpr hn)
  have hle := (List.subperm_of_subset hnodup hsubset).length_le
  rwa [List.length_map, List.length_range] at hle

/-! ## The way up -/

/-- The next `fuel` nodes above `r`, the nearest first. -/
def lineage (f : Forest) : (fuel : Nat) → Ref → List Ref
  | 0, _ => []
  | fuel + 1, r => (f.parent r).elim [] fun p => p :: lineage f fuel p

/-- The nodes above `r`, the nearest first. -/
def ancestors (f : Forest) (r : Ref) : List Ref := f.lineage f.size r

def depth (f : Forest) (r : Ref) : Nat := (f.ancestors r).length

theorem isAbove_eq (f : Forest) (a : Ref) (fuel : Nat) (r : Ref) :
    f.isAbove a fuel r = decide (a ∈ f.lineage fuel r) := by
  induction fuel generalizing r with
  | zero => simp [isAbove, lineage]
  | succ fuel ih =>
    rw [isAbove, lineage]
    cases hp : f.parent r with
    | none => simp
    | some p => simp [ih, eq_comm]

theorem climb_eq (f : Forest) (fuel : Nat) (r : Ref) : f.climb fuel r = (f.lineage fuel r).getLastD r := by
  induction fuel generalizing r with
  | zero => rfl
  | succ fuel ih =>
    rw [climb, lineage]
    cases hp : f.parent r with
    | none => rfl
    | some p =>
      change f.climb fuel p = (p :: f.lineage fuel p).getLastD r
      rw [ih, List.getLastD_cons]

theorem isChain_lineage (f : Forest) (fuel : Nat) (r : Ref) : (r :: f.lineage fuel r).IsChain f.Up := by
  induction fuel generalizing r with
  | zero => exact .singleton r
  | succ fuel ih =>
    rw [lineage]
    cases hp : f.parent r with
    | none => exact .singleton r
    | some p => exact .cons_cons hp (ih p)

theorem lineage_succ_of_lt {fuel : Nat} {r : Ref} (h : (f.lineage fuel r).length < fuel) :
    f.lineage (fuel + 1) r = f.lineage fuel r := by
  induction fuel generalizing r with
  | zero => cases h
  | succ fuel ih =>
    rw [lineage, lineage]
    cases hp : f.parent r with
    | none => rfl
    | some p =>
      rw [lineage, hp, Option.elim_some, List.length_cons] at h
      rw [Option.elim_some, Option.elim_some, ih (by omega)]

theorem reaches_of_mem_lineage {fuel : Nat} {a r : Ref} (h : a ∈ f.lineage fuel r) : TransGen f.Up r a := by
  induction fuel generalizing r with
  | zero => cases h
  | succ fuel ih =>
    rw [lineage] at h
    cases hp : f.parent r with
    | none =>
      rw [hp] at h
      cases h
    | some p =>
      rw [hp, Option.elim_some] at h
      rcases List.mem_cons.mp h with rfl | h
      · exact .single hp
      · exact .head hp (ih h)

namespace Linked

variable (h : f.Linked)

include h

theorem mem_children {p c : Ref} (hp : f.parent c = some p) : c ∈ f.children p := (h.child_iff p c).mpr hp

theorem parent_of_mem {p c : Ref} (hc : c ∈ f.children p) : f.parent c = some p := (h.child_iff p c).mp hc

theorem valid_parent {p c : Ref} (hp : f.parent c = some p) : f.valid p = true := valid_of_child (h.mem_children hp)

theorem valid_child {p c : Ref} (hc : c ∈ f.children p) : f.valid c = true := valid_of_parent (h.parent_of_mem hc)

theorem not_above_itself (r : Ref) : ¬ TransGen f.Up r r := by
  intro hr
  exact h.grounded.transGen.irrefl.irrefl r (Relation.transGen_swap.mpr hr)

theorem valid_of_reaches {r a : Ref} (hr : f.valid r = true) (ha : ReflTransGen f.Up r a) : f.valid a = true := by
  rcases Relation.ReflTransGen.cases_tail ha with rfl | ⟨c, -, hc⟩
  · exact hr
  · exact h.valid_parent hc

theorem nodup_lineage (fuel : Nat) (r : Ref) : (r :: f.lineage fuel r).Nodup := by
  have hchain : (r :: f.lineage fuel r).IsChain (TransGen f.Up) :=
    (f.isChain_lineage fuel r).imp fun _ _ => .single
  refine hchain.pairwise.imp ?_
  rintro a _ hab rfl
  exact h.not_above_itself a hab

theorem length_lineage_lt (fuel : Nat) {r : Ref} (hr : f.valid r = true) : (f.lineage fuel r).length < f.size := by
  have hle := length_le_size (h.nodup_lineage fuel r) fun a ha => by
    rcases List.mem_cons.mp ha with rfl | ha
    · exact hr
    · exact h.valid_of_reaches hr (reaches_of_mem_lineage ha).to_reflTransGen
  rw [List.length_cons] at hle
  omega

/-- Every node but a root has as ancestors its parent and the ancestors of its parent. -/
theorem ancestors_eq (r : Ref) : f.ancestors r = (f.parent r).elim [] fun p => p :: f.ancestors p := by
  unfold ancestors
  cases hp : f.parent r with
  | none =>
    cases f.size with
    | zero => rfl
    | succ n =>
      rw [lineage, hp]
      rfl
  | some p =>
    have hlt := h.length_lineage_lt f.size (valid_of_parent hp)
    obtain ⟨n, hn⟩ : ∃ n, f.size = n + 1 := ⟨f.size - 1, by omega⟩
    rw [hn, lineage, hp, Option.elim_some, List.length_cons] at hlt
    rw [hn, lineage, hp, Option.elim_some, Option.elim_some, lineage_succ_of_lt (by omega)]

theorem depth_lt {r : Ref} (hr : f.valid r = true) : f.depth r < f.size := h.length_lineage_lt f.size hr

theorem depth_child {p c : Ref} (hc : c ∈ f.children p) : f.depth c = f.depth p + 1 := by
  unfold depth
  rw [h.ancestors_eq c, h.parent_of_mem hc, Option.elim_some, List.length_cons]

theorem mem_ancestors_iff (a r : Ref) : a ∈ f.ancestors r ↔ TransGen f.Up r a := by
  constructor
  · exact reaches_of_mem_lineage
  · intro ha
    induction ha using TransGen.head_induction_on with
    | single hr =>
      rw [h.ancestors_eq, hr]
      exact List.mem_cons_self
    | head hr _ ih =>
      rw [h.ancestors_eq, hr]
      exact List.mem_cons_of_mem _ ih

/-- The search for an ancestor finds every ancestor. -/
theorem isAncestor_iff (a r : Ref) : f.isAncestor a r = true ↔ TransGen f.Up r a := by
  rw [isAncestor, isAbove_eq, decide_eq_true_iff, ← h.mem_ancestors_iff]
  rfl

theorem isAncestor_eq (a r : Ref) :
    f.isAncestor a r = (f.parent r).elim false fun p => p = a || f.isAncestor a p := by
  have hmem : ∀ s, f.isAncestor a s = decide (a ∈ f.ancestors s) := fun s => f.isAbove_eq a f.size s
  rw [hmem, h.ancestors_eq]
  cases f.parent r with
  | none => simp
  | some p => simp [hmem, eq_comm]

theorem root_eq (r : Ref) : f.root r = (f.parent r).elim r f.root := by
  have hlast : ∀ s, f.root s = (f.ancestors s).getLastD s := fun s => f.climb_eq f.size s
  rw [hlast, h.ancestors_eq]
  cases f.parent r with
  | none => rfl
  | some p => rw [Option.elim_some, Option.elim_some, List.getLastD_cons, hlast]

/-- The way up from a node ends at its root. -/
theorem root_spec (r : Ref) : ReflTransGen f.Up r (f.root r) ∧ f.parent (f.root r) = none := by
  induction r using h.grounded.induction with
  | _ r ih =>
    rw [h.root_eq]
    cases hp : f.parent r with
    | none => exact ⟨.refl, hp⟩
    | some p => exact ⟨.head hp (ih p hp).1, (ih p hp).2⟩

/-- The way down ends as well. -/
theorem descends : WellFounded fun c p => c ∈ f.children p := by
  refine Subrelation.wf ?_ (measure fun r => f.size - f.depth r).wf
  intro c p hc
  have hlt := h.depth_lt (h.valid_child hc)
  have hdepth := h.depth_child hc
  change f.size - f.depth c < f.size - f.depth p
  omega

end Linked

/-! ## New nodes -/

theorem node?_push (f : Forest) (n : Node) (r : Ref) :
    (f.push n).1.node? r = if r = (f.size : Ref) then some n else f.node? r := by
  unfold push node? size
  cases r with
  | ofNat m => simp only [Array.getElem?_push, Int.ofNat_eq_natCast, Int.natCast_inj]
  | negSucc m => exact (if_neg nofun).symm

theorem node?_size (f : Forest) : f.node? (f.size : Ref) = none := by
  change f.nodes[f.nodes.size]? = none
  simp

/-- A new node without parent and children changes no link. -/
theorem parent_push (f : Forest) (text? : Option String) (r : Ref) :
    (f.push ⟨text?, none, []⟩).1.parent r = f.parent r := by
  unfold parent
  rw [node?_push]
  split
  · rename_i hr
    rw [hr, node?_size]
    rfl
  · rfl

theorem children_push (f : Forest) (text? : Option String) (r : Ref) :
    (f.push ⟨text?, none, []⟩).1.children r = f.children r := by
  rw [children_eq, children_eq, node?_push]
  split
  · rename_i hr
    rw [hr, node?_size]
    rfl
  · rfl

theorem valid_push (f : Forest) (n : Node) {r : Ref} (hr : f.valid r = true) : (f.push n).1.valid r = true := by
  unfold valid at hr ⊢
  rw [node?_push]
  split
  · rfl
  · exact hr

theorem valid_push_self (f : Forest) (n : Node) : (f.push n).1.valid (f.size : Ref) = true := by
  rw [valid, node?_push, if_pos rfl]
  rfl

theorem Linked.push (h : f.Linked) (text? : Option String) : (f.push ⟨text?, none, []⟩).1.Linked where
  child_iff p c := by
    rw [children_push, parent_push]
    exact h.child_iff p c
  nodup p := by
    rw [children_push]
    exact h.nodup p
  childless r hr := by
    rw [children_push]
    rw [isList_eq, node?_push] at hr
    split at hr
    · rename_i hsize
      rw [hsize, children_eq, node?_size]
      rfl
    · exact h.childless r (by rwa [isList_eq])
  grounded := by
    have hup : (f.push ⟨text?, none, []⟩).1.Up = f.Up := by
      funext c p
      unfold Up
      rw [parent_push]
    rw [hup]
    exact h.grounded

/-! ## New links -/

/-- All that linking a child to a list does. -/
theorem append_inv {l c : Ref} (h : f.append l c = .ok g) :
    f.isList l = true ∧ f.valid c = true ∧ f.parent c = none ∧
      (∀ r, (g.node? r).map (·.text?) = (f.node? r).map (·.text?)) ∧
      (∀ r, g.children r = if l = r then f.children r ++ [c] else f.children r) ∧
      ∀ r, g.parent r = if c = r then some l else f.parent r := by
  unfold append at h
  split at h
  · rename_i nl nc hl hc
    split at h
    · cases h
    · rename_i hlist
      split at h
      · cases h
      · rename_i hroot
        cases h
        have hvalid : f.valid c = true := by rw [valid, hc]; rfl
        refine ⟨?_, hvalid, ?_, fun r => ?_, fun r => ?_, fun r => ?_⟩
        · rw [isList, hl]
          simpa using hlist
        · rw [parent, hc]
          simpa using hroot
        · rw [text?_update_parent, text?_update_children]
        · rw [children_update_parent, children_eq, children_eq, node?_update]
          split
          · rename_i hr
            rw [← hr, hl]
            rfl
          · rfl
        · rw [parent_update_parent, parent_update_children]
          by_cases hr : c = r
          · subst hr
            rw [valid_eq, text?_update_children, ← valid_eq, hvalid]
            simp
          · simp [hr]
  · cases h

/-- Moving subtrees makes no cycle: outside of the region `S` that moves nothing changes, and a new link leads out
of it. -/
theorem grounded_of_moved (hgrounded : WellFounded fun p c => f.Up c p) (S : Ref → Prop)
    (houtside : ∀ c p, ¬ S c → g.Up c p → f.Up c p ∧ ¬ S p) (hinside : ∀ c p, S c → g.Up c p → f.Up c p ∨ ¬ S p) :
    WellFounded fun p c => g.Up c p := by
  have hout : ∀ c, ¬ S c → Acc (fun p c => g.Up c p) c := by
    intro c
    induction c using hgrounded.induction with
    | _ c ih =>
      intro hc
      refine .intro c fun p hp => ?_
      obtain ⟨hold, hnot⟩ := houtside c p hc hp
      exact ih p hold hnot
  refine ⟨fun c => ?_⟩
  induction c using hgrounded.induction with
  | _ c ih =>
    by_cases hc : S c
    · refine .intro c fun p hp => ?_
      rcases hinside c p hc hp with hold | hnot
      · exact ih p hold
      · exact hout p hnot
    · exact hout c hc

/-- A list may adopt a root that is not above it. -/
theorem Linked.append (h : f.Linked) {l c : Ref} (happend : f.append l c = .ok g)
    (hbelow : ¬ ReflTransGen f.Up l c) : g.Linked := by
  obtain ⟨hlist, hvalid, hroot, htext, hchildren, hparent⟩ := append_inv happend
  have hnew : ∀ p, c ∉ f.children p := by
    intro p hc
    rw [h.parent_of_mem hc] at hroot
    cases hroot
  refine ⟨fun p r => ?_, fun p => ?_, fun r hr => ?_, ?_⟩
  · rw [hchildren, hparent]
    by_cases hr : c = r
    · subst hr
      rw [if_pos rfl, Option.some.injEq]
      by_cases hp : l = p
      · simp [hp]
      · simp [hp, hnew p]
    · rw [if_neg hr, ← h.child_iff]
      by_cases hp : l = p
      · simp [hp, Ne.symm hr]
      · simp [hp]
  · rw [hchildren]
    split
    · exact (h.nodup p).append (List.nodup_singleton c) (by simpa using hnew p)
    · exact h.nodup p
  · have hne : l ≠ r := by
      rintro rfl
      rw [isList_eq, htext, ← isList_eq, hlist] at hr
      cases hr
    rw [hchildren, if_neg hne]
    rw [isList_eq, htext, ← isList_eq] at hr
    exact h.childless r hr
  · -- What moves is the tree of the child.
    refine grounded_of_moved h.grounded (fun r => ReflTransGen f.Up r c) ?_ ?_
    · intro r p hr hp
      have hne : c ≠ r := by
        rintro rfl
        exact hr .refl
      unfold Up at hp
      rw [hparent, if_neg hne] at hp
      exact ⟨hp, fun hpc => hr (.head hp hpc)⟩
    · intro r p hr hp
      unfold Up at hp
      rw [hparent] at hp
      split at hp
      · cases hp
        exact .inr hbelow
      · exact .inl hp

/-! ## Exchanges -/

/-- A child stands at one place only. -/
theorem Linked.place_iff (h : f.Linked) {z p : Ref} {i : Nat} (hi : (f.children p).idxOf? z = some i) (r : Ref)
    (j : Nat) : (f.children r)[j]? = some z ↔ p = r ∧ i = j := by
  obtain ⟨hlt, hz, -⟩ := List.idxOf?_eq_some_iff.mp hi
  have hplace : (f.children p)[i]? = some z := by rw [List.getElem?_eq_getElem hlt, hz]
  constructor
  · intro hj
    have hp := h.parent_of_mem (List.mem_of_getElem? hplace)
    rw [h.parent_of_mem (List.mem_of_getElem? hj)] at hp
    cases hp
    exact ⟨rfl, (List.getElem?_inj hlt (h.nodup p)).mp (hplace.trans hj.symm)⟩
  · rintro ⟨rfl, rfl⟩
    exact hplace

/-- In a linked forest a swap exchanges the two nodes wherever they occur. -/
theorem Linked.swap_links (h : f.Linked) {x y : Ref} (hswap : f.swap x y = .ok g) :
    (∀ r, g.children r = (f.children r).map (Equiv.swap x y)) ∧ ∀ r, g.parent r = f.parent (Equiv.swap x y r) := by
  obtain ⟨px, py, ix, iy, hne, hpx, hpy, -, -, hix, hiy, rfl⟩ := swap_changes hswap
  constructor
  · intro r
    rw [children_update_parent, children_update_parent, children_update_set, children_update_set]
    have hset : ∀ (l : List Ref) (p : Ref) (i j : Nat) (z : Ref),
        (if p = r then l.set i z else l)[j]? = if p = r ∧ i = j then l[j]?.map fun _ => z else l[j]? := by
      intro l p i j z
      by_cases hp : p = r
      · simp only [hp, if_true, true_and, List.getElem?_set']
        rfl
      · simp [hp]
    apply List.ext_getElem?
    intro j
    simp only [hset, ← h.place_iff hix, ← h.place_iff hiy, List.getElem?_map]
    cases hj : (f.children r)[j]? with
    | none => simp
    | some c =>
      change _ = some (Equiv.swap x y c)
      rw [Equiv.swap_apply_def]
      by_cases hcx : c = x
      · simp [hcx, hne]
      · by_cases hcy : c = y
        · simp [hcy, hne.symm]
        · simp [hcx, hcy]
  · intro r
    rw [parent_update_parent, parent_update_parent, parent_update_children, parent_update_children, valid_eq, valid_eq,
      text?_update_parent, text?_update_children, text?_update_children, ← valid_eq, Equiv.swap_apply_def]
    by_cases hrx : r = x
    · subst hrx
      simp [hne.symm, valid_of_parent hpx, hpy]
    · by_cases hry : r = y
      · subst hry
        simp [hrx, valid_of_parent hpy, hpx]
      · simp [hrx, hry, Ne.symm hrx, Ne.symm hry]

theorem Linked.swap (h : f.Linked) {x y : Ref} (hswap : f.swap x y = .ok g) : g.Linked := by
  obtain ⟨hchildren, hparent⟩ := h.swap_links hswap
  obtain ⟨px, py, -, -, -, hpx, hpy, hxy, hyx, -, -, -⟩ := swap_changes hswap
  refine ⟨fun p c => ?_, fun p => ?_, fun r hr => ?_, ?_⟩
  · rw [hchildren, hparent, ← h.child_iff, List.mem_map_of_involutive (Equiv.swap_apply_self x y)]
  · rw [hchildren]
    exact (h.nodup p).map (Equiv.injective _)
  · rw [isList_swap hswap] at hr
    rw [hchildren, h.childless r hr]
    rfl
  · -- What moves are the trees of the two nodes, neither of which holds the parent of the other.
    have hparents : ∀ {z p : Ref}, z = x ∨ z = y → f.parent z = some p →
        ¬ (ReflTransGen f.Up p x ∨ ReflTransGen f.Up p y) := by
      have hnested : ¬ TransGen f.Up y x ∧ ¬ TransGen f.Up x y := by
        rw [← h.isAncestor_iff, ← h.isAncestor_iff, hxy, hyx]
        simp
      rintro z p (rfl | rfl) hp (hbelow | hbelow)
      · exact h.not_above_itself _ (.head' hp hbelow)
      · exact hnested.2 (.head' hp hbelow)
      · exact hnested.1 (.head' hp hbelow)
      · exact h.not_above_itself _ (.head' hp hbelow)
    refine grounded_of_moved h.grounded (fun r => ReflTransGen f.Up r x ∨ ReflTransGen f.Up r y) ?_ ?_
    · intro r p hr hp
      have hrx : r ≠ x := fun hrx => hr (.inl (hrx ▸ .refl))
      have hry : r ≠ y := fun hry => hr (.inr (hry ▸ .refl))
      unfold Up at hp
      rw [hparent, Equiv.swap_apply_of_ne_of_ne hrx hry] at hp
      exact ⟨hp, fun hbelow => hr (hbelow.imp (.head hp) (.head hp))⟩
    · intro r p _ hp
      unfold Up at hp
      rw [hparent] at hp
      by_cases hrx : r = x
      · rw [hrx, Equiv.swap_apply_left] at hp
        exact .inr (hparents (.inr rfl) hp)
      · by_cases hry : r = y
        · rw [hry, Equiv.swap_apply_right] at hp
          exact .inr (hparents (.inl rfl) hp)
        · rw [Equiv.swap_apply_of_ne_of_ne hrx hry] at hp
          exact .inl hp

/-- A node is found among the children of its parent. -/
theorem Linked.swap_ne_notAmongChildren (h : f.Linked) (x y : Ref) : f.swap x y ≠ .error .notAmongChildren := by
  intro hswap
  obtain ⟨px, py, hpx, hpy, hmissing | hmissing⟩ := swap_notAmongChildren hswap
  · exact List.idxOf?_eq_none_iff.mp hmissing (h.mem_children hpx)
  · exact List.idxOf?_eq_none_iff.mp hmissing (h.mem_children hpy)

end Forager.Sexp.Forest
