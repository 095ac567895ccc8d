import Forager.Proofs.Sexp.Transplant

/-!
# Swaps are exact and reversible

A swap changes four links of a forest. In the trees that are read from it two subtrees change places, and nothing else
happens; the same swap again undoes it.

* `sub? t path`, `replace t path s` : the part of a tree at a place, and the tree with another part there;
* `descend f r path` : the node that a place in the tree of `r` belongs to; `Linked.sub?_descend` : the part there is
  the tree of that node;
* `Locates f r z path?` : the place of `z` in the tree of `r`, if it has one; it has one only (`Linked.locates_unique`);
* `Puts f x y s u r tree?` : the trees of `x` and `y` are exchanged in the tree of `r`; `Exchanged.puts_tree` : so
  they are after an exchange, for every other node `r`;
* `Linked.apart_swap` : the two nodes can be exchanged again; `ext_links` : links and texts make a forest;
* `swap_exact` : when a swap succeeds, and all that it does.
-/

namespace Forager.Sexp

set_option autoImplicit false

/-- The part of a tree at a place, if the place exists. -/
def sub? : Sexp → List Nat → Option Sexp
  | t, [] => some t
  | t, i :: path => t.items[i]?.bind (sub? · path)

/-- The tree with another one at a place. -/
def replace : Sexp → List Nat → Sexp → Sexp
  | _, [], s => s
  | .atom text, _ :: _, _ => .atom text
  | .list items, i :: path, s => .list (items.modify i (replace · path s))

/-- The tree with another one at a place, if there is a place. -/
def put (t : Sexp) (path? : Option (List Nat)) (s : Sexp) : Sexp := path?.elim t (t.replace · s)

namespace Forest

open Relation (ReflTransGen TransGen)

variable {f g : Forest} {x y z r : Ref} {path : List Nat}

/-- The node at a place in the tree of a node. -/
def descend (f : Forest) : Ref → List Nat → Option Ref
  | r, [] => some r
  | r, i :: path => (f.children r)[i]?.bind (descend f · path)

/-- The place of a node in the tree of another, which has none if it is not in that tree. -/
def Locates (f : Forest) (r z : Ref) : Option (List Nat) → Prop
  | some path => f.descend r path = some z
  | none => ∀ path, f.descend r path ≠ some z

theorem locates_self (f : Forest) (r : Ref) : f.Locates r r (some []) := rfl

/-! ## Places -/

theorem getElem?_of_map {α β : Type} {read : α → Option β} {as : List α} {bs : List β} (h : as.map read = bs.map some)
    {i : Nat} {a : α} (ha : as[i]? = some a) : bs[i]? = read a := by
  have hi := congrArg (·[i]?) h
  simp only [List.getElem?_map, ha, Option.map_some] at hi
  cases hb : bs[i]? with
  | none => simp [hb] at hi
  | some b => simpa [hb] using hi.symm

theorem descend_cons {i : Nat} (h : f.descend r (i :: path) = some z) :
    ∃ c, (f.children r)[i]? = some c ∧ f.descend c path = some z :=
  Option.bind_eq_some_iff.mp h

theorem exists_locates (f : Forest) (r z : Ref) : ∃ path?, f.Locates r z path? := by
  by_cases h : ∃ path, f.descend r path = some z
  · obtain ⟨path, hpath⟩ := h
    exact ⟨some path, hpath⟩
  · exact ⟨none, fun path hpath => h ⟨path, hpath⟩⟩

namespace Linked

variable (h : f.Linked)

include h

theorem below_of_descend (hz : f.descend r path = some z) : ReflTransGen f.Up z r := by
  induction path generalizing r with
  | nil =>
    cases hz
    exact .refl
  | cons i path ih =>
    obtain ⟨c, hc, hz⟩ := descend_cons hz
    exact (ih hz).tail (h.parent_of_mem (List.mem_of_getElem? hc))

/-- A node that does not lie below another has no place in its tree. -/
theorem locates_none (hz : ¬ ReflTransGen f.Up z r) : f.Locates r z none :=
  fun _ hpath => hz (h.below_of_descend hpath)

/-- The root of a tree has no second place in it. -/
theorem descend_self (hr : f.descend r path = some r) : path = [] := by
  cases path with
  | nil => rfl
  | cons i path =>
    obtain ⟨c, hc, hr⟩ := descend_cons hr
    have hup : f.Up c r := h.parent_of_mem (List.mem_of_getElem? hc)
    exact absurd (.tail' (h.below_of_descend hr) hup) (h.not_above_itself r)

theorem descend_unique {other : List Nat} (hpath : f.descend r path = some z) (hother : f.descend r other = some z) :
    path = other := by
  induction path generalizing r other with
  | nil =>
    cases hpath
    exact (h.descend_self hother).symm
  | cons i path ih =>
    cases other with
    | nil =>
      cases hother
      exact h.descend_self hpath
    | cons j other =>
      obtain ⟨c, hc, hpath⟩ := descend_cons hpath
      obtain ⟨d, hd, hother⟩ := descend_cons hother
      -- The node lies below one of the children only, and this one is listed once.
      have hcd : c = d := h.eq_of_below (List.mem_of_getElem? hc) (List.mem_of_getElem? hd) (h.below_of_descend hpath)
        (h.below_of_descend hother)
      subst hcd
      have hlt := (List.getElem?_eq_some_iff.mp hc).1
      have hij : i = j := (List.getElem?_inj hlt (h.nodup r)).mp (hc.trans hd.symm)
      rw [hij, ih hpath hother]

theorem locates_unique {path? other? : Option (List Nat)} (hpath : f.Locates r z path?)
    (hother : f.Locates r z other?) :
    path? = other? := by
  cases path? with
  | none =>
    cases other? with
    | none => rfl
    | some other => exact absurd hother (hpath other)
  | some path =>
    cases other? with
    | none => exact absurd hpath (hother path)
    | some other => rw [h.descend_unique hpath hother]

/-- The part of a tree at the place of a node is the tree of that node. -/
theorem sub?_descend {t : Sexp} (hz : f.descend r path = some z) (ht : f.tree? r = some t) :
    t.sub? path = f.tree? z := by
  induction path generalizing r t with
  | nil =>
    cases hz
    exact ht.symm
  | cons i path ih =>
    obtain ⟨c, hc, hz⟩ := descend_cons hz
    have hlist : f.isList r = true := by
      by_contra hatom
      rw [h.childless r (by simpa using hatom)] at hc
      cases hc
    obtain ⟨items, htree, hitems⟩ := h.tree?_list hlist
    rw [ht] at htree
    cases htree
    obtain ⟨s, hs⟩ := h.exists_tree (h.valid_child (List.mem_of_getElem? hc))
    change items[i]?.bind (sub? · path) = f.tree? z
    rw [getElem?_of_map hitems hc, hs]
    exact ih hz hs

/-- Below the root, a replacement happens in each child by itself. -/
theorem put_list {path? : Option (List Nat)} (hz : f.Locates r z path?) (hne : r ≠ z) (items : List Sexp) (s : Sexp) :
    ∃ items', (Sexp.list items).put path? s = .list items' ∧ items'.length = items.length ∧
      ∀ (i : Nat) c below?, (f.children r)[i]? = some c → f.Locates c z below? →
        items'[i]? = items[i]?.map (·.put below? s) := by
  cases path? with
  | none =>
    refine ⟨items, rfl, rfl, fun i c below? hc hbelow => ?_⟩
    cases below? with
    | none => exact (Option.map_id_apply).symm
    | some path => exact absurd (by rw [descend, hc]; exact hbelow) (hz (i :: path))
  | some path =>
    cases path with
    | nil =>
      cases hz
      exact absurd rfl hne
    | cons j path =>
      obtain ⟨d, hd, hz⟩ := descend_cons hz
      refine ⟨items.modify j (replace · path s), rfl, List.length_modify .., fun i c below? hc hbelow => ?_⟩
      rw [List.getElem?_modify]
      by_cases hij : j = i
      · subst hij
        obtain rfl : d = c := Option.some.inj (hd.symm.trans hc)
        have hplace : f.Locates d z (some path) := hz
        obtain rfl := h.locates_unique hplace hbelow
        simp [put]
      · have hnone : f.Locates c z none := by
          refine h.locates_none fun hzc => hij ?_
          have hdc : d = c := h.eq_of_below (List.mem_of_getElem? hd) (List.mem_of_getElem? hc)
            (h.below_of_descend hz) hzc
          subst hdc
          exact (List.getElem?_inj (List.getElem?_eq_some_iff.mp hd).1 (h.nodup r)).mp (hd.trans hc.symm)
        obtain rfl := h.locates_unique hnone hbelow
        simp [hij, put]

end Linked

/-! ## Trees after an exchange -/

/-- The tree is the one that `r` had, with `u` at the place of `x` and `s` at the place of `y`. -/
def Puts (f : Forest) (x y : Ref) (s u : Sexp) (r : Ref) (tree? : Option Sexp) : Prop :=
  ∀ t px? py?, f.tree? r = some t → f.Locates r x px? → f.Locates r y py? → tree? = some ((t.put px? u).put py? s)

namespace Exchanged

variable (h : Exchanged f g x y)

include h

theorem tree?_left : g.tree? x = f.tree? x := h.symm.tree?_right

/-- An atom has no places but its own. -/
theorem puts_atom (s u : Sexp) (hlist : f.isList r = false) (hrx : r ≠ x) (hry : r ≠ y) :
    f.Puts x y s u r (g.tree? r) := by
  intro t px? py? ht hx hy
  have hnone : ∀ {z : Ref}, r ≠ z → ¬ ReflTransGen f.Up z r := by
    intro z hrz hbelow
    rcases hbelow.cases_tail with heq | ⟨c, -, hc⟩
    · exact hrz heq
    · have hmem := h.before.mem_children hc
      rw [h.before.childless r hlist] at hmem
      cases hmem
  obtain rfl := h.before.locates_unique (h.before.locates_none (hnone hrx)) hx
  obtain rfl := h.before.locates_unique (h.before.locates_none (hnone hry)) hy
  rw [h.tree?_eq (fun hbelow => hnone hrx hbelow.to_reflTransGen) (fun hbelow => hnone hry hbelow.to_reflTransGen)]
  exact ht

/-- Where one of the two nodes was, the other one is. -/
theorem puts_swap (hne : x ≠ y) {s u : Sexp} (hs : f.tree? x = some s) (hu : f.tree? y = some u) {c : Ref}
    (hother : c ≠ x → c ≠ y → f.Puts x y s u c (g.tree? c)) : f.Puts x y s u c (g.tree? (Equiv.swap x y c)) := by
  intro t px? py? ht hx hy
  by_cases hcx : c = x
  · subst hcx
    have hyx : f.Locates c y none := h.before.locates_none fun hbelow =>
      (Relation.reflTransGen_iff_eq_or_transGen.mp hbelow).elim hne h.apart.2
    obtain rfl := h.before.locates_unique (locates_self f c) hx
    obtain rfl := h.before.locates_unique hyx hy
    rw [Equiv.swap_apply_left, h.tree?_right]
    exact hu
  · by_cases hcy : c = y
    · subst hcy
      have hxy : f.Locates c x none := h.before.locates_none fun hbelow =>
        (Relation.reflTransGen_iff_eq_or_transGen.mp hbelow).elim hne.symm h.apart.1
      obtain rfl := h.before.locates_unique hxy hx
      obtain rfl := h.before.locates_unique (locates_self f c) hy
      rw [Equiv.swap_apply_right, h.tree?_left]
      exact hs
    · rw [Equiv.swap_apply_of_ne_of_ne hcx hcy]
      exact hother hcx hcy t px? py? ht hx hy

/-- The tree of a list is put together from the trees of its children. -/
theorem puts_list {s u : Sexp} (hlist : f.isList r = true) (hrx : r ≠ x) (hry : r ≠ y)
    (hchildren : ∀ c ∈ f.children r, f.Puts x y s u c (g.tree? (Equiv.swap x y c))) :
    f.Puts x y s u r (g.tree? r) := by
  intro t px? py? ht hx hy
  obtain ⟨items, htree, hitems⟩ := h.before.tree?_list hlist
  obtain ⟨items', htree', hitems'⟩ := h.after.tree?_list ((h.isList_eq r).trans hlist)
  rw [h.children, List.map_map] at hitems'
  obtain rfl : t = .list items := Option.some.inj (ht.symm.trans htree)
  obtain ⟨once, honce, hlength, hget⟩ := h.before.put_list hx hrx items u
  obtain ⟨twice, htwice, hlength', hget'⟩ := h.before.put_list hy hry once s
  rw [honce, htwice, htree']
  congr 2
  apply List.ext_getElem?
  intro i
  cases hc : (f.children r)[i]? with
  | none =>
    have hcount := congrArg List.length hitems
    have hcount' := congrArg List.length hitems'
    rw [List.length_map, List.length_map] at hcount hcount'
    rw [List.getElem?_eq_none_iff] at hc
    rw [List.getElem?_eq_none (by omega), List.getElem?_eq_none (by omega)]
  | some c =>
    have hmem := List.mem_of_getElem? hc
    obtain ⟨tc, htc⟩ := h.before.exists_tree (h.before.valid_child hmem)
    obtain ⟨qx?, hqx⟩ := exists_locates f c x
    obtain ⟨qy?, hqy⟩ := exists_locates f c y
    rw [hget' i c qy? hc hqy, hget i c qx? hc hqx, getElem?_of_map hitems hc, htc, getElem?_of_map hitems' hc]
    exact hchildren c hmem tc qx? qy? htc hqx hqy

/-- The tree of every other node is the one it had, with the trees of the two nodes exchanged wherever they are in
it. -/
theorem puts_tree (hne : x ≠ y) {s u : Sexp} (hs : f.tree? x = some s) (hu : f.tree? y = some u) (hrx : r ≠ x)
    (hry : r ≠ y) : f.Puts x y s u r (g.tree? r) := by
  induction r using h.before.descends.induction with
  | _ r ih =>
    cases hlist : f.isList r with
    | false => exact h.puts_atom s u hlist hrx hry
    | true => exact h.puts_list hlist hrx hry fun c hc => h.puts_swap hne hs hu (ih c hc)

end Exchanged

/-! ## Swapping back -/

/-- Texts, parents and children make a forest. -/
theorem ext_links (htext : ∀ r, (g.node? r).map (·.text?) = (f.node? r).map (·.text?))
    (hparent : ∀ r, g.parent r = f.parent r) (hchildren : ∀ r, g.children r = f.children r) : g = f := by
  have hnode : ∀ r, g.node? r = f.node? r := by
    intro r
    have htext := htext r
    have hparent := hparent r
    have hchildren := hchildren r
    unfold parent at hparent
    rw [children_eq, children_eq] at hchildren
    cases hg : g.node? r with
    | none =>
      rw [hg] at htext
      exact (Option.map_eq_none_iff.mp htext.symm).symm
    | some n =>
      cases hf : f.node? r with
      | none =>
        rw [hg, hf] at htext
        cases htext
      | some m =>
        obtain ⟨nt, np, nc⟩ := n
        obtain ⟨mt, mp, mc⟩ := m
        simp only [hg, hf, Option.map_some, Option.some.injEq, Option.bind_some, Option.getD_some]
          at htext hparent hchildren
        rw [htext, hparent, hchildren]
  obtain ⟨nodes⟩ := g
  obtain ⟨nodes'⟩ := f
  congr 1
  apply Array.ext_getElem?
  intro i
  exact hnode i

/-- The parents of nodes that are apart lie in neither of their subtrees. -/
theorem Apart.outside (hapart : f.Apart x y) (h : f.Linked) {p : Ref} (hp : f.parent x = some p ∨ f.parent y = some p) :
    ¬ ReflTransGen f.Up p x ∧ ¬ ReflTransGen f.Up p y := by
  rcases hp with hp | hp
  · exact ⟨fun hpx => h.not_above_itself x (.head' hp hpx), fun hpy => hapart.not_below (.head' hp hpy)⟩
  · exact ⟨fun hpx => hapart.not_above (.head' hp hpx), fun hpy => h.not_above_itself y (.head' hp hpy)⟩

namespace Linked

variable (h : f.Linked) (hswap : f.swap x y = .ok g)

include h hswap

/-- What lies above a node outside the two subtrees lay above it before. -/
theorem above_swap {a b : Ref} (hx : ¬ ReflTransGen f.Up a x) (hy : ¬ ReflTransGen f.Up a y)
    (hab : ReflTransGen g.Up a b) : ReflTransGen f.Up a b := by
  induction hab using ReflTransGen.head_induction_on with
  | refl => exact .refl
  | @head a c hac _ ih =>
    have hax : a ≠ x := fun heq => hx (heq ▸ .refl)
    have hay : a ≠ y := fun heq => hy (heq ▸ .refl)
    unfold Up at hac
    rw [(h.swap_links hswap).2, Equiv.swap_apply_of_ne_of_ne hax hay] at hac
    exact .head hac (ih (fun hcx => hx (.head hac hcx)) fun hcy => hy (.head hac hcy))

/-- Nodes that were exchanged are apart. -/
theorem apart_swap : g.Apart x y := by
  have hapart := h.exists_swap_iff.mp ⟨g, hswap⟩
  have hparent := (h.swap_links hswap).2
  have hx : g.parent x = f.parent y := by rw [hparent, Equiv.swap_apply_left]
  have hy : g.parent y = f.parent x := by rw [hparent, Equiv.swap_apply_right]
  refine ⟨hapart.ne, hx ▸ hapart.right, hy ▸ hapart.left, fun habove => ?_, fun habove => ?_⟩
  · obtain ⟨p, hp, hrest⟩ := Relation.TransGen.head'_iff.mp habove
    obtain ⟨hpx, hpy⟩ := hapart.outside h (.inr (hx.symm.trans hp))
    exact hpy (h.above_swap hswap hpx hpy hrest)
  · obtain ⟨p, hp, hrest⟩ := Relation.TransGen.head'_iff.mp habove
    obtain ⟨hpx, hpy⟩ := hapart.outside h (.inl (hy.symm.trans hp))
    exact hpx (h.above_swap hswap hpx hpy hrest)

/-- **The same swap again** restores the forest. -/
theorem swap_swap : g.swap x y = .ok f := by
  have hg := h.swap hswap
  obtain ⟨k, hback⟩ := hg.exists_swap_iff.mpr (h.apart_swap hswap)
  obtain ⟨hchildren, hparent⟩ := h.swap_links hswap
  obtain ⟨hchildren', hparent'⟩ := hg.swap_links hback
  have hsame : k = f := by
    apply ext_links
    · intro r
      rw [text?_swap hback, text?_swap hswap]
    · intro r
      rw [hparent', hparent, Equiv.swap_apply_self]
    · intro r
      rw [hchildren', hchildren, List.map_map]
      simp [Function.comp_def]
  rw [hback, hsame]

end Linked

theorem size_update (f : Forest) (r : Ref) (change : Node → Node) : (f.update r change).size = f.size := by
  cases r with
  | ofNat n => exact Array.size_modify
  | negSucc n => rfl

theorem size_swap (h : f.swap x y = .ok g) : g.size = f.size := by
  obtain ⟨px, py, ix, iy, -, -, -, -, -, -, -, rfl⟩ := swap_changes h
  rw [size_update, size_update, size_update, size_update]

theorem valid_of_parent_ne (h : f.parent x ≠ none) : f.valid x = true := by
  obtain ⟨p, hp⟩ := Option.ne_none_iff_exists'.mp h
  exact valid_of_parent hp

/-- All that a swap of two nodes does: the nodes are as many as before and have the roots that there were, the trees of
the two nodes are as they were, the tree of any other node has them exchanged wherever they are in it, and the same
swap again restores the forest. -/
structure Traded (f g : Forest) (x y : Ref) : Prop where
  size : g.size = f.size
  roots : ∀ r, g.parent r = none ↔ f.parent r = none
  left : g.tree? x = f.tree? x
  right : g.tree? y = f.tree? y
  others : ∀ r, f.valid r = true → r ≠ x → r ≠ y → ∃ s t u px? py?,
    f.tree? x = some s ∧ f.tree? y = some u ∧ f.tree? r = some t ∧ f.Locates r x px? ∧ f.Locates r y py? ∧
      g.tree? r = some ((t.put px? u).put py? s)
  back : g.swap x y = .ok f

/-- **Swaps are exact and reversible.** In a linked forest a swap succeeds for two different nodes that both have a
parent and of which neither lies above the other, and for no other references; if it fails, the forest stays as it is.
If it succeeds, the two nodes trade places in all trees, where the place of a node in a tree is where the tree of that
node is found, and a second swap restores the forest. -/
theorem swap_exact (f : Forest) (h : f.Linked) (x y : Ref) :
    ((∃ g, f.swap x y = .ok g) ↔
      f.valid x = true ∧ f.valid y = true ∧ x ≠ y ∧ f.parent x ≠ none ∧ f.parent y ≠ none ∧
        ¬ TransGen f.Up x y ∧ ¬ TransGen f.Up y x) ∧
    (∀ e, f.swap x y = .error e → (Edit.swap x y).apply f = f) ∧
    (∀ r z path t, f.descend r path = some z → f.tree? r = some t → t.sub? path = f.tree? z) ∧
    ∀ g, f.swap x y = .ok g → (Edit.swap x y).apply f = g ∧ f.Traded g x y := by
  refine ⟨?_, fun e he => ?_, fun r z path t => h.sub?_descend, fun g hswap => ⟨?_, ?_⟩⟩
  · rw [h.exists_swap_iff]
    constructor
    · rintro ⟨hne, hx, hy, hxy, hyx⟩
      exact ⟨valid_of_parent_ne hx, valid_of_parent_ne hy, hne, hx, hy, hxy, hyx⟩
    · rintro ⟨-, -, hne, hx, hy, hxy, hyx⟩
      exact ⟨hne, hx, hy, hxy, hyx⟩
  · rw [Edit.apply, he]
    rfl
  · rw [Edit.apply, hswap]
    rfl
  · have hexchanged := h.exchanged hswap
    have hapart := h.exists_swap_iff.mp ⟨g, hswap⟩
    refine ⟨size_swap hswap, fun r => ?_, hexchanged.tree?_left, hexchanged.tree?_right, ?_, h.swap_swap hswap⟩
    · rw [(h.swap_links hswap).2, Equiv.swap_apply_def]
      split
      · rename_i hrx
        simp [hrx, hapart.left, hapart.right]
      · split
        · rename_i hry
          simp [hry, hapart.left, hapart.right]
        · exact Iff.rfl
    · intro r hr hrx hry
      obtain ⟨s, hs⟩ := h.exists_tree (valid_of_parent_ne hapart.left)
      obtain ⟨u, hu⟩ := h.exists_tree (valid_of_parent_ne hapart.right)
      obtain ⟨t, ht⟩ := h.exists_tree hr
      obtain ⟨px?, hpx⟩ := exists_locates f r x
      obtain ⟨py?, hpy⟩ := exists_locates f r y
      exact ⟨s, t, u, px?, py?, hs, hu, ht, hpx, hpy, hexchanged.puts_tree hapart.ne hs hu hrx hry t px? py? ht hpx hpy⟩

def orchard : Forest := [Edit.parse "(a (b c) d)", .parse "(x (y z))"].foldl Edit.apply .empty

/-- A leaf and a deeper one of the same tree change places, there and back; the root of a tree cannot be moved. -/
theorem swap_exact_orchard :
    orchard.Linked ∧ orchard.print 0 = "(a (b c) d)" ∧
    (∃ g, orchard.swap 4 5 = .ok g ∧ g.print 0 = "(a (b d) c)" ∧ g.swap 4 5 = .ok orchard) ∧
    (Edit.swap 0 8).apply orchard = orchard := by
  have hedited : Edited orchard := .edit (.edit .empty (.parse _) trivial) (.parse _) trivial
  have h := hedited.linked
  obtain ⟨⟨-, hsucceeds⟩, -, -, hdoes⟩ := swap_exact orchard h 4 5
  obtain ⟨-, hfails, -⟩ := swap_exact orchard h 0 8
  have hapart : ∀ a b : Ref, orchard.isAncestor a b = false → ¬ TransGen orchard.Up b a := by
    intro a b hab habove
    rw [(h.isAncestor_iff a b).mpr habove] at hab
    cases hab
  obtain ⟨g, hg⟩ := hsucceeds ⟨by decide +kernel, by decide +kernel, by decide, by decide +kernel, by decide +kernel,
    hapart 5 4 (by decide +kernel), hapart 4 5 (by decide +kernel)⟩
  have htraded := (hdoes g hg).2
  have hdeep : orchard.Locates 0 4 (some [1, 1]) := by
    change orchard.descend 0 [1, 1] = some 4
    decide +kernel
  have hleaf : orchard.Locates 0 5 (some [2]) := by
    change orchard.descend 0 [2] = some 5
    decide +kernel
  have htree : g.tree? 0 = some (.list [.atom "a", .list [.atom "b", .atom "d"], .atom "c"]) := by
    obtain ⟨s, t, u, px?, py?, hs, hu, ht, hpx, hpy, hg⟩ :=
      htraded.others 0 (by decide +kernel) (by decide) (by decide)
    have hfirst : orchard.tree? 4 = some (.atom "c") := by decide +kernel
    have hsecond : orchard.tree? 5 = some (.atom "d") := by decide +kernel
    have hwhole : orchard.tree? 0 = some (.list [.atom "a", .list [.atom "b", .atom "c"], .atom "d"]) := by
      decide +kernel
    have hpx' : px? = some [1, 1] := h.locates_unique hpx hdeep
    have hpy' : py? = some [2] := h.locates_unique hpy hleaf
    cases hs.symm.trans hfirst
    cases hu.symm.trans hsecond
    cases ht.symm.trans hwhole
    rw [hg, hpx', hpy']
    rfl
  refine ⟨h, by decide +kernel, ⟨g, hg, ?_, htraded.back⟩, hfails .rootNode (by decide +kernel)⟩
  rw [print, htree]
  decide +kernel

end Forest

end Forager.Sexp
