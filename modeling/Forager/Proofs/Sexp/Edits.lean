import Forager.Proofs.Sexp.Descent

/-!
# Edits of a forest

A forest grows by edits, which may fail and then leave what they did so far. No sequence of edits spoils the links, as
long as no node is put below itself.

* `Edit`, `Edit.apply` : what can be done to a forest, and the forest after it;
* `Edit.LoopFree f` : the edit puts no node of `f` below itself; `Edited f` : what such edits make of the empty forest;
* `Linked.adopt`, `Linked.grow` : the edits that make many links keep a forest linked;
* `Exhaustive f` : the searches of `f` end only where its links do;
* `edited_linked` : every edited forest is linked, and its searches are exhaustive.
-/

namespace Forager.Sexp

set_option autoImplicit false

open Relation (ReflTransGen TransGen)

inductive Edit where
  | atom (text : String)
  | list (children : List Ref)
  | append (owner child : Ref)
  | swap (x y : Ref)
  | parse (text : String)

/-- The forest after an edit, also after one that failed. -/
def Edit.apply (f : Forest) : Edit → Forest
  | .atom text => (f.atom text).1
  | .list children => (f.list children).1
  | .append owner child => (f.append owner child).toOption.getD f
  | .swap x y => (f.swap x y).toOption.getD f
  | .parse text => (f.parse text).1

/-- No child that a list adopts, one after the other, is the list or lies above it. -/
def Forest.AdoptsBelow (f : Forest) (owner : Ref) : List Ref → Prop
  | [] => True
  | child :: rest =>
    ∀ g, f.append owner child = .ok g → ¬ ReflTransGen f.Up owner child ∧ g.AdoptsBelow owner rest

/-- The edit makes no node a child of itself or of a node below it. -/
def Edit.LoopFree (f : Forest) : Edit → Prop
  | .list children => f.emptyList.1.AdoptsBelow f.emptyList.2 children
  | .append owner child => f.AdoptsBelow owner [child]
  | _ => True

/-- The forests that come of the empty one by edits without loops. -/
inductive Edited : Forest → Prop where
  | empty : Edited .empty
  | edit {f : Forest} (h : Edited f) (e : Edit) (he : e.LoopFree f) : Edited (e.apply f)

namespace Forest

variable {f g : Forest}

theorem linked_empty : empty.Linked where
  child_iff p c := by
    cases p <;> cases c <;> simp [children, parent, node?, empty]
  nodup p := by
    cases p <;> simp [children, node?, empty]
  childless r _ := by
    cases r <;> simp [children, node?, empty]
  grounded := by
    refine ⟨fun r => .intro r fun p hp => ?_⟩
    cases r <;> cases hp

theorem Linked.below_iff (h : f.Linked) (r a : Ref) :
    ReflTransGen f.Up r a ↔ r = a ∨ f.isAncestor a r = true := by
  rw [Relation.reflTransGen_iff_eq_or_transGen, h.isAncestor_iff, eq_comm]

/-! ## Lists -/

theorem Linked.adopt (h : f.Linked) {owner : Ref} {children : List Ref} (hbelow : f.AdoptsBelow owner children) :
    (f.adopt owner children).1.Linked := by
  induction children generalizing f with
  | nil => exact h
  | cons child rest ih =>
    rw [Forest.adopt]
    cases happend : f.append owner child with
    | error cause => exact h
    | ok g =>
      obtain ⟨hnot, hrest⟩ := hbelow g happend
      exact ih (h.append happend hnot) hrest

theorem list_fst (f : Forest) (children : List Ref) :
    (f.list children).1 = (f.emptyList.1.adopt f.emptyList.2 children).1 := by
  unfold list
  rcases hadopt : f.emptyList.1.adopt f.emptyList.2 children with ⟨g, _ | e⟩ <;> simp only [hadopt]

/-! ## Texts -/

theorem valid_link (f : Forest) (stack : List Ref) (r s : Ref) : (grow.link f stack r).valid s = f.valid s := by
  cases stack with
  | nil => rfl
  | cons l stack =>
    rw [grow.link]
    cases happend : f.append l r with
    | error cause => rfl
    | ok g =>
      obtain ⟨-, -, -, htext, -, -⟩ := append_inv happend
      change g.valid s = f.valid s
      rw [valid_eq, valid_eq, htext]

/-- A node that was just made can be put below any older one. -/
theorem Linked.link (h : f.Linked) (text? : Option String) {stack : List Ref} (hstack : ∀ l ∈ stack, f.valid l = true) :
    (grow.link (f.push ⟨text?, none, []⟩).1 stack (f.size : Ref)).Linked := by
  have hpush := h.push text?
  cases stack with
  | nil => exact hpush
  | cons l stack =>
    rw [grow.link]
    cases happend : (f.push ⟨text?, none, []⟩).1.append l (f.size : Ref) with
    | error cause => exact hpush
    | ok g =>
      refine hpush.append happend fun hbelow => ?_
      -- Nothing lies below the new node, and the older one is another node.
      rcases hbelow.cases_tail with heq | ⟨c, -, hc⟩
      · have hvalid := hstack l List.mem_cons_self
        rw [← heq, valid, node?_size] at hvalid
        cases hvalid
      · have hmem := hpush.mem_children hc
        rw [children_push, children_eq, node?_size] at hmem
        cases hmem

theorem Linked.grow (h : f.Linked) (stack : List Ref) (hstack : ∀ l ∈ stack, f.valid l = true) (tokens : List Token) :
    (grow f stack tokens).Linked := by
  have hlater : ∀ {f : Forest} (text? : Option String) (r : Ref) {stack : List Ref}, (∀ l ∈ stack, f.valid l = true) →
      ∀ l ∈ stack, (grow.link (f.push ⟨text?, none, []⟩).1 stack r).valid l = true := by
    intro f text? r stack hstack l hl
    rw [valid_link]
    exact valid_push f _ (hstack l hl)
  induction tokens generalizing f stack with
  | nil => exact h
  | cons token tokens ih =>
    cases token with
    | opening =>
      refine ih (h.link none hstack) _ (List.forall_mem_cons.mpr ⟨?_, hlater none _ hstack⟩)
      rw [valid_link]
      exact valid_push_self f _
    | closing => exact ih h _ fun l hl => hstack l (List.mem_of_mem_tail hl)
    | atom text => exact ih (h.link (some text) hstack) _ (hlater (some text) _ hstack)

theorem parse_fst (f : Forest) (text : String) : (f.parse text).1 = Forest.grow f [] (scan text).tokens := by
  unfold parse
  cases h : (scan text).fault <;> simp only [h]

/-! ## Searches -/

/-- The searches of a forest end only where its links do: each says at a node what its recursion says, and neither the
way up nor the way down goes on for ever. -/
structure Exhaustive (f : Forest) : Prop where
  ascends : WellFounded fun p c => f.parent c = some p
  descends : WellFounded fun c p => c ∈ f.children p
  root : ∀ r, f.root r = (f.parent r).elim r f.root
  isAncestor : ∀ a r, f.isAncestor a r = (f.parent r).elim false fun p => p = a || f.isAncestor a p
  walk : ∀ r enter, f.walk r enter =
    if f.valid r then r :: if enter r then (f.children r).flatMap (f.walk · enter) else [] else []
  print : ∀ r, f.print r =
    if f.isList r then "(" ++ " ".intercalate ((f.children r).map f.print) ++ ")" else f.text r
  same : ∀ g : Forest, g.Linked → ∀ a b, f.same a g b = true ↔
    f.isList a = g.isList b ∧
      (f.isList a = false → f.valid a = true ∧ g.valid b = true ∧ f.text a = g.text b) ∧
      (f.isList a = true → List.Forall₂ (fun c d => f.same c g d = true) (f.children a) (g.children b))

theorem Linked.exhaustive (h : f.Linked) : f.Exhaustive where
  ascends := h.grounded
  descends := h.descends
  root := h.root_eq
  isAncestor := h.isAncestor_eq
  walk := h.walk_eq
  print := h.print_eq
  same _ hg := h.same_iff hg

end Forest

/-! ## Sequences of edits -/

open Forest

/-- An edit without loops keeps a forest linked, whether it succeeds or fails. -/
theorem Edit.apply_linked {f : Forest} (h : f.Linked) (e : Edit) (he : e.LoopFree f) : (e.apply f).Linked := by
  cases e with
  | atom text => exact h.push (some text)
  | list children =>
    change (f.list children).1.Linked
    rw [list_fst]
    exact (h.push none).adopt he
  | append owner child =>
    change ((f.append owner child).toOption.getD f).Linked
    cases happend : f.append owner child with
    | error cause => exact h
    | ok g => exact h.append happend (he g happend).1
  | swap x y =>
    change ((f.swap x y).toOption.getD f).Linked
    cases hswap : f.swap x y with
    | error cause => exact h
    | ok g => exact h.swap hswap
  | parse text =>
    change (f.parse text).1.Linked
    rw [parse_fst]
    exact h.grow [] (fun l hl => by cases hl) _

theorem Edited.linked {f : Forest} (h : Edited f) : f.Linked := by
  induction h with
  | empty => exact linked_empty
  | edit _ e he ih => exact e.apply_linked ih he

/-- **Edits keep the links of a forest.** However a forest came about, by edits that succeeded or failed and put no
node below itself, its parents and children agree, every child is a node, and the way up from a node ends at a root;
so a swap finds the nodes it is to exchange, and no search goes on for ever or stops short. -/
theorem edited_linked (f : Forest) (h : Edited f) :
    f.Linked ∧ (∀ p, ∀ c ∈ f.children p, f.valid c = true) ∧
    (∀ r, f.valid r = true → ∃ root, ReflTransGen f.Up r root ∧ f.valid root = true ∧ f.parent root = none) ∧
    (∀ x y, f.swap x y ≠ .error .notAmongChildren) ∧ f.Exhaustive := by
  have hlinked := h.linked
  refine ⟨hlinked, fun p c hc => hlinked.valid_child hc, fun r hr => ?_, hlinked.swap_ne_notAmongChildren,
    hlinked.exhaustive⟩
  obtain ⟨hway, hroot⟩ := hlinked.root_spec r
  exact ⟨f.root r, hway, hlinked.valid_of_reaches hr hway, hroot⟩

/-- Two texts, of which the second breaks off, and a list that fails to adopt the same node twice. -/
def scraps : Forest := [Edit.parse "(a (b c) d)", .parse "(x (y", .list [6, 6]].foldl Edit.apply .empty

/-- The scraps after exchanges within a tree and between two, a refused exchange and a new link. -/
def patched : Forest := [Edit.swap 2 5, .swap 4 7, .swap 0 1, .append 9 0].foldl Edit.apply scraps

theorem edited_linked_patched :
    Edited patched ∧ patched.print 9 = "((c ()) (a d (b x)))" ∧
      (∀ p c, c ∈ patched.children p ↔ patched.parent c = some p) ∧ patched.Exhaustive := by
  have hread : Edited ([Edit.parse "(a (b c) d)", .parse "(x (y"].foldl Edit.apply .empty) :=
    .edit (.edit .empty (.parse _) trivial) (.parse _) trivial
  have hscraps : Edited scraps := by
    refine .edit hread (.list [6, 6]) fun g hg => ⟨?_, fun k hk => ?_⟩
    · exact mt ((hread.linked.push none).below_iff _ _).mp (by decide +kernel)
    -- The second adoption fails.
    · obtain ⟨-, -, -, -, -, hparent⟩ := append_inv hg
      obtain ⟨-, -, hroot, -, -, -⟩ := append_inv hk
      rw [hparent] at hroot
      cases hroot
  have hswapped : Edited ([Edit.swap 2 5, .swap 4 7, .swap 0 1].foldl Edit.apply scraps) :=
    .edit (.edit (.edit hscraps (.swap 2 5) trivial) (.swap 4 7) trivial) (.swap 0 1) trivial
  have hpatched : Edited patched := by
    refine .edit hswapped (.append 9 0) fun g _ => ⟨?_, trivial⟩
    exact mt (hswapped.linked.below_iff _ _).mp (by decide +kernel)
  obtain ⟨hlinked, -, -, -, hsearches⟩ := edited_linked patched hpatched
  exact ⟨hpatched, by decide +kernel, hlinked.child_iff, hsearches⟩

end Forager.Sexp
