import Forager.Proofs.Breeding.Crossover
import Forager.Proofs.Program.Places
import Forager.Proofs.Sexp.Transplant

/-!
# Crossover as an exchange of parts

Crossover relinks the nodes of a forest. What it comes to can be told on the expressions themselves: a list below the
root of the first changes places with a list of the same sort below the root of the second.

* `sublists_eq` : the candidates in the forest are the lists below the root of the expression;
* `tree?_replace` : relinking two nodes replaces one part of the expression;
* `transplant a b` : the exchange on expressions; `crossover_eq` : crossover is this exchange, whatever is drawn;
* `crossover_exact` : what becomes of two programs.
-/

namespace Forager.Breeding

set_option autoImplicit false

open Program
open Relation (ReflTransGen TransGen)
open Sexp (Forest Ref)
open Chance (Draw Source)

variable {f g : Forest} {r : Ref} {e : Expr}

/-! ## Expressions in a forest -/

section

variable (h : f.Linked)

include h

theorem children_of_tree {items : List Sexp} (hr : f.tree? r = some (.list items)) :
    f.isList r = true ∧ (f.children r).map f.tree? = items.map some := by
  have hlist := Forest.isList_of_treeWithin hr
  obtain ⟨items', htree, hitems⟩ := h.tree?_list hlist
  rw [hr] at htree
  cases htree
  exact ⟨hlist, hitems⟩

/-- The children of a node that shows an expression: an atom, and then the arguments, or atoms if there are none. -/
theorem children_of_expr (hr : f.tree? r = some e.toSexp) (he : e.shaped = true) (hlit : e.isLiteral = false) :
    f.isList r = true ∧ ∃ head refs, f.children r = head :: refs ∧ f.isList head = false ∧
      (refs.map f.tree? = e.args.map (fun a => some a.toSexp) ∨ e.args = [] ∧ ∀ c ∈ refs, f.isList c = false) := by
  obtain ⟨items, htree, hitems⟩ := Expr.toSexp_list he hlit
  rw [htree] at hr
  obtain ⟨hlist, hchildren⟩ := children_of_tree h hr
  obtain ⟨head, refs, hrefs, hhead, hrest⟩ := List.map_eq_cons_iff.mp hchildren
  refine ⟨hlist, head, refs, hrefs, Forest.isList_of_treeWithin hhead, ?_⟩
  rcases hitems with rfl | ⟨hargs, hatoms⟩
  · left
    rw [hrest, List.map_map]
    rfl
  · refine .inr ⟨hargs, fun c hc => ?_⟩
    obtain ⟨item, hitem, htree⟩ := List.mem_map.mp (hrest ▸ List.mem_map_of_mem hc)
    rw [Forest.isList_of_treeWithin htree.symm]
    exact hatoms item hitem

/-- Where an argument of an expression stands in the forest. -/
theorem arg_of_expr {op : Op} {before after : List Expr} {a : Expr}
    (hr : f.tree? r = some (Expr.node op (before ++ a :: after)).toSexp)
    (he : (Expr.node op (before ++ a :: after)).shaped = true) :
    f.isList r = true ∧ ∃ front c back, f.children r = front ++ c :: back ∧
      front.map f.tree? = (.atom op.kind.word :: before.map Expr.toSexp).map some ∧ f.tree? c = some a.toSexp ∧
      back.map f.tree? = (after.map Expr.toSexp).map some ∧
      ∀ path, f.follow r (before.length :: path) = f.follow c path := by
  rw [Expr.toSexp_node he (by simp)] at hr
  obtain ⟨hlist, hchildren⟩ := children_of_tree h hr
  rw [List.map_append, ← List.cons_append, List.map_append, List.map_cons, List.map_cons] at hchildren
  obtain ⟨front, rest, hsplit, hfront, hrest⟩ := List.map_eq_append_iff.mp hchildren
  obtain ⟨c, back, rfl, hc, hback⟩ := List.map_eq_cons_iff.mp hrest
  refine ⟨hlist, front, c, back, hsplit, hfront, hc, hback, fun path => ?_⟩
  have hlength : front.length = before.length + 1 := by simpa using congrArg List.length hfront
  have harg : (f.args r)[before.length]? = some c := by
    rw [Forest.args, hsplit, List.getElem?_tail, ← hlength]
    simp
  rw [Forest.follow, List.getD_eq_getElem?_getD, harg, Option.getD_some]

/-- What stands at a place of an expression is found in the forest, below the root. -/
theorem follow_of_expr {path : List Nat} {s : Expr} (hr : f.tree? r = some e.toSexp) (he : e.shaped = true)
    (hs : e.sub? path = some s) :
    f.tree? (f.follow r path) = some s.toSexp ∧ ReflTransGen f.Up (f.follow r path) r ∧
      (path ≠ [] → TransGen f.Up (f.follow r path) r) := by
  induction path generalizing r e with
  | nil =>
    cases hs
    exact ⟨hr, .refl, fun hne => absurd rfl hne⟩
  | cons i path ih =>
    obtain ⟨op, args⟩ := e
    obtain ⟨before, a, after, rfl, rfl, hs, -⟩ := Expr.sub?_cons hs
    obtain ⟨-, front, c, back, hchildren, -, hc, -, hfollow⟩ := arg_of_expr h hr he
    obtain ⟨htree, hbelow, -⟩ := ih hc (((Expr.shaped_node op _).mp he).2 a (by simp)) hs
    have hup : f.Up c r := h.parent_of_mem (by simp [hchildren])
    rw [hfollow]
    exact ⟨htree, hbelow.tail hup, fun _ => .tail' hbelow hup⟩

end

/-! ## Candidates -/

/-- The lists from a node down, in preorder. -/
def listsFrom (f : Forest) (r : Ref) : List Ref := (f.walk r fun _ => true).filter f.isList

section

variable (h : f.Linked)

include h

theorem listsFrom_atom (hr : f.isList r = false) : listsFrom f r = [] := by
  rw [listsFrom, h.walk_eq, h.childless r hr]
  split <;> simp [hr]

theorem listsFrom_list (hr : f.isList r = true) :
    listsFrom f r = r :: (f.children r).flatMap (listsFrom f) := by
  rw [listsFrom, h.walk_eq, Forest.valid_of_isList hr, if_pos rfl, if_pos rfl, List.filter_cons_of_pos hr,
    List.filter_flatMap]
  rfl

/-- The candidates of a crossover are the lists below the root. -/
theorem sublists_eq_flatMap (hr : f.isList r = true) : sublists f r = (f.children r).flatMap (listsFrom f) := by
  rw [sublists, h.walk_eq, Forest.valid_of_isList hr, if_pos rfl, if_pos rfl, List.filter_cons_of_neg (by simp),
    List.filter_flatMap]
  apply List.flatMap_congr
  intro c hc
  apply List.filter_congr
  intro z hz
  -- The root does not lie below one of its children.
  have hne : z ≠ r := by
    rintro rfl
    exact h.not_above_itself z (.tail' (h.below_of_mem_walk hz) (h.parent_of_mem hc))
  simp [hne]

/-- At every node that shows the expression, the lists from there on are those of the expression. -/
def Enumerated (f : Forest) (e : Expr) : Prop :=
  ∀ r, f.tree? r = some e.toSexp → listsFrom f r = (e.parts.filter (!·.2.isLiteral)).map (f.follow r ·.1)

omit h in
theorem flatMap_listsFrom {refs : List Ref} {args : List Expr} (k : Nat) (hargs : ∀ a ∈ args, Enumerated f a)
    (hrefs : refs.map f.tree? = args.map fun a => some a.toSexp)
    (hfollow : ∀ j c, refs[j]? = some c → ∀ path, f.follow r ((k + j) :: path) = f.follow c path) :
    refs.flatMap (listsFrom f) = ((Expr.partsFrom k args).filter (!·.2.isLiteral)).map (f.follow r ·.1) := by
  induction args generalizing refs k with
  | nil =>
    cases List.map_eq_nil_iff.mp hrefs
    rfl
  | cons a args ih =>
    obtain ⟨ha, hargs⟩ := List.forall_mem_cons.mp hargs
    obtain ⟨c, refs, rfl, hc, hrefs⟩ := List.map_eq_cons_iff.mp hrefs
    have hrest := ih (k + 1) hargs hrefs fun j d hd path => by
      rw [← hfollow (j + 1) d hd path, Nat.add_assoc, Nat.add_comm 1]
    rw [List.flatMap_cons, ha c hc, hrest, Expr.partsFrom, List.filter_append, List.map_append, List.filter_map,
      List.map_map]
    congr 1
    apply List.map_congr_left
    intro part _
    exact (hfollow 0 c rfl part.1).symm

theorem children_listsFrom (hr : f.tree? r = some e.toSexp) (he : e.shaped = true) (hlit : e.isLiteral = false)
    (hargs : ∀ a ∈ e.args, Enumerated f a) :
    f.isList r = true ∧ (f.children r).flatMap (listsFrom f) = e.inner.map (f.follow r ·.1) := by
  obtain ⟨hlist, head, refs, hchildren, hhead, hrefs⟩ := children_of_expr h hr he hlit
  refine ⟨hlist, ?_⟩
  rw [hchildren, List.flatMap_cons, listsFrom_atom h hhead, List.nil_append]
  rcases hrefs with hrefs | ⟨hnone, hatoms⟩
  · refine flatMap_listsFrom 0 hargs hrefs fun j c hc path => ?_
    rw [Nat.zero_add, Forest.follow, Forest.args, hchildren, List.tail_cons, List.getD_eq_getElem?_getD, hc,
      Option.getD_some]
  · rw [Expr.inner, hnone, List.flatMap_eq_nil_iff.mpr fun c hc => listsFrom_atom h (hatoms c hc)]
    rfl

theorem enumerated (he : e.shaped = true) : Enumerated f e := by
  induction e using Expr.args_induction with
  | node op args ih =>
    intro r hr
    obtain ⟨htakes, hargs⟩ := (Expr.shaped_node op args).mp he
    cases hlit : (Expr.node op args).isLiteral with
    | true =>
      cases op with
      | literal x =>
        cases List.isEmpty_iff.mp htakes
        exact listsFrom_atom h (Forest.isList_of_treeWithin hr)
      | _ => cases hlit
    | false =>
      obtain ⟨hlist, hbelow⟩ := children_listsFrom h hr he hlit fun a ha => ih a ha (hargs a ha)
      rw [listsFrom_list h hlist, hbelow, Expr.parts, List.filter_cons_of_pos (by simp [hlit])]
      rfl

/-- **The candidates of a crossover** are the lists below the root of the expression. -/
theorem sublists_eq (hr : f.tree? r = some e.toSexp) (he : e.shaped = true) (hlit : e.isLiteral = false) :
    sublists f r = e.inner.map (f.follow r ·.1) := by
  obtain ⟨op, args⟩ := e
  have hargs := ((Expr.shaped_node op args).mp he).2
  obtain ⟨hlist, hbelow⟩ := children_listsFrom h hr he hlit fun a ha => enumerated h (hargs a ha)
  rw [sublists_eq_flatMap h hlist, hbelow]

theorem producesReal_follow {path : List Nat} {s : Expr} (hr : f.tree? r = some e.toSexp) (he : e.shaped = true)
    (hs : e.Inner path s) : producesReal f (f.follow r path) = s.isReal := by
  rw [producesReal_of_treeWithin (follow_of_expr h hr he hs.part).1 (Expr.toSexp_isList hs.list),
    wordIsReal_toSexp hs.list, Expr.isReal]

end

/-! ## Replacements -/

/-- **Relinking two nodes replaces a part.** If `x` is a place of an expression and `y` is none, the expression has the
tree of `y` at this place after the exchange. -/
theorem tree?_replace {x y : Ref} (h : Forest.Exchanged f g x y) {path : List Nat} {s t : Expr}
    (hy : f.tree? y = some t.toSexp) (hr : f.tree? r = some e.toSexp) (he : e.shaped = true)
    (hs : e.sub? path = some s) (hx : f.follow r path = x) (hapart : ¬ ReflTransGen f.Up y r) :
    g.tree? (Equiv.swap x y r) = some (e.replace path t).toSexp := by
  induction path generalizing r e with
  | nil =>
    -- The place is that of `x`, where `y` stands now.
    change r = x at hx
    rw [hx, Equiv.swap_apply_left, h.tree?_right, hy]
    rfl
  | cons i path ih =>
    obtain ⟨op, args⟩ := e
    obtain ⟨-, -, hbelow⟩ := follow_of_expr h.before hr he hs
    obtain ⟨before, a, after, rfl, rfl, hs, hreplace⟩ := Expr.sub?_cons hs
    obtain ⟨hlist, front, c, back, hchildren, hfront, hc, hback, hfollow⟩ := arg_of_expr h.before hr he
    have ha := ((Expr.shaped_node op _).mp he).2 a (by simp)
    have hxr : TransGen f.Up x r := hx ▸ hbelow (List.cons_ne_nil _ _)
    rw [hfollow] at hx
    have hxc : ReflTransGen f.Up x c := hx ▸ (follow_of_expr h.before hc ha hs).2.1
    have hup : f.Up c r := h.before.parent_of_mem (by simp [hchildren])
    have hnew := h.map_tree? hchildren hxc hapart
    rw [ih hc ha hs hx fun hyc => hapart (hyc.tail hup), hfront, hback] at hnew
    obtain ⟨items, htree, hitems⟩ := h.after.tree?_list ((h.isList_eq r).trans hlist)
    have hsame : items = .atom op.kind.word :: (before ++ a.replace path t :: after).map Expr.toSexp := by
      apply List.map_injective_iff.mpr (Option.some_injective Sexp)
      rw [← hitems, hnew]
      simp
    rw [h.swap_of_above hxr hapart, htree, hreplace, Expr.toSexp_node he (by simp), hsame]

theorem print_of_tree {t : Sexp} (h : f.tree? r = some t) : f.print r = t.print := by
  rw [Forest.print, h]
  rfl

theorem print_replace {x y : Ref} (h : Forest.Exchanged f g x y) {path : List Nat} {s t : Expr}
    (hy : f.tree? y = some t.toSexp) (hr : f.tree? r = some e.toSexp) (he : e.shaped = true) (hs : e.Inner path s)
    (hx : f.follow r path = x) (hapart : ¬ ReflTransGen f.Up y r) : g.print r = (e.replace path t).print := by
  have hbelow := (follow_of_expr h.before hr he hs.part).2.2 hs.below
  have htree := tree?_replace h hy hr he hs.part hx hapart
  rw [h.swap_of_above (hx ▸ hbelow) hapart] at htree
  exact print_of_tree htree

/-! ## Two programs -/

variable {a b : Expr} {ra rb : Ref}

/-- Two expressions that are no numbers stand in a linked forest as trees of their own. -/
structure Planted (f : Forest) (ra rb : Ref) (a b : Expr) : Prop where
  linked : f.Linked
  first : f.tree? ra = some a.toSexp
  second : f.tree? rb = some b.toSexp
  firstRoot : f.parent ra = none
  secondRoot : f.parent rb = none
  distinct : ra ≠ rb

/-- The texts of two trees of a forest. -/
def Crossed.ofRoots (ra rb : Ref) (outcome : Forest × Bool) : Crossed :=
  ⟨outcome.1.print ra, outcome.1.print rb, outcome.2⟩

/-- Crossover plants both programs, whose atoms can stand as such, and exchanges parts of the trees. -/
theorem crossover_planted (ha : a.isLiteral = false) (hb : b.isLiteral = false) :
    ∃ f ra rb, Planted f ra rb a b ∧ Spellable f ∧
      crossover a b = Except.map (.ofRoots ra rb) <$> exchange f ra rb := by
  have hfirst : Forest.empty.plant a.toSexp = (.ofNodes (Sexp.nodesOf none 0 a.toSexp), 0) :=
    Forest.plant_ofNodes a.toSexp []
  have hboth := Forest.plant_ofNodes b.toSexp (Sexp.nodesOf none 0 a.toSexp)
  have hplanted : ∀ (t : Sexp) (nodes : List Sexp.Node), t.isList = true → (Forest.ofNodes nodes).Linked →
      (Forest.ofNodes (nodes ++ Sexp.nodesOf none nodes.length t)).Linked := by
    intro t nodes ht hnodes
    cases t with
    | atom text => cases ht
    | list items => exact Forest.linked_planted hnodes items
  have hra := Forest.tree?_nodesOf a.toSexp none [] (Sexp.nodesOf none (Sexp.count a.toSexp) b.toSexp)
  have hrb := Forest.tree?_nodesOf b.toSexp none (Sexp.nodesOf none 0 a.toSexp) []
  have hrootA := Forest.parent_planted a.toSexp [] (Sexp.nodesOf none (Sexp.count a.toSexp) b.toSexp)
  have hrootB := Forest.parent_planted b.toSexp (Sexp.nodesOf none 0 a.toSexp) []
  have hlinked := hplanted b.toSexp _ (Expr.toSexp_isList hb)
    (hplanted a.toSexp [] (Expr.toSexp_isList ha) Forest.linked_empty)
  simp only [List.nil_append, List.append_nil, List.length_nil, Sexp.length_nodesOf]
    at hboth hra hrb hrootA hrootB hlinked
  have hspellable := spellable_of_trees (exists_planted (fun items h => (Sexp.atomsFit_list_iff items).mp h)
    (Expr.atomsFit_toSexp a) (Expr.atomsFit_toSexp b))
  refine ⟨_, 0, Sexp.count a.toSexp, ⟨hlinked, hra, hrb, hrootA, hrootB, ?_⟩, hspellable, ?_⟩
  · exact_mod_cast (Sexp.count_pos a.toSexp).ne
  · unfold crossover
    rw [hfirst]
    simp only
    rw [hboth]
    rfl

theorem Planted.swap (h : Planted f ra rb a b) (ha : a.shaped = true) (hb : b.shaped = true) {p q : List Nat}
    {s t : Expr} (hs : a.Inner p s) (ht : b.Inner q t) :
    ∃ g, f.swap (f.follow ra p) (f.follow rb q) = .ok g ∧ g.print ra = (a.replace p t).print ∧
      g.print rb = (b.replace q s).print := by
  obtain ⟨hx, -, hxa⟩ := follow_of_expr h.linked h.first ha hs.part
  obtain ⟨hy, -, hyb⟩ := follow_of_expr h.linked h.second hb ht.part
  obtain ⟨g, hswap⟩ := h.linked.exists_swap h.firstRoot h.secondRoot h.distinct (hxa hs.below) (hyb ht.below)
  have hex := h.linked.exchanged hswap
  refine ⟨g, hswap, print_replace hex hy h.first ha hs rfl ?_, print_replace hex.symm hx h.second hb ht rfl ?_⟩
  · intro hya
    exact h.distinct (Forest.Linked.root_unique h.firstRoot h.secondRoot hya (hyb ht.below).to_reflTransGen)
  · intro hxb
    exact h.distinct (Forest.Linked.root_unique h.firstRoot h.secondRoot (hxa hs.below).to_reflTransGen hxb)

/-- The exchange of two parts, told on the expressions: a list below the root of the first is drawn, then one of the
same sort below the root of the second, and they change places. -/
def transplant (a b : Expr) : Draw Crossed := do
  if a.inner.isEmpty then return ⟨a.print, b.print, false⟩
  let x ← Chance.choose ([], a) a.inner
  let mates := b.inner.filter fun y => y.2.isReal = x.2.isReal
  if mates.isEmpty then return ⟨a.print, b.print, false⟩
  let y ← Chance.choose ([], b) mates
  return ⟨(a.replace x.1 y.2).print, (b.replace y.1 x.2).print, true⟩

/-- **Crossover is an exchange of parts**, whatever the source yields, and it does not fail. -/
theorem crossover_eq (ha : a.shaped = true) (hb : b.shaped = true) (hla : a.isLiteral = false)
    (hlb : b.isLiteral = false) : crossover a b = Except.ok <$> transplant a b := by
  obtain ⟨f, ra, rb, h, -, hcrossover⟩ := crossover_planted hla hlb
  have hsame : Except.map (Crossed.ofRoots ra rb) (.ok (f, false) : Except Sexp.LinkError (Forest × Bool)) =
      .ok ⟨a.print, b.print, false⟩ := by
    rw [Except.map, Crossed.ofRoots, print_of_tree h.first, print_of_tree h.second]
    rfl
  have hfirst := Chance.choose_map (fun part : List Nat × Expr => f.follow ra part.1) ([], a) a.inner
  have hsecond := fun mates => Chance.choose_map (fun part : List Nat × Expr => f.follow rb part.1) ([], b) mates
  simp only [Forest.follow] at hfirst hsecond
  rw [hcrossover]
  unfold exchange transplant
  dsimp only
  rw [sublists_eq h.linked h.first ha hla, sublists_eq h.linked h.second hb hlb, List.isEmpty_map]
  split
  · rw [map_pure, map_pure, hsame]
  rename_i hcandidates
  rw [hfirst, bind_map_left, map_bind, map_bind]
  refine (Chance.choose_mem _ (by simpa using hcandidates)).bind_congr fun x hx => ?_
  have hinner := Expr.mem_inner_iff.mp hx
  have hmates : ∀ y ∈ b.inner, ((fun r => decide (producesReal f r = producesReal f (f.follow ra x.1))) ∘
      fun part : List Nat × Expr => f.follow rb part.1) y = decide (y.2.isReal = x.2.isReal) := by
    intro y hy
    rw [Function.comp_apply, producesReal_follow h.linked h.first ha hinner,
      producesReal_follow h.linked h.second hb (Expr.mem_inner_iff.mp hy)]
  rw [List.filter_map, List.filter_congr hmates, List.isEmpty_map]
  split
  · rw [map_pure, map_pure, hsame]
  rename_i hnone
  rw [hsecond, bind_map_left, map_bind, map_bind]
  refine (Chance.choose_mem _ (by simpa using hnone)).bind_congr fun y hy => ?_
  obtain ⟨g, hswap, hra, hrb⟩ := h.swap ha hb hinner (Expr.mem_inner_iff.mp (List.mem_of_mem_filter hy))
  rw [hswap, map_pure, map_pure]
  change pure (Except.ok (Crossed.ofRoots ra rb (g, true))) = _
  rw [Crossed.ofRoots, hra, hrb]

/-! ## What becomes of two programs -/

/-- What an exchange can come to: nothing changes, or two lists of the same sort change places. -/
inductive Transplanted (a b : Expr) : Crossed → Prop where
  | same : Transplanted a b ⟨a.print, b.print, false⟩
  | swapped {p q : List Nat} {s t : Expr} (hs : a.Inner p s) (ht : b.Inner q t) (hsort : t.isReal = s.isReal) :
      Transplanted a b ⟨(a.replace p t).print, (b.replace q s).print, true⟩

theorem parseProgram_print (hroot : e.kind = .step) (he : e.WellFormed) : parseProgram e.print = .ok e :=
  parseProgram_iff.mpr ⟨parse_print he (Expr.isLiteral_of_root hroot), hroot⟩

/-- After an exchange both texts are programs, which have the same operations together as before. -/
theorem Transplanted.programs {crossed : Crossed} (h : Transplanted a b crossed) (ha : a.kind = .step)
    (hb : b.kind = .step) (hwa : a.WellFormed) (hwb : b.WellFormed) :
    ∃ first second, parseProgram crossed.first = .ok first ∧ parseProgram crossed.second = .ok second ∧
      (first.ops ++ second.ops).Perm (a.ops ++ b.ops) := by
  cases h with
  | same => exact ⟨a, b, parseProgram_print ha hwa, parseProgram_print hb hwb, .refl _⟩
  | @swapped p q s t hs ht hsort =>
    have hfirst := Expr.wellFormed_replace hwa hs.part (Expr.wellFormed_sub hwb ht.part) (ht.list.trans hs.list.symm)
    have hsecond := Expr.wellFormed_replace hwb ht.part (Expr.wellFormed_sub hwa hs.part) (hs.list.trans ht.list.symm)
    exact ⟨a.replace p t, b.replace q s, parseProgram_print ((Expr.kind_replace hs.below).trans ha) hfirst,
      parseProgram_print ((Expr.kind_replace ht.below).trans hb) hsecond, Expr.ops_exchange hs.part ht.part⟩

theorem transplant_of_none (h : ∀ p s, ¬ a.Inner p s) (source : Source) :
    ((transplant a b).run source).1 = ⟨a.print, b.print, false⟩ := by
  have hempty : a.inner = [] := List.eq_nil_iff_forall_not_mem.mpr fun part hpart =>
    h part.1 part.2 (Expr.mem_inner_iff.mp hpart)
  unfold transplant
  rw [hempty]
  rfl

/-- The list that is drawn decides whether there is an exchange. -/
theorem transplant_of_some (h : ∃ p s, a.Inner p s) (source : Source) :
    ∃ p s, a.Inner p s ∧ ((Chance.choose ([], a) a.inner).run source).1 = (p, s) ∧
      ((∀ q t, b.Inner q t → t.isReal ≠ s.isReal) → ((transplant a b).run source).1 = ⟨a.print, b.print, false⟩) ∧
      ((∃ q t, b.Inner q t ∧ t.isReal = s.isReal) → ∃ q t, b.Inner q t ∧ t.isReal = s.isReal ∧
        ((transplant a b).run source).1 = ⟨(a.replace p t).print, (b.replace q s).print, true⟩) := by
  obtain ⟨p₀, s₀, h₀⟩ := h
  have hne := List.ne_nil_of_mem (Expr.mem_inner_iff.mpr h₀)
  have hdrawn := Chance.choose_mem ([], a) hne source
  rcases hx : (Chance.choose ([], a) a.inner).run source with ⟨⟨p, s⟩, rest⟩
  rw [hx] at hdrawn
  have hmates : ∀ q t, (q, t) ∈ (b.inner.filter fun y => y.2.isReal = s.isReal) ↔
      b.Inner q t ∧ t.isReal = s.isReal := by
    intro q t
    rw [List.mem_filter, Expr.mem_inner_iff, decide_eq_true_iff]
  have hrun : (transplant a b).run source = (do
      if (b.inner.filter fun y => y.2.isReal = s.isReal).isEmpty then return ⟨a.print, b.print, false⟩
      let y ← Chance.choose ([], b) (b.inner.filter fun y => y.2.isReal = s.isReal)
      return ⟨(a.replace p y.2).print, (b.replace y.1 s).print, true⟩ : Draw Crossed).run rest := by
    unfold transplant
    rw [if_neg (by simpa using hne), StateT.run_bind, hx]
    rfl
  generalize (b.inner.filter fun y => y.2.isReal = s.isReal) = mates at hmates hrun
  rw [hrun]
  refine ⟨p, s, Expr.mem_inner_iff.mp hdrawn, rfl, fun hnone => ?_, ?_⟩
  · have hempty : mates = [] := List.eq_nil_iff_forall_not_mem.mpr fun y hy =>
      hnone y.1 y.2 ((hmates y.1 y.2).mp hy).1 ((hmates y.1 y.2).mp hy).2
    rw [hempty]
    rfl
  · rintro ⟨q, t, hmate⟩
    have hmem := (hmates q t).mpr hmate
    have hy := Chance.choose_mem ([], b) (List.ne_nil_of_mem hmem) rest
    obtain ⟨hinner, hsort⟩ := (hmates _ _).mp hy
    rw [if_neg (by simpa using List.ne_nil_of_mem hmem)]
    exact ⟨_, _, hinner, hsort, rfl⟩

theorem transplanted (a b : Expr) (source : Source) : Transplanted a b ((transplant a b).run source).1 := by
  by_cases hsome : ∃ p s, a.Inner p s
  · obtain ⟨p, s, hs, -, hnone, hmate⟩ := transplant_of_some (b := b) hsome source
    by_cases hmates : ∃ q t, b.Inner q t ∧ t.isReal = s.isReal
    · obtain ⟨q, t, ht, hsort, heq⟩ := hmate hmates
      rw [heq]
      exact .swapped hs ht hsort
    · rw [hnone fun q t ht hsort => hmates ⟨q, t, ht, hsort⟩]
      exact .same
  · rw [transplant_of_none fun p s hs => hsome ⟨p, s, hs⟩]
    exact .same

/-- **Crossover exchanges two lists of the same sort.** Whatever the source yields, crossover of well-formed programs
does not fail. If there is no list below the root of the first, or none of the drawn sort below that of the second, the
texts are those of the programs. Otherwise the drawn list of the first and a list of the second, both of which produce
a real or both do not, have changed places. Both texts are read as programs, which together have the operations of the
two programs, so as many nodes, and pass the check if the two do. -/
theorem crossover_exact (a b : Expr) (ha : a.kind = .step) (hb : b.kind = .step) (hwa : a.WellFormed)
    (hwb : b.WellFormed) (source : Source) :
    ∃ crossed, ((crossover a b).run source).1 = .ok crossed ∧
      ((∀ p s, ¬ a.Inner p s) → crossed = ⟨a.print, b.print, false⟩) ∧
      ((∃ p s, a.Inner p s) → ∃ p s, a.Inner p s ∧ ((Chance.choose ([], a) a.inner).run source).1 = (p, s) ∧
        ((∀ q t, b.Inner q t → t.isReal ≠ s.isReal) → crossed = ⟨a.print, b.print, false⟩) ∧
        ((∃ q t, b.Inner q t ∧ t.isReal = s.isReal) → ∃ q t, b.Inner q t ∧ t.isReal = s.isReal ∧
          crossed = ⟨(a.replace p t).print, (b.replace q s).print, true⟩)) ∧
      ∃ first second, parseProgram crossed.first = .ok first ∧ parseProgram crossed.second = .ok second ∧
        first.size + second.size = a.size + b.size ∧ (first.ops ++ second.ops).Perm (a.ops ++ b.ops) ∧
        (check a = .ok () → check b = .ok () → check first = .ok () ∧ check second = .ok ()) := by
  have hcrossover : ((crossover a b).run source).1 = .ok ((transplant a b).run source).1 := by
    rw [crossover_eq hwa.1 hwb.1 (Expr.isLiteral_of_root ha) (Expr.isLiteral_of_root hb), StateT.run_map]
    rfl
  obtain ⟨first, second, hfirst, hsecond, hops⟩ := (transplanted a b source).programs ha hb hwa hwb
  refine ⟨_, hcrossover, fun hnone => transplant_of_none hnone source, fun hsome => transplant_of_some hsome source,
    first, second, hfirst, hsecond, ?_, hops, fun hca hcb => ?_⟩
  · have hlength := hops.length_eq
    rwa [List.length_append, List.length_append, Expr.length_ops, Expr.length_ops, Expr.length_ops, Expr.length_ops]
      at hlength
  · have hsound := crossover_sound ⟨ha, hwa, hca⟩ ⟨hb, hwb, hcb⟩ source _ hcrossover
    exact ⟨(hsound first (.inl hfirst)).checked, (hsound second (.inr hsecond)).checked⟩

theorem crossover_exact_racing :
    racing.Inner [0, 0, 0] (.leaf (.getRange 15)) ∧ grabbingExpr.Inner [0, 0, 1] (.leaf .valueNoop) ∧
    ∃ q t, grabbingExpr.Inner q t ∧ t.isReal = true ∧
      ((crossover racing grabbingExpr).run (.script #[0x200000000] 0)).1 =
        .ok ⟨(racing.replace [0, 0, 0] t).print, (grabbingExpr.replace q (.leaf (.getRange 15))).print, true⟩ := by
  have hracing : racing.Inner [0, 0, 0] (.leaf (.getRange 15)) := ⟨rfl, by decide, rfl⟩
  have hgrabbing : grabbingExpr.Inner [0, 0, 1] (.leaf .valueNoop) := ⟨rfl, by decide, rfl⟩
  obtain ⟨crossed, hcrossed, -, hdrawn, -⟩ := crossover_exact racing grabbingExpr rfl rfl (by decide +kernel)
    (by decide +kernel) (.script #[0x200000000] 0)
  obtain ⟨p, s, -, hchosen, -, hmate⟩ := hdrawn ⟨_, _, hracing⟩
  have hthird : ((Chance.choose ([], racing) racing.inner).run (.script #[0x200000000] 0)).1 =
      ([0, 0, 0], .leaf (.getRange 15)) := by rfl
  rw [hthird] at hchosen
  cases hchosen
  obtain ⟨q, t, ht, hsort, rfl⟩ := hmate ⟨_, _, hgrabbing, rfl⟩
  exact ⟨hracing, hgrabbing, q, t, ht, hsort, hcrossed⟩

end Forager.Breeding
