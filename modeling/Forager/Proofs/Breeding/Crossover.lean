import Forager.Breeding.Crossover
import Forager.Proofs.Chance.Draws
import Forager.Proofs.Sexp.Relink
import Forager.Proofs.Breeding.Typing

/-!
# What crossover keeps

Whether a list suits the list around it can be told from the nodes of a forest, so it survives an exchange of two
lists that produce the same.

* `Spellable f` : the atoms of a forest can stand as such;
* `Coherent f` : so they can, and the lists of the forest suit each other;
* `coherent_of_trees`, `Coherent.fits` : the same of all trees that are read from it;
* `Coherent.swap` : an exchange of lists of the same sort keeps it;
* `crossover_sound` : what is read from the texts that crossover gives is sound.
-/

namespace Forager.Breeding

set_option autoImplicit false

open Program
open Sexp (Forest Ref)

/-- A tree whose lists suit each other and whose atoms can stand as such. -/
structure Fits (t : Sexp) : Prop where
  typed : typed t = true
  atoms : Sexp.atomsFit t = true

theorem Fits.of_mem {items : List Sexp} (h : Fits (.list items)) (s : Sexp) (hs : s ∈ items) : Fits s :=
  ⟨((typed_list_iff items).mp h.typed s hs).2, (Sexp.atomsFit_list_iff items).mp h.atoms s hs⟩

/-- A forest whose atoms can stand as such. -/
def Spellable (f : Forest) : Prop :=
  ∀ (r : Ref) (text : String), (f.node? r).map (·.text?) = some (some text) → Sexp.isAtomText text = true

/-- A forest whose lists suit each other and whose atoms can stand as such. -/
structure Coherent (f : Forest) : Prop where
  atom : Spellable f
  child : ∀ {r c : Ref}, f.isList r = true → c ∈ f.children r → f.isList c = true →
    suits (f.head r) (producesReal f c) = true

variable {f g : Forest}

/-! ## Nodes and trees -/

theorem head_of_treeWithin {fuel : Nat} {r : Ref} {items : List Sexp} (h : f.treeWithin fuel r = some (.list items)) :
    f.head r = headWord (.list items) := by
  rcases Forest.treeWithin_inv h with ⟨text, htext, -⟩ | ⟨_, k, -, hitems, -, hchildren⟩
  · cases htext
  cases hitems
  rw [Forest.head_eq]
  generalize f.children r = children at hchildren ⊢
  cases children with
  | nil =>
    cases List.map_eq_nil_iff.mp hchildren.symm
    rfl
  | cons first children =>
    obtain ⟨t, rest, rfl, hfirst, -⟩ := List.map_eq_cons_iff.mp hchildren.symm
    rw [List.map_cons, List.headD_cons, Forest.text_eq]
    rcases Forest.treeWithin_inv hfirst.symm with ⟨text, rfl, htext⟩ | ⟨below, _, _, rfl, htext, -⟩
    · rw [htext]
      rfl
    · rw [htext]
      rfl

theorem producesReal_of_treeWithin {fuel : Nat} {r : Ref} {s : Sexp} (h : f.treeWithin fuel r = some s)
    (hlist : s.isList = true) : producesReal f r = wordIsReal (headWord s) := by
  cases s with
  | atom text => cases hlist
  | list items => rw [producesReal, head_of_treeWithin h]

theorem valid_of_text? {r : Ref} {t : Option String} (h : (f.node? r).map (·.text?) = some t) : f.valid r = true := by
  obtain ⟨n, hn, -⟩ := Option.map_eq_some_iff.mp h
  rw [Forest.valid, hn]
  rfl

/-- The atoms of a forest can stand as such if those of the trees at all its nodes can. -/
theorem spellable_of_trees (h : ∀ r, f.valid r = true → ∃ s, Sexp.atomsFit s = true ∧ f.tree? r = some s) :
    Spellable f := by
  intro r text htext
  obtain ⟨s, hs, htree⟩ := h r (valid_of_text? htext)
  rcases Forest.treeWithin_inv htree with ⟨text', rfl, htext'⟩ | ⟨items, k, -, rfl, hlist, -⟩
  · rw [htext] at htext'
    cases htext'
    exact hs
  · rw [htext] at hlist
    cases hlist

/-- The trees that are read from such a forest. -/
theorem Spellable.atomsFit (h : Spellable f) {fuel : Nat} {r : Ref} {s : Sexp} (hs : f.treeWithin fuel r = some s) :
    Sexp.atomsFit s = true := by
  induction fuel generalizing r s with
  | zero => cases hs
  | succ fuel ih =>
    rcases Forest.treeWithin_inv hs with ⟨text, rfl, htext⟩ | ⟨items, k, hk, rfl, htext, hchildren⟩
    · exact h r text htext
    · cases hk
      refine (Sexp.atomsFit_list_iff items).mpr fun t ht => ?_
      obtain ⟨c, -, hct⟩ := List.mem_map.mp (hchildren ▸ List.mem_map_of_mem ht)
      exact ih hct

/-- A forest is coherent if the trees at all its nodes are. -/
theorem coherent_of_trees (h : ∀ r, f.valid r = true → ∃ s, Fits s ∧ f.tree? r = some s) : Coherent f := by
  constructor
  case atom =>
    refine spellable_of_trees fun r hr => ?_
    obtain ⟨s, hs, htree⟩ := h r hr
    exact ⟨s, hs.atoms, htree⟩
  case child =>
    intro r c hr hmem hc
    have hr' := hr
    rw [Forest.isList_eq] at hr'
    cases ht : (f.node? r).map (·.text?) with
    | none =>
      rw [ht] at hr'
      cases hr'
    | some t =>
      obtain ⟨s, hs, htree⟩ := h r (valid_of_text? ht)
      have hlist := Forest.isList_of_treeWithin htree
      rw [hr] at hlist
      rcases Forest.treeWithin_inv htree with ⟨text, rfl, -⟩ | ⟨items, k, -, rfl, -, hchildren⟩
      · cases hlist
      obtain ⟨t, htmem, hct⟩ := List.mem_map.mp (hchildren ▸ List.mem_map_of_mem hmem)
      have hlist' := (Forest.isList_of_treeWithin hct.symm).symm.trans hc
      rw [head_of_treeWithin htree, producesReal_of_treeWithin hct.symm hlist']
      exact ((typed_list_iff items).mp hs.typed t htmem).1 hlist'

/-- The trees that are read from a coherent forest. -/
theorem Coherent.fits (h : Coherent f) {fuel : Nat} {r : Ref} {s : Sexp} (hs : f.treeWithin fuel r = some s) :
    Fits s := by
  refine ⟨?_, h.atom.atomsFit hs⟩
  induction fuel generalizing r s with
  | zero => cases hs
  | succ fuel ih =>
    rcases Forest.treeWithin_inv hs with ⟨text, rfl, htext⟩ | ⟨items, k, hk, rfl, htext, hchildren⟩
    · rfl
    · cases hk
      refine (typed_list_iff items).mpr fun t ht => ?_
      obtain ⟨c, hc, hct⟩ := List.mem_map.mp (hchildren ▸ List.mem_map_of_mem ht)
      refine ⟨fun hlist => ?_, ih hct⟩
      rw [← head_of_treeWithin hs, ← producesReal_of_treeWithin hct hlist]
      refine h.child ?_ hc ((Forest.isList_of_treeWithin hct).trans hlist)
      rw [Forest.isList_of_treeWithin hs, Sexp.isList]

/-! ## Exchanges -/

theorem Spellable.swap (h : Spellable f) {x y : Ref} (hswap : f.swap x y = .ok g) : Spellable g := by
  intro r text htext
  rw [Forest.text?_swap hswap] at htext
  exact h r text htext

/-- An exchange of two lists that both produce a real, or both do not, keeps a forest coherent. -/
theorem Coherent.swap (h : Coherent f) {x y : Ref} (hx : f.isList x = true) (hy : f.isList y = true)
    (hsame : producesReal f x = producesReal f y) (hswap : f.swap x y = .ok g) : Coherent g := by
  have hhead : ∀ r, g.head r = f.head r := Forest.head_swap hswap <| by
    rw [Forest.text_of_isList hx, Forest.text_of_isList hy]
  constructor
  case atom => exact h.atom.swap hswap
  case child =>
    intro r c hr hmem hc
    rw [Forest.isList_swap hswap] at hr hc
    rw [producesReal, hhead, hhead, ← producesReal]
    -- Where one of the two lists stands now, the other one suited, and both produce the same.
    rcases Forest.mem_children_swap hswap hmem with hold | ⟨rfl, hold⟩ | ⟨rfl, hold⟩
    · exact h.child hr hold hc
    · rw [← hsame]
      exact h.child hr hold hx
    · rw [hsame]
      exact h.child hr hold hy

theorem isList_of_mem_sublists {root r : Ref} (h : r ∈ sublists f root) : f.isList r = true := by
  have := (List.mem_filter.mp h).2
  rw [Bool.and_eq_true] at this
  exact this.2

/-- What an exchange comes to: nothing changes, or two lists that produce the same change places. -/
theorem exchange_gives (f : Forest) (a b : Ref) :
    Gives (fun result => ∀ g swapped, result = .ok (g, swapped) → g = f ∨
        ∃ x ∈ sublists f a, ∃ y ∈ sublists f b, producesReal f x = producesReal f y ∧ f.swap x y = .ok g)
      (exchange f a b) := by
  have hsame : ∀ g swapped, (.ok (f, false) : Except Sexp.LinkError (Forest × Bool)) = .ok (g, swapped) → g = f ∨
      ∃ x ∈ sublists f a, ∃ y ∈ sublists f b, producesReal f x = producesReal f y ∧ f.swap x y = .ok g := by
    rintro g swapped ⟨⟩
    exact .inl rfl
  unfold exchange
  dsimp only
  split
  · exact .pure hsame
  rename_i hcandidates
  refine .bind (Chance.choose_mem a (by simpa using hcandidates)) fun x hx => ?_
  split
  · exact .pure hsame
  rename_i hmates
  refine .bind (Chance.choose_mem b (by simpa using hmates)) fun y hy => .pure ?_
  obtain ⟨hy, hreal⟩ := List.mem_filter.mp hy
  intro g swapped hresult
  cases hswap : f.swap x y with
  | error e =>
    rw [hswap] at hresult
    cases hresult
  | ok g' =>
    rw [hswap] at hresult
    cases hresult
    exact .inr ⟨x, hx, y, hy, (of_decide_eq_true hreal).symm, hswap⟩

theorem exchange_coherent (h : Coherent f) (a b : Ref) :
    Gives (fun result => ∀ g swapped, result = .ok (g, swapped) → Coherent g ∧ ∀ r, g.isList r = f.isList r)
      (exchange f a b) := by
  intro s g swapped hresult
  rcases exchange_gives f a b s g swapped hresult with rfl | ⟨x, hx, y, hy, hreal, hswap⟩
  · exact ⟨h, fun _ => rfl⟩
  · exact ⟨h.swap (isList_of_mem_sublists hx) (isList_of_mem_sublists hy) hreal hswap, Forest.isList_swap hswap⟩

/-! ## Programs -/

theorem fits_of_sound {e : Expr} (h : Sound e) : Fits e.toSexp :=
  ⟨typed_toSexp h.wellFormed.1 h.checked, Expr.atomsFit_toSexp e⟩

/-- What is read from the text of a list of a coherent forest is sound. -/
theorem Coherent.sound_of_print (h : Coherent f) {r : Ref} (hlist : f.isList r = true) {e : Expr}
    (hparse : parseProgram (f.print r) = .ok e) : Sound e := by
  unfold Forest.print at hparse
  cases htree : f.tree? r with
  | none =>
    rw [htree] at hparse
    cases hparse
  | some t =>
    rw [htree] at hparse
    have hfits := h.fits htree
    have hlist' := (Forest.isList_of_treeWithin htree).symm.trans hlist
    exact sound_of_text ⟨hlist', hfits.atoms⟩ hfits.typed hparse

/-- What two trees have along with all their parts is had by whatever is read from them, planted one after the other. -/
theorem exists_planted {P : Sexp → Prop} (hparts : ∀ items, P (.list items) → ∀ s ∈ items, P s) {s t : Sexp} (hs : P s)
    (ht : P t) (r : Ref)
    (hr : (Forest.ofNodes (Sexp.nodesOf none 0 s ++ Sexp.nodesOf none (Sexp.count s) t)).valid r = true) :
    ∃ u, P u ∧ (Forest.ofNodes (Sexp.nodesOf none 0 s ++ Sexp.nodesOf none (Sexp.count s) t)).tree? r = some u := by
  cases r with
  | negSucc n => cases hr
  | ofNat n =>
    change ((Forest.ofNodes _).node? n).isSome = true at hr
    rw [Forest.node?_ofNodes, Option.isSome_iff_exists] at hr
    obtain ⟨node, hnode⟩ := hr
    have hlt := (List.getElem?_eq_some_iff.mp hnode).1
    rw [List.length_append, Sexp.length_nodesOf, Sexp.length_nodesOf] at hlt
    by_cases hfirst : n < Sexp.count s
    · have := Forest.exists_subtree hparts s hs none [] (Sexp.nodesOf none (Sexp.count s) t) n hfirst
      simpa using this
    · have := Forest.exists_subtree hparts t ht none (Sexp.nodesOf none 0 s) [] (n - Sexp.count s) (by omega)
      rw [Sexp.length_nodesOf, Nat.add_sub_cancel' (by omega), List.append_nil] at this
      exact this

/-- Two trees planted one after the other make a coherent forest. -/
theorem coherent_planted {s t : Sexp} (hs : Fits s) (ht : Fits t) :
    Coherent (.ofNodes (Sexp.nodesOf none 0 s ++ Sexp.nodesOf none (Sexp.count s) t)) :=
  coherent_of_trees (exists_planted (fun _ h => h.of_mem) hs ht)

/-- **Crossover keeps programs sound.** Whatever is drawn, the programs that are read from the texts after a crossover
of sound programs are sound. -/
theorem crossover_sound {a b : Expr} (ha : Sound a) (hb : Sound b) :
    Gives (fun result => ∀ crossed, result = .ok crossed → ∀ e,
        parseProgram crossed.first = .ok e ∨ parseProgram crossed.second = .ok e → Sound e)
      (crossover a b) := by
  -- The second program is planted after the first, and an exchange leaves both roots lists.
  have hfirst : Forest.empty.plant a.toSexp = (.ofNodes (Sexp.nodesOf none 0 a.toSexp), 0) :=
    Forest.plant_ofNodes a.toSexp []
  have hboth := Forest.plant_ofNodes b.toSexp (Sexp.nodesOf none 0 a.toSexp)
  have hcoherent := coherent_planted (fits_of_sound ha) (fits_of_sound hb)
  have hra := Forest.isList_of_treeWithin (Forest.tree?_nodesOf a.toSexp none []
    (Sexp.nodesOf none (Sexp.count a.toSexp) b.toSexp))
  have hrb := Forest.isList_of_treeWithin (Forest.tree?_nodesOf b.toSexp none (Sexp.nodesOf none 0 a.toSexp) [])
  rw [Sexp.length_nodesOf] at hboth hrb
  rw [List.append_nil, Expr.toSexp_isList hb.isLiteral] at hrb
  rw [Expr.toSexp_isList ha.isLiteral] at hra
  unfold crossover
  rw [hfirst]
  simp only
  rw [hboth]
  refine .bind (exchange_coherent hcoherent _ _) fun result hresult => .pure ?_
  intro crossed hcrossed e he
  cases result with
  | error x => cases hcrossed
  | ok pair =>
    obtain ⟨hg, hlists⟩ := hresult pair.1 pair.2 rfl
    cases hcrossed
    rcases he with he | he
    · exact hg.sound_of_print ((hlists _).trans hra) he
    · exact hg.sound_of_print ((hlists _).trans hrb) he

end Forager.Breeding
