import Mathlib.Data.List.Basic
import Mathlib.Data.List.Perm.Basic
import Mathlib.Data.List.Count
import Forager.Proofs.Program.RoundTrip

/-!
# Places in expressions

A place is the way down from the root: which argument to take at each step.

* `Expr.sub? e path` : the part of `e` at a place; `Expr.replace e path t` : `e` with `t` at this place;
* `Expr.inner e` : the lists below the root with their places, in preorder (`mem_inner_iff`);
* `ops_replace` : a replacement exchanges the operations of one part for those of another, so that an exchange of parts
  keeps them all (`ops_exchange`);
* `wellFormed_replace` : a list may take the place of a list;
* `toSexp_node`, `toSexp_list` : how the trees of arguments stand in the tree of the whole.
-/

namespace Forager.Program.Expr

set_option autoImplicit false

/-- The part of an expression at a place, if the place exists. -/
def sub? : Expr → List Nat → Option Expr
  | e, [] => some e
  | e, i :: path => e.args[i]?.bind (sub? · path)

/-- The expression with another one at a place. -/
def replace : Expr → List Nat → Expr → Expr
  | _, [], t => t
  | e, i :: path, t => node e.op (e.args.modify i (replace · path t))

mutual

/-- All parts of an expression with their places, in preorder. -/
def parts : Expr → List (List Nat × Expr)
  | node op args => ([], node op args) :: partsFrom 0 args

/-- The parts of arguments that are numbered from `i` on, with their places. -/
def partsFrom (i : Nat) : List Expr → List (List Nat × Expr)
  | [] => []
  | e :: rest => (parts e).map (fun part => (i :: part.1, part.2)) ++ partsFrom (i + 1) rest

end

/-- The lists below the root with their places, in preorder. -/
def inner (e : Expr) : List (List Nat × Expr) := (partsFrom 0 e.args).filter (!·.2.isLiteral)

def isReal (e : Expr) : Bool := e.category = .real

/-- The list `s` stands at this place below the root. -/
structure Inner (e : Expr) (path : List Nat) (s : Expr) : Prop where
  part : e.sub? path = some s
  below : path ≠ []
  list : s.isLiteral = false

variable {e s t : Expr} {path : List Nat}

/-! ## All places -/

theorem mem_partsFrom {k : Nat} {args : List Expr} {part : List Nat × Expr} :
    part ∈ partsFrom k args ↔
      ∃ i path a, part.1 = (k + i) :: path ∧ args[i]? = some a ∧ (path, part.2) ∈ a.parts := by
  induction args generalizing k with
  | nil => simp [partsFrom]
  | cons a args ih =>
    rw [partsFrom, List.mem_append, List.mem_map, ih]
    constructor
    · rintro (⟨⟨path, s⟩, hmem, rfl⟩ | ⟨i, path, a', hpath, ha', hmem⟩)
      · exact ⟨0, path, a, rfl, rfl, hmem⟩
      · exact ⟨i + 1, path, a', by rw [hpath]; congr 1; omega, ha', hmem⟩
    · rintro ⟨_ | i, path, a', hpath, ha', hmem⟩
      · cases ha'
        exact .inl ⟨(path, part.2), hmem, Prod.ext hpath.symm rfl⟩
      · exact .inr ⟨i, path, a', by rw [hpath]; congr 1; omega, ha', hmem⟩

theorem mem_parts_iff : (path, s) ∈ e.parts ↔ e.sub? path = some s := by
  induction path generalizing e with
  | nil =>
    obtain ⟨op, args⟩ := e
    rw [parts, List.mem_cons, mem_partsFrom]
    simp [sub?, eq_comm]
  | cons i path ih =>
    obtain ⟨op, args⟩ := e
    rw [parts, List.mem_cons, mem_partsFrom, sub?, Option.bind_eq_some_iff]
    simp only [Prod.mk.injEq, reduceCtorEq, false_and, false_or, List.cons.injEq, Nat.zero_add]
    constructor
    · rintro ⟨i, path, a, ⟨rfl, rfl⟩, ha, hmem⟩
      exact ⟨a, ha, ih.mp hmem⟩
    · rintro ⟨a, ha, hs⟩
      exact ⟨i, path, a, ⟨rfl, rfl⟩, ha, ih.mpr hs⟩

theorem kind_replace (h : path ≠ []) : (e.replace path t).kind = e.kind := by
  cases path with
  | nil => exact absurd rfl h
  | cons i path => rfl

/-- All lists below the root are listed with their places. -/
theorem mem_inner_iff : (path, s) ∈ e.inner ↔ e.Inner path s := by
  have hbelow : (path, s) ∈ partsFrom 0 e.args ↔ e.sub? path = some s ∧ path ≠ [] := by
    rw [← mem_parts_iff]
    obtain ⟨op, args⟩ := e
    rw [parts, List.mem_cons, Prod.mk.injEq]
    constructor
    · intro h
      obtain ⟨i, rest, -, hpath, -⟩ := mem_partsFrom.mp h
      exact ⟨.inr h, fun hnil => List.cons_ne_nil _ _ (hpath.symm.trans hnil)⟩
    · rintro ⟨⟨rfl, -⟩ | h, hne⟩
      · exact absurd rfl hne
      · exact h
  rw [inner, List.mem_filter, hbelow, Bool.not_eq_true']
  exact ⟨fun ⟨⟨hpart, hne⟩, hlist⟩ => ⟨hpart, hne, hlist⟩, fun h => ⟨⟨h.part, h.below⟩, h.list⟩⟩

/-! ## Replacements -/

/-- A place below the root lies in one of the arguments, and a replacement there changes no other. -/
theorem sub?_cons {op : Op} {args : List Expr} {i : Nat} (h : (node op args).sub? (i :: path) = some s) :
    ∃ before a after, args = before ++ a :: after ∧ before.length = i ∧ a.sub? path = some s ∧
      ∀ t, (node op args).replace (i :: path) t = node op (before ++ a.replace path t :: after) := by
  have hsplit : ∀ {args : List Expr} {i : Nat} {a : Expr}, args[i]? = some a → ∃ before after,
      args = before ++ a :: after ∧ before.length = i ∧
        ∀ change : Expr → Expr, args.modify i change = before ++ change a :: after := by
    intro args i a ha
    obtain ⟨hlt, rfl⟩ := List.getElem?_eq_some_iff.mp ha
    refine ⟨args.take i, args.drop (i + 1), by simp, by simp; omega, fun change => ?_⟩
    rw [List.modify_eq_take_cons_drop hlt]
  obtain ⟨a, ha, hs⟩ := Option.bind_eq_some_iff.mp h
  obtain ⟨before, after, hargs, hlength, hmodify⟩ := hsplit ha
  exact ⟨before, a, after, hargs, hlength, hs, fun t => congrArg (node op) (hmodify (replace · path t))⟩

theorem opsAll_append (as bs : List Expr) : opsAll (as ++ bs) = opsAll as ++ opsAll bs := by
  induction as with
  | nil => rfl
  | cons a as ih => rw [List.cons_append, opsAll, opsAll, ih, List.append_assoc]

/-- **A replacement exchanges operations:** those of the part that was at the place for those of the new part. -/
theorem ops_replace (h : e.sub? path = some s) (t : Expr) :
    ((e.replace path t).ops ++ s.ops).Perm (e.ops ++ t.ops) := by
  induction path generalizing e with
  | nil =>
    cases h
    exact List.perm_append_comm
  | cons i path ih =>
    classical
    obtain ⟨op, args⟩ := e
    obtain ⟨before, a, after, rfl, -, hs, hreplace⟩ := sub?_cons h
    have hcount := List.perm_iff_count.mp (ih hs)
    rw [hreplace, ops, ops, opsAll_append, opsAll_append, opsAll, opsAll, List.perm_iff_count]
    intro op'
    have hop := hcount op'
    simp only [List.cons_append, List.count_cons, List.count_append] at hop ⊢
    omega

/-- Two expressions that exchange parts have the same operations together as before. -/
theorem ops_exchange {a b : Expr} {p q : List Nat} (hs : a.sub? p = some s) (ht : b.sub? q = some t) :
    ((a.replace p t).ops ++ (b.replace q s).ops).Perm (a.ops ++ b.ops) := by
  classical
  have hfirst := List.perm_iff_count.mp (ops_replace hs t)
  have hsecond := List.perm_iff_count.mp (ops_replace ht s)
  rw [List.perm_iff_count]
  intro op
  have hop := hfirst op
  have hop' := hsecond op
  simp only [List.count_append] at hop hop' ⊢
  omega

theorem length_ops (e : Expr) : e.ops.length = e.size := by
  have hall : ∀ args : List Expr, (∀ a ∈ args, a.ops.length = a.size) → (opsAll args).length = sizeAll args := by
    intro args h
    induction args with
    | nil => rfl
    | cons a args ih =>
      obtain ⟨ha, hargs⟩ := List.forall_mem_cons.mp h
      rw [opsAll, sizeAll, List.length_append, ha, ih hargs]
  induction e using Expr.args_induction with
  | node op args ih => rw [ops, size, List.length_cons, hall args ih]

/-! ## Well-formed expressions -/

theorem wellFormed_sub (he : e.WellFormed) (h : e.sub? path = some s) : s.WellFormed := by
  induction path generalizing e with
  | nil =>
    cases h
    exact he
  | cons i path ih =>
    obtain ⟨op, args⟩ := e
    obtain ⟨before, a, after, rfl, -, hs, -⟩ := sub?_cons h
    exact ih (((wellFormed_node op _).mp he).2 a (by simp)) hs

theorem isLiteral_replace (h : e.sub? path = some s) (hst : t.isLiteral = s.isLiteral) :
    (e.replace path t).isLiteral = e.isLiteral := by
  cases path with
  | nil =>
    cases h
    exact hst
  | cons i path => rfl

-- Only how many arguments there are, and which of them are numbers, matters to an operation.
theorem takes_congr (op : Op) {args args' : List Expr} (h : args'.map isLiteral = args.map isLiteral) :
    op.takes args' = op.takes args := by
  have hlength : args'.length = args.length := by simpa using congrArg List.length h
  have hall : args'.all (!·.isLiteral) = args.all (!·.isLiteral) := by
    have hmap := congrArg (List.all · (!·)) h
    rwa [List.all_map, List.all_map] at hmap
  have hempty : args'.isEmpty = args.isEmpty := by
    rw [Bool.eq_iff_iff, List.isEmpty_iff_length_eq_zero, List.isEmpty_iff_length_eq_zero, hlength]
  cases op <;> simp only [Op.takes, hlength, hall, hempty]

/-- **A list may take the place of a list.** -/
theorem wellFormed_replace (he : e.WellFormed) (h : e.sub? path = some s) (ht : t.WellFormed)
    (hst : t.isLiteral = s.isLiteral) : (e.replace path t).WellFormed := by
  induction path generalizing e with
  | nil => exact ht
  | cons i path ih =>
    obtain ⟨op, args⟩ := e
    obtain ⟨before, a, after, rfl, -, hs, hreplace⟩ := sub?_cons h
    obtain ⟨⟨htakes, hfinite⟩, hargs⟩ := (wellFormed_node op _).mp he
    rw [hreplace]
    refine (wellFormed_node op _).mpr ⟨⟨?_, hfinite⟩, fun b hb => ?_⟩
    · rw [← htakes]
      apply takes_congr
      rw [List.map_append, List.map_append, List.map_cons, List.map_cons, isLiteral_replace hs hst]
    · rcases List.mem_append.mp hb with hb | hb
      · exact hargs b (by simp [hb])
      · rcases List.mem_cons.mp hb with rfl | hb
        · exact ih (hargs a (by simp)) hs
        · exact hargs b (by simp [hb])

/-! ## Trees -/

/-- The tree of an operation that has arguments is made of their trees. -/
theorem toSexp_node {op : Op} {args : List Expr} (h : (node op args).shaped = true) (hne : args ≠ [])
    (args' : List Expr) : (node op args').toSexp = .list (.atom op.kind.word :: args'.map toSexp) := by
  have hempty : args.isEmpty = false := by simpa using hne
  have htakes := ((shaped_node op args).mp h).1
  rw [← toSexps_eq_map]
  cases op with
  | literal | getRange | setSpeed | inState => simp [Op.takes, hempty] at htakes
  | _ => rfl

/-- The tree of an expression that is no number: a word, and then the trees of the arguments, or atoms if there are
none. -/
theorem toSexp_list (h : e.shaped = true) (hlit : e.isLiteral = false) :
    ∃ items, e.toSexp = .list (.atom e.kind.word :: items) ∧
      (items = e.args.map toSexp ∨ e.args = [] ∧ ∀ item ∈ items, item.isList = false) := by
  obtain ⟨op, args⟩ := e
  by_cases hne : args = []
  · subst hne
    refine ⟨(node op []).toSexp.args, ?_, .inr ⟨rfl, ?_⟩⟩
    · cases op with
      | literal x => cases hlit
      | _ => rfl
    · cases op <;> simp [toSexp, toSexps, Sexp.args, Sexp.items, Sexp.isList]
  · exact ⟨_, toSexp_node h hne args, .inl rfl⟩

end Forager.Program.Expr
