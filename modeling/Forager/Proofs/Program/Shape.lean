import Mathlib.Data.List.Basic
import Mathlib.Tactic.Common
import Forager.Program.Build

/-!
# Shapes of expressions

* `Expr.shaped e` : every operation of `e` has as many arguments of the right shape as it takes, and every sensor is
  one of the robot's; `Expr.finite e` : all its numbers are finite; `Expr.WellFormed e` : both;
* `build_inv` : all the ways in which building can succeed;
* `build_wellFormed` : what is built is well formed and no literal.
-/

namespace Forager.Program

set_option autoImplicit false

/-- Induction over expressions: a property of all arguments passes on to the whole. -/
theorem Expr.args_induction {P : Expr → Prop} (node : ∀ op args, (∀ a ∈ args, P a) → P (.node op args)) (e : Expr) :
    P e := by
  match e with
  | .node op args =>
    refine node op args fun a ha => ?_
    have : sizeOf a < sizeOf args := List.sizeOf_lt_of_mem ha
    exact Expr.args_induction node a
termination_by sizeOf e
decreasing_by
  simp only [Expr.node.sizeOf_spec]
  omega

def Op.isLiteral : Op → Bool
  | .literal _ => true
  | _ => false

def Expr.isLiteral (e : Expr) : Bool := e.op.isLiteral

/-- Whether an operation takes these arguments. Numbers are arguments of comparisons only. -/
def Op.takes (op : Op) (args : List Expr) : Bool :=
  match op with
  | .step | .all | .any => args.all (!·.isLiteral)
  | .branch => (args.length = 2 || args.length = 3) && args.all (!·.isLiteral)
  | .negation => args.length = 1 && args.all (!·.isLiteral)
  | .comparison _ => args.length = 2
  | .getRange sensor => 0 ≤ sensor && sensor < sensorCount && args.isEmpty
  | _ => args.isEmpty

mutual

/-- Whether every operation of an expression takes its arguments. -/
def Expr.shaped : Expr → Bool
  | .node op args => op.takes args && shapedAll args

/-- Whether every operation of several expressions takes its arguments. -/
def Expr.shapedAll : List Expr → Bool
  | [] => true
  | e :: rest => e.shaped && shapedAll rest

end

/-- Whether the numbers that an operation mentions are finite. -/
def Op.isFinite : Op → Bool
  | .literal x => Number.isFinite x
  | .setSpeed left right => Number.isFinite left && Number.isFinite right
  | _ => true

def Expr.finite (e : Expr) : Bool := e.ops.all Op.isFinite

def Op.numbers : Op → List Float
  | .literal x => [x]
  | .setSpeed left right => [left, right]
  | _ => []

def Expr.numbers (e : Expr) : List Float := e.ops.flatMap Op.numbers

/-- An expression of the right shape all of whose numbers are finite. -/
def Expr.WellFormed (e : Expr) : Prop := e.shaped = true ∧ e.finite = true

instance (e : Expr) : Decidable e.WellFormed := inferInstanceAs (Decidable (_ ∧ _))

namespace Expr

theorem shapedAll_iff (args : List Expr) : shapedAll args = true ↔ ∀ a ∈ args, a.shaped = true := by
  induction args with
  | nil => simp [shapedAll]
  | cons a args ih => simp [shapedAll, ih]

theorem shaped_node (op : Op) (args : List Expr) :
    (node op args).shaped = true ↔ op.takes args = true ∧ ∀ a ∈ args, a.shaped = true := by
  rw [shaped, Bool.and_eq_true, shapedAll_iff]

theorem finite_node (op : Op) (args : List Expr) :
    (node op args).finite = true ↔ op.isFinite = true ∧ ∀ a ∈ args, a.finite = true := by
  have hall : ∀ as : List Expr, (opsAll as).all Op.isFinite = true ↔ ∀ a ∈ as, a.finite = true := by
    intro as
    induction as with
    | nil => simp [opsAll]
    | cons a as ih => simp only [opsAll, List.all_append, Bool.and_eq_true, ih, List.forall_mem_cons, finite]
  rw [finite, ops, List.all_cons, Bool.and_eq_true, hall]

theorem mem_numbers {op : Op} {args : List Expr} {x : Float} :
    x ∈ (node op args).numbers ↔ x ∈ op.numbers ∨ ∃ a ∈ args, x ∈ a.numbers := by
  have hall : ∀ as : List Expr, x ∈ (opsAll as).flatMap Op.numbers ↔ ∃ a ∈ as, x ∈ a.numbers := by
    intro as
    induction as with
    | nil => simp [opsAll]
    | cons a as ih => simp only [opsAll, List.flatMap_append, List.mem_append, ih, List.exists_mem_cons_iff, numbers]
  rw [numbers, ops, List.flatMap_cons, List.mem_append, hall]

theorem finite_iff {e : Expr} : e.finite = true ↔ ∀ x ∈ e.numbers, Number.isFinite x = true := by
  have hop : ∀ op : Op, op.isFinite = true ↔ ∀ x ∈ op.numbers, Number.isFinite x = true := by
    intro op
    cases op <;> simp [Op.isFinite, Op.numbers]
  simp only [finite, numbers, List.all_eq_true, hop, List.mem_flatMap]
  exact ⟨fun h x ⟨op, hop, hx⟩ => h op hop x hx, fun h op hop x hx => h x ⟨op, hop, hx⟩⟩

theorem wellFormed_node (op : Op) (args : List Expr) :
    (node op args).WellFormed ↔
      (op.takes args = true ∧ op.isFinite = true) ∧ ∀ a ∈ args, a.WellFormed := by
  unfold WellFormed
  rw [shaped_node, finite_node]
  constructor
  · rintro ⟨⟨ht, hs⟩, hf, hfs⟩
    exact ⟨⟨ht, hf⟩, fun a ha => ⟨hs a ha, hfs a ha⟩⟩
  · rintro ⟨⟨ht, hf⟩, h⟩
    exact ⟨⟨ht, fun a ha => (h a ha).1⟩, hf, fun a ha => (h a ha).2⟩

theorem isLiteral_of_root {e : Expr} (h : e.kind = .step) : e.isLiteral = false := by
  obtain ⟨op, args⟩ := e
  cases op with
  | literal x => cases h
  | _ => rfl

end Expr

/-! ## Building -/

theorem ok_of_bind {ε α β : Type} {first : Except ε α} {next : α → Except ε β} {b : β}
    (h : (first >>= next) = .ok b) : ∃ a, first = .ok a ∧ next a = .ok b := by
  cases hfirst : first with
  | error e =>
    rw [hfirst] at h
    cases h
  | ok a =>
    rw [hfirst] at h
    exact ⟨a, rfl, h⟩

theorem readReal_finite {word text : String} {x : Float} (h : readReal word text = .ok x) :
    Number.isFinite x = true := by
  unfold readReal at h
  split at h
  · split at h
    · cases h
      assumption
    · cases h
  · cases h

theorem readSensor_inv {args : List Sexp} {op : Op} (h : readSensor args = .ok op) :
    ∃ n, 0 ≤ n ∧ n < (sensorCount : Int) ∧ op = .getRange n := by
  unfold readSensor at h
  split at h
  · split at h
    · split at h
      · rename_i n _ hn
        cases h
        exact ⟨n, hn.1, hn.2, rfl⟩
      · cases h
    · cases h
  · cases h

theorem readSpeeds_inv {args : List Sexp} {op : Op} (h : readSpeeds args = .ok op) :
    ∃ l r, Number.isFinite l = true ∧ Number.isFinite r = true ∧ op = .setSpeed l r := by
  unfold readSpeeds at h
  split at h
  · obtain ⟨l, hl, h⟩ := ok_of_bind h
    obtain ⟨r, hr, h⟩ := ok_of_bind h
    cases h
    exact ⟨l, r, readReal_finite hl, readReal_finite hr, rfl⟩
  · cases h

theorem readState_inv {args : List Sexp} {op : Op} (h : readState args = .ok op) : ∃ s, op = .inState s := by
  unfold readState at h
  split at h
  · split at h
    · cases h
      exact ⟨_, rfl⟩
    · cases h
  · cases h

/-- The kinds that take any logical arguments of the right number. -/
def Kind.isLogicalNode : Kind → Bool
  | .step | .all | .any | .branch | .negation => true
  | _ => false

/-- The kinds that take nothing. -/
def Kind.isBareLeaf : Kind → Bool
  | .literal | .noop | .valueNoop | .getMidpoint | .getWidth | .pickUp | .isCarrying => true
  | _ => false

/-- How the expression `e` was built from the arguments that follow `word`. -/
inductive Built (word : String) (args : List Sexp) : Expr → Prop
  | sensor (n : Int) (hw : Kind.ofWord? word = some .getRange) (h : readSensor args = .ok (.getRange n)) :
      Built word args (.leaf (.getRange n))
  | speeds (l r : Float) (hw : Kind.ofWord? word = some .setSpeed) (h : readSpeeds args = .ok (.setSpeed l r)) :
      Built word args (.leaf (.setSpeed l r))
  | state (s : State) (hw : Kind.ofWord? word = some .inState) (h : readState args = .ok (.inState s)) :
      Built word args (.leaf (.inState s))
  | comparison (c : Comparison) (es : List Expr) (hw : Kind.ofWord? word = some (.comparison c))
      (hlen : args.length = 2) (h : buildOperands args = .ok es) : Built word args (.node (.comparison c) es)
  | logical (kind : Kind) (es : List Expr) (hw : Kind.ofWord? word = some kind) (hk : kind.isLogicalNode = true)
      (hcount : checkCount kind args.length = .ok ()) (h : buildLists word args = .ok es) :
      Built word args (.node (.blank kind) es)
  | bare (kind : Kind) (hw : Kind.ofWord? word = some kind) (hk : kind.isBareLeaf = true) (h : args = []) :
      Built word args (.leaf (.blank kind))

theorem build_inv {t : Sexp} {e : Expr} (h : build t = .ok e) :
    ∃ word args, t = .list (.atom word :: args) ∧ Built word args e := by
  match t with
  | .atom text => simp [build] at h
  | .list [] => simp [build] at h
  | .list (.list _ :: _) => simp [build] at h
  | .list (.atom word :: args) =>
    refine ⟨word, args, rfl, ?_⟩
    rw [build] at h
    split at h
    · cases h
    · cases hw : Kind.ofWord? word with
      | none => simp [hw] at h
      | some kind =>
        simp only [hw] at h
        cases kind with
        | getRange =>
          obtain ⟨op, hop, h⟩ := ok_of_bind h
          cases h
          obtain ⟨n, -, -, rfl⟩ := readSensor_inv hop
          exact .sensor n hw hop
        | setSpeed =>
          obtain ⟨op, hop, h⟩ := ok_of_bind h
          cases h
          obtain ⟨l, r, -, -, rfl⟩ := readSpeeds_inv hop
          exact .speeds l r hw hop
        | inState =>
          obtain ⟨op, hop, h⟩ := ok_of_bind h
          cases h
          obtain ⟨s, rfl⟩ := readState_inv hop
          exact .state s hw hop
        | comparison c =>
          simp only at h
          split at h
          · rename_i hlen
            obtain ⟨es, hes, h⟩ := ok_of_bind h
            cases h
            exact .comparison c es hw hlen hes
          · cases h
        | step | branch | all | any | negation =>
          obtain ⟨_, hcount, h⟩ := ok_of_bind h
          obtain ⟨es, hes, h⟩ := ok_of_bind h
          cases h
          exact .logical _ es hw rfl hcount hes
        | literal | noop | valueNoop | getMidpoint | getWidth | pickUp | isCarrying =>
          simp only at h
          split at h
          · rename_i hempty
            cases h
            exact .bare _ hw rfl (List.isEmpty_iff.mp hempty)
          · cases h

theorem ofWord?_inv {word : String} {kind : Kind} (h : Kind.ofWord? word = some kind) :
    kind ≠ .literal ∧ kind.word = word := by
  unfold Kind.ofWord? at h
  have hmem := List.mem_of_find?_eq_some h
  have hword := List.find?_some h
  refine ⟨?_, by simpa using hword⟩
  rintro rfl
  exact absurd hmem (by decide)

theorem ofWord?_word {kind : Kind} (h : kind ≠ .literal) : Kind.ofWord? kind.word = some kind := by
  cases kind with
  | literal => exact absurd rfl h
  | comparison c => cases c <;> decide
  | _ => decide

/-- Every such way succeeds. -/
theorem Built.build_eq {word : String} {args : List Sexp} {e : Expr} (h : Built word args e) :
    build (.list (.atom word :: args)) = .ok e := by
  have hword : ∀ {kind}, Kind.ofWord? word = some kind → word ≠ "" := by
    rintro kind hw rfl
    cases hw
  cases h with
  | sensor n hw h =>
    rw [build, if_neg (hword hw), hw, h]
    rfl
  | speeds l r hw h =>
    rw [build, if_neg (hword hw), hw, h]
    rfl
  | state s hw h =>
    rw [build, if_neg (hword hw), hw, h]
    rfl
  | comparison c es hw hlen h =>
    rw [build, if_neg (hword hw), hw]
    simp only [if_pos hlen, h]
    rfl
  | logical kind es hw hk hcount h =>
    rw [build, if_neg (hword hw), hw]
    cases kind with
    | step | branch | all | any | negation =>
      simp only [hcount, h]
      rfl
    | _ => cases hk
  | bare kind hw hk h =>
    subst h
    rw [build, if_neg (hword hw), hw]
    cases kind with
    | literal | noop | valueNoop | getMidpoint | getWidth | pickUp | isCarrying => rfl
    | _ => cases hk

/-- The word of a list tells what is built from it. -/
theorem Built.ofWord?_kind {word : String} {args : List Sexp} {e : Expr} (h : Built word args e) :
    Kind.ofWord? word = some e.kind := by
  cases h with
  | sensor n hw h => exact hw
  | speeds l r hw h => exact hw
  | state s hw h => exact hw
  | comparison c es hw hlen h => exact hw
  | logical kind es hw hk hcount h =>
    rw [hw]
    cases kind <;> rfl
  | bare kind hw hk h =>
    rw [hw]
    cases kind <;> rfl

theorem length_buildLists {word : String} {args : List Sexp} {es : List Expr} (h : buildLists word args = .ok es) :
    es.length = args.length := by
  induction args generalizing es with
  | nil =>
    cases h
    rfl
  | cons t args ih =>
    cases t with
    | atom text => cases h
    | list items =>
      obtain ⟨e, -, h⟩ := ok_of_bind h
      obtain ⟨rest, hrest, h⟩ := ok_of_bind h
      cases h
      rw [List.length_cons, List.length_cons, ih hrest]

theorem length_buildOperands {args : List Sexp} {es : List Expr} (h : buildOperands args = .ok es) :
    es.length = args.length := by
  induction args generalizing es with
  | nil =>
    cases h
    rfl
  | cons t args ih =>
    cases t with
    | atom text =>
      obtain ⟨x, -, h⟩ := ok_of_bind h
      obtain ⟨rest, hrest, h⟩ := ok_of_bind h
      cases h
      rw [List.length_cons, List.length_cons, ih hrest]
    | list items =>
      obtain ⟨e, -, h⟩ := ok_of_bind h
      obtain ⟨rest, hrest, h⟩ := ok_of_bind h
      cases h
      rw [List.length_cons, List.length_cons, ih hrest]

theorem mem_buildLists {word : String} {args : List Sexp} {es : List Expr} (h : buildLists word args = .ok es)
    {e : Expr} (he : e ∈ es) : ∃ t ∈ args, build t = .ok e := by
  induction args generalizing es with
  | nil =>
    cases h
    cases he
  | cons t args ih =>
    cases t with
    | atom text => cases h
    | list items =>
      obtain ⟨first, hfirst, h⟩ := ok_of_bind h
      obtain ⟨rest, hrest, h⟩ := ok_of_bind h
      cases h
      rcases List.mem_cons.mp he with rfl | he
      · exact ⟨_, List.mem_cons_self, hfirst⟩
      · obtain ⟨s, hs, hbuild⟩ := ih hrest he
        exact ⟨s, List.mem_cons_of_mem _ hs, hbuild⟩

theorem mem_buildOperands {args : List Sexp} {es : List Expr} (h : buildOperands args = .ok es) {e : Expr}
    (he : e ∈ es) : (∃ x, Number.isFinite x = true ∧ e = .leaf (.literal x)) ∨ ∃ t ∈ args, build t = .ok e := by
  induction args generalizing es with
  | nil =>
    cases h
    cases he
  | cons t args ih =>
    have hlater : ∀ rest, buildOperands args = .ok rest → e ∈ rest →
        (∃ x, Number.isFinite x = true ∧ e = .leaf (.literal x)) ∨ ∃ s ∈ t :: args, build s = .ok e := by
      intro rest hrest he
      rcases ih hrest he with hx | ⟨s, hs, hbuild⟩
      · exact .inl hx
      · exact .inr ⟨s, List.mem_cons_of_mem _ hs, hbuild⟩
    cases t with
    | atom text =>
      obtain ⟨x, hx, h⟩ := ok_of_bind h
      obtain ⟨rest, hrest, h⟩ := ok_of_bind h
      cases h
      rcases List.mem_cons.mp he with rfl | he
      · exact .inl ⟨x, readReal_finite hx, rfl⟩
      · exact hlater rest hrest he
    | list items =>
      obtain ⟨first, hfirst, h⟩ := ok_of_bind h
      obtain ⟨rest, hrest, h⟩ := ok_of_bind h
      cases h
      rcases List.mem_cons.mp he with rfl | he
      · exact .inr ⟨_, List.mem_cons_self, hfirst⟩
      · exact hlater rest hrest he

theorem exists_of_buildLists {word : String} {args : List Sexp} {es : List Expr} (h : buildLists word args = .ok es) :
    ∀ t ∈ args, ∃ e, build t = .ok e := by
  induction args generalizing es with
  | nil => exact fun t ht => by cases ht
  | cons t args ih =>
    cases t with
    | atom text => cases h
    | list items =>
      obtain ⟨first, hfirst, h⟩ := ok_of_bind h
      obtain ⟨rest, hrest, -⟩ := ok_of_bind h
      exact List.forall_mem_cons.mpr ⟨⟨first, hfirst⟩, ih hrest⟩

theorem exists_of_buildOperands {args : List Sexp} {es : List Expr} (h : buildOperands args = .ok es) :
    ∀ t ∈ args, (∃ e, build t = .ok e) ∨ ∃ text x, t = .atom text ∧ readReal "" text = .ok x := by
  induction args generalizing es with
  | nil => exact fun t ht => by cases ht
  | cons t args ih =>
    cases t with
    | atom text =>
      obtain ⟨x, hx, h⟩ := ok_of_bind h
      obtain ⟨rest, hrest, -⟩ := ok_of_bind h
      exact List.forall_mem_cons.mpr ⟨.inr ⟨text, x, rfl, hx⟩, ih hrest⟩
    | list items =>
      obtain ⟨first, hfirst, h⟩ := ok_of_bind h
      obtain ⟨rest, hrest, -⟩ := ok_of_bind h
      exact List.forall_mem_cons.mpr ⟨.inl ⟨first, hfirst⟩, ih hrest⟩

theorem takes_blank {kind : Kind} {es : List Expr} (hk : kind.isLogicalNode = true)
    (hcount : checkCount kind es.length = .ok ()) (hes : ∀ e ∈ es, e.isLiteral = false) :
    (Op.blank kind).takes es = true ∧ (Op.blank kind).isFinite = true := by
  have hall : es.all (!·.isLiteral) = true := by
    rw [List.all_eq_true]
    intro e he
    rw [hes e he]
    rfl
  cases kind with
  | step | all | any => exact ⟨hall, rfl⟩
  | branch =>
    refine ⟨?_, rfl⟩
    simp only [checkCount] at hcount
    split_ifs at hcount with hfew hmany
    simp only [Op.blank, Op.takes, hall, Bool.and_true, Bool.or_eq_true, decide_eq_true_eq]
    omega
  | negation =>
    refine ⟨?_, rfl⟩
    simp only [checkCount] at hcount
    split_ifs at hcount with hone
    simp only [Op.blank, Op.takes, hall, Bool.and_true, decide_eq_true_eq]
    exact hone
  | _ => cases hk

theorem wellFormed_leaf {op : Op} (htakes : op.takes [] = true) (hfinite : op.isFinite = true) :
    (Expr.leaf op).WellFormed :=
  (Expr.wellFormed_node op []).mpr ⟨⟨htakes, hfinite⟩, by simp⟩

/-- **What is built is well formed** and no number. -/
theorem build_wellFormed {t : Sexp} {e : Expr} (h : build t = .ok e) : e.WellFormed ∧ e.isLiteral = false := by
  obtain ⟨word, args, ht, hbuilt⟩ := build_inv h
  have ih : ∀ s ∈ args, ∀ a, build s = .ok a → a.WellFormed ∧ a.isLiteral = false := by
    intro s hs a ha
    have hsmaller : sizeOf s < sizeOf t := by
      have := List.sizeOf_lt_of_mem hs
      simp only [ht, Sexp.list.sizeOf_spec, List.cons.sizeOf_spec]
      omega
    exact build_wellFormed ha
  cases hbuilt with
  | sensor n hw hread =>
    obtain ⟨m, hlow, hhigh, hm⟩ := readSensor_inv hread
    cases hm
    exact ⟨wellFormed_leaf (by simp [Op.takes, hlow, hhigh]) rfl, rfl⟩
  | speeds l r hw hread =>
    obtain ⟨l', r', hl, hr, hop⟩ := readSpeeds_inv hread
    cases hop
    exact ⟨wellFormed_leaf rfl (by simp [Op.isFinite, hl, hr]), rfl⟩
  | state s hw hread => exact ⟨wellFormed_leaf rfl rfl, rfl⟩
  | comparison c es hw hlen hes =>
    refine ⟨(Expr.wellFormed_node _ _).mpr ⟨⟨?_, rfl⟩, ?_⟩, rfl⟩
    · simp [Op.takes, length_buildOperands hes, hlen]
    · intro a ha
      rcases mem_buildOperands hes ha with ⟨x, hx, rfl⟩ | ⟨s, hs, hbuild⟩
      · exact wellFormed_leaf rfl hx
      · exact (ih s hs a hbuild).1
  | logical kind es hw hk hcount hes =>
    have hargs : ∀ a ∈ es, a.WellFormed ∧ a.isLiteral = false := by
      intro a ha
      obtain ⟨s, hs, hbuild⟩ := mem_buildLists hes ha
      exact ih s hs a hbuild
    refine ⟨(Expr.wellFormed_node _ _).mpr ⟨?_, fun a ha => (hargs a ha).1⟩, ?_⟩
    · rw [← length_buildLists hes] at hcount
      exact takes_blank hk hcount fun a ha => (hargs a ha).2
    · cases kind <;> first | rfl | cases hk
  | bare kind hw hk hargs =>
    have hne := (ofWord?_inv hw).1
    cases kind with
    | literal => exact absurd rfl hne
    | noop | valueNoop | getMidpoint | getWidth | pickUp | isCarrying => exact ⟨wellFormed_leaf rfl rfl, rfl⟩
    | _ => cases hk
termination_by sizeOf t

end Forager.Program
