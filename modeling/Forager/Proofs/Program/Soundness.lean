import Mathlib.Data.List.GetD
import Mathlib.Tactic.Common
import Forager.Program.Eval
import Forager.Proofs.Computation
import Forager.Proofs.Program.Shape

/-!
# Soundness of the category check

* `check_node_iff` : what the check says about the arguments of an operation;
* `Agent.Keeps` : what sensing and acting leave as it was;
* `eval_keeps` : running an expression leaves it as it was too;
* `eval_safe` : one of the right shape fails with category errors only, and with none if it is logical and passes the
  check;
* `eval_sound` : both, for everything that is built from text;
* `Sound e` : a program that is well formed and passes the check, and so runs without errors (`Sound.safe`).
-/

namespace Forager.Program

set_option autoImplicit false

/-! ## The check -/

theorem checkAll_iff (wanted : Category) (args : List Expr) :
    checkAll wanted args = .ok () ↔ ∀ a ∈ args, a.category.serves wanted = true ∧ check a = .ok () := by
  induction args with
  | nil => simp [checkAll]
  | cons a args ih =>
    rw [checkAll, List.forall_mem_cons, ← ih]
    cases hserves : a.category.serves wanted with
    | false => simp
    | true =>
      cases hcheck : check a with
      | error x => simp
      | ok u => simp

theorem check_node_iff (op : Op) (args : List Expr) :
    check (.node op args) = .ok () ↔
      ∀ wanted ∈ op.kind.wants, ∀ a ∈ args, a.category.serves wanted = true ∧ check a = .ok () := by
  rw [check]
  cases hw : op.kind.wants with
  | none => simp
  | some wanted => simp [checkAll_iff]

/-! ## Values -/

/-- An invariant of the states of an agent, which it keeps whatever it senses and does. -/
structure Agent.Keeps {σ : Type} (agent : Agent σ) (I : σ → Prop) : Prop where
  range : ∀ sensor s, I s → I ((agent.range sensor).run s).2
  midpoint : ∀ s, I s → I (agent.midpoint.run s).2
  width : ∀ s, I s → I (agent.width.run s).2
  inState : ∀ state s, I s → I ((agent.inState state).run s).2
  pickUp : ∀ s, I s → I (agent.pickUp.run s).2
  setSpeed : ∀ left right s, I s → I ((agent.setSpeed left right).run s).2
  isCarrying : ∀ s, I s → I (agent.isCarrying.run s).2

theorem Agent.keeps_true {σ : Type} (agent : Agent σ) : agent.Keeps fun _ => True := by
  constructor <;> intros <;> trivial

section

variable {σ : Type} {agent : Agent σ} {I : σ → Prop} (hagent : agent.Keeps I) {P : EvalError → Prop}

include hagent in
theorem value_safe (e : Expr) (h : (∀ c, P (.category c)) ∨ e.category = .real) :
    Safe I P (value agent e) := by
  rcases h with h | h
  · unfold value
    split
    · exact .pure trivial
    · exact .pure trivial
    · exact .lift (hagent.range _) (.any _)
    · exact .lift hagent.midpoint (.any _)
    · exact .lift hagent.width (.any _)
    · exact .throw (h _)
  · rcases e with ⟨op, args⟩
    cases op with
    | literal x => exact .pure trivial
    | valueNoop => exact .pure trivial
    | getRange sensor => exact .lift (hagent.range sensor) (.any _)
    | getMidpoint => exact .lift hagent.midpoint (.any _)
    | getWidth => exact .lift hagent.width (.any _)
    | _ => cases h

/-! ## Arguments -/

theorem evalStep_safe (args : List Expr) (success : Bool) (h : ∀ a ∈ args, Safe I P (eval agent a)) :
    Safe I P (evalStep agent success args) := by
  induction args generalizing success with
  | nil =>
    rw [evalStep]
    exact .pure trivial
  | cons a args ih =>
    rw [evalStep]
    exact .bind (h a (by simp)) fun _ _ => ih _ fun b hb => h b (by simp [hb])

theorem evalAll_safe (args : List Expr) (h : ∀ a ∈ args, Safe I P (eval agent a)) :
    Safe I P (evalAll agent args) := by
  induction args with
  | nil =>
    rw [evalAll]
    exact .pure trivial
  | cons a args ih =>
    rw [evalAll]
    refine .bind (h a (by simp)) fun ok _ => ?_
    cases ok with
    | false => exact .pure trivial
    | true => exact ih fun b hb => h b (by simp [hb])

theorem evalAny_safe (args : List Expr) (h : ∀ a ∈ args, Safe I P (eval agent a)) :
    Safe I P (evalAny agent args) := by
  induction args with
  | nil =>
    rw [evalAny]
    exact .pure trivial
  | cons a args ih =>
    rw [evalAny]
    refine .bind (h a (by simp)) fun ok _ => ?_
    cases ok with
    | false => exact ih fun b hb => h b (by simp [hb])
    | true => exact .pure trivial

theorem evalBranch_one (condition : Expr) :
    evalBranch agent [condition] =
      (do if ← eval agent condition then throw .missingArgument else return false) := rfl

theorem evalBranch_two (condition consequent : Expr) :
    evalBranch agent [condition, consequent] =
      (do if ← eval agent condition then eval agent consequent else return false) := rfl

theorem evalBranch_three (condition consequent alternative : Expr) :
    evalBranch agent [condition, consequent, alternative] =
      (do if ← eval agent condition then eval agent consequent else eval agent alternative) := rfl

theorem evalBranch_more (condition consequent a b : Expr) (rest : List Expr) :
    evalBranch agent (condition :: consequent :: a :: b :: rest) =
      (do if ← eval agent condition then eval agent consequent else return false) := rfl

theorem evalBranch_safe (args : List Expr) (hlen : P .missingArgument ∨ args.length = 2 ∨ args.length = 3)
    (h : ∀ a ∈ args, Safe I P (eval agent a)) : Safe I P (evalBranch agent args) := by
  match args with
  | [] => exact .throw (hlen.resolve_right (by simp))
  | [condition] =>
    rw [evalBranch_one]
    refine .bind (h condition (by simp)) fun ok _ => ?_
    cases ok with
    | false => exact .pure trivial
    | true => exact .throw (hlen.resolve_right (by simp))
  | [condition, consequent] =>
    rw [evalBranch_two]
    refine .bind (h condition (by simp)) fun ok _ => ?_
    cases ok with
    | false => exact .pure trivial
    | true => exact h consequent (by simp)
  | [condition, consequent, alternative] =>
    rw [evalBranch_three]
    refine .bind (h condition (by simp)) fun ok _ => ?_
    cases ok with
    | false => exact h alternative (by simp)
    | true => exact h consequent (by simp)
  | condition :: consequent :: _ :: _ :: _ =>
    rw [evalBranch_more]
    refine .bind (h condition (by simp)) fun ok _ => ?_
    cases ok with
    | false => exact .pure trivial
    | true => exact h consequent (by simp)

theorem evalNot_safe (args : List Expr) (hlen : P .missingArgument ∨ args.length = 1)
    (h : ∀ a ∈ args, Safe I P (eval agent a)) : Safe I P (evalNot agent args) := by
  match args with
  | [] =>
    rw [evalNot]
    exact .throw (hlen.resolve_right (by simp))
  | a :: _ =>
    rw [evalNot]
    exact .bind (h a (by simp)) fun _ _ => .pure trivial

theorem valueOf_safe (args : List Expr) (i : Nat) (hlen : P .missingArgument ∨ i < args.length)
    (h : ∀ a ∈ args, Safe I P (value agent a)) : Safe I P (valueOf agent args[i]?) := by
  cases harg : args[i]? with
  | none => exact .throw (hlen.resolve_right (by simpa using harg))
  | some a => exact h a (List.mem_of_getElem? harg)

/-! ## Expressions -/

include hagent in
-- One induction serves all the statements: either every error is allowed, or every category error is and the shape
-- excludes the others, or none can occur.
theorem eval_ends (e : Expr)
    (h : (∀ x, P x) ∨
      e.shaped = true ∧ ((∀ c, P (.category c)) ∨ e.category.isLogical = true ∧ check e = .ok ())) :
    Safe I P (eval agent e) := by
  induction e using Expr.args_induction with
  | node op args ih =>
    have htakes : P .missingArgument ∨ op.takes args = true := h.imp (· _) fun h => ((Expr.shaped_node _ _).mp h.1).1
    have hlogical : op.kind.wants = some .boolean → ∀ a ∈ args, Safe I P (eval agent a) := by
      intro hwants a ha
      refine ih a ha (h.imp_right fun ⟨hshaped, h⟩ => ⟨((Expr.shaped_node _ _).mp hshaped).2 a ha, ?_⟩)
      exact h.imp_right fun h => (check_node_iff op args).mp h.2 .boolean (by simp [hwants]) a ha
    cases op with
    | noop =>
      rw [eval]
      exact .pure trivial
    | step =>
      rw [eval]
      exact evalStep_safe args true (hlogical rfl)
    | branch =>
      simp only [Op.takes, Bool.and_eq_true, Bool.or_eq_true, decide_eq_true_eq] at htakes
      rw [eval]
      exact evalBranch_safe args (htakes.imp_right And.left) (hlogical rfl)
    | all =>
      rw [eval]
      exact evalAll_safe args (hlogical rfl)
    | any =>
      rw [eval]
      exact evalAny_safe args (hlogical rfl)
    | negation =>
      simp only [Op.takes, Bool.and_eq_true, decide_eq_true_eq] at htakes
      rw [eval]
      exact evalNot_safe args (htakes.imp_right And.left) (hlogical rfl)
    | comparison c =>
      have hvalue : ∀ a ∈ args, Safe I P (value agent a) := by
        intro a ha
        refine value_safe hagent a ?_
        rcases h with h | ⟨-, h | ⟨-, hcheck⟩⟩
        · exact .inl fun c => h _
        · exact .inl h
        · have := ((check_node_iff _ args).mp hcheck .real rfl a ha).1
          exact .inr (by simpa [Category.serves] using this)
      simp only [Op.takes, decide_eq_true_eq] at htakes
      rw [eval]
      exact .bind (valueOf_safe args 0 (htakes.imp_right (by omega)) hvalue) fun _ _ =>
        .bind (valueOf_safe args 1 (htakes.imp_right (by omega)) hvalue) fun _ _ => .pure trivial
    | setSpeed left right =>
      rw [eval]
      exact .bind (.lift (hagent.setSpeed left right) (.any _)) fun _ _ => .pure trivial
    | inState state =>
      rw [eval]
      exact .lift (hagent.inState state) (.any _)
    | pickUp =>
      rw [eval]
      exact .lift hagent.pickUp (.any _)
    | isCarrying =>
      rw [eval]
      exact .lift hagent.isCarrying (.any _)
    | literal | valueNoop | getRange | getMidpoint | getWidth =>
      rcases h with h | ⟨-, h | ⟨hlog, -⟩⟩
      · rw [eval]
        · exact .throw (h _)
        all_goals simp
      · rw [eval]
        · exact .throw (h _)
        all_goals simp
      · cases hlog

include hagent in
theorem eval_safe (e : Expr) (hshaped : e.shaped = true)
    (h : (∀ c, P (.category c)) ∨ e.category.isLogical = true ∧ check e = .ok ()) : Safe I P (eval agent e) :=
  eval_ends hagent e (.inr ⟨hshaped, h⟩)

include hagent in
/-- Whatever its shape, an expression keeps what its agent keeps. -/
theorem eval_keeps (e : Expr) : Safe I (fun _ => True) (eval agent e) := eval_ends hagent e (.inl fun _ => trivial)

end

/-- A logical expression of the right shape that passes the check runs to a truth value on every agent. -/
theorem eval_total {e : Expr} (hshaped : e.shaped = true) (hlogical : e.category.isLogical = true)
    (hcheck : check e = .ok ()) {σ : Type} (agent : Agent σ) (s : σ) :
    ∃ b s', (eval agent e).run s = (.ok b, s') := by
  obtain ⟨b, s', hrun, -, -⟩ :=
    (eval_safe agent.keeps_true e hshaped (.inr ⟨hlogical, hcheck⟩)).exists_result (s := s) trivial
  exact ⟨b, s', hrun⟩

/-- **The category check is sound.** Of what is built, a logical expression that passes the check runs to a truth value
on every agent; and a run that ends in an error ends in a category error, of an expression that is not logical or fails
the check. -/
theorem eval_sound (t : Sexp) (e : Expr) (hbuild : build t = .ok e) :
    (e.category.isLogical = true → check e = .ok () →
      ∀ (σ : Type) (agent : Agent σ) (s : σ), ∃ b s', (eval agent e).run s = (.ok b, s')) ∧
    ∀ (σ : Type) (agent : Agent σ) (s s' : σ) (x : EvalError), (eval agent e).run s = (.error x, s') →
      (∃ c, x = .category c) ∧ (e.category.isLogical = false ∨ check e ≠ .ok ()) := by
  have hshaped := (build_wellFormed hbuild).1.1
  refine ⟨fun hlogical hcheck σ agent s => eval_total hshaped hlogical hcheck agent s, ?_⟩
  intro σ agent s s' x hx
  have honly : Safe (fun _ => True) (fun x => ∃ c, x = .category c) (eval agent e) :=
    eval_safe agent.keeps_true e hshaped (.inl fun c => ⟨c, rfl⟩)
  refine ⟨(honly s _ s' trivial hx).2.1 x rfl, ?_⟩
  cases hlogical : e.category.isLogical with
  | false => exact .inl rfl
  | true =>
    refine .inr fun hcheck => ?_
    obtain ⟨b, t', hok⟩ := eval_total hshaped hlogical hcheck agent s
    rw [hok] at hx
    cases hx

/-- `(step (if (lt (getWidth) (vnoop)) (pickUp)) (inState carry))` as an S-expression. -/
def grabbing : Sexp :=
  .list [.atom "step",
    .list [.atom "if", .list [.atom "lt", .list [.atom "getWidth"], .list [.atom "vnoop"]], .list [.atom "pickUp"]],
    .list [.atom "inState", .atom "carry"]]

def grabbingExpr : Expr :=
  .node .step
    [.node .branch [.node (.comparison .lt) [.leaf .getWidth, .leaf .valueNoop], .leaf .pickUp],
      .leaf (.inState .carry)]

theorem eval_sound_grabbing :
    (build grabbing = .ok grabbingExpr ∧ ∀ (σ : Type) (agent : Agent σ) (s : σ),
      ∃ b s', (eval agent grabbingExpr).run s = (.ok b, s')) ∧
    ∀ (agent : Agent Unit), (eval agent (.node .step [.leaf .getWidth])).run () =
        (.error (.category ⟨"getWidth", .real, .boolean⟩), ()) ∧
      check (.node .step [.leaf .getWidth]) ≠ .ok () := by
  have hbuild : build grabbing = .ok grabbingExpr := rfl
  refine ⟨⟨hbuild, (eval_sound grabbing grabbingExpr hbuild).1 rfl rfl⟩, fun agent => ⟨rfl, ?_⟩⟩
  have hwidth : build (.list [.atom "step", .list [.atom "getWidth"]]) = .ok (.node .step [.leaf .getWidth]) := rfl
  exact ((eval_sound _ _ hwidth).2 Unit agent () () _ rfl).2.resolve_left (by decide)

/-! ## Sound programs -/

/-- A program that is well formed and passes the check. -/
structure Sound (e : Expr) : Prop where
  root : e.kind = .step
  wellFormed : e.WellFormed
  checked : check e = .ok ()

theorem getD_of_forall {α : Type} {P : α → Prop} {xs : List α} {default : α} (h : ∀ x ∈ xs, P x) (hdefault : P default)
    (i : Nat) : P (xs.getD i default) := by
  by_cases hi : i < xs.length
  · rw [List.getD_eq_getElem xs default hi]
    exact h _ (List.getElem_mem hi)
  · rw [List.getD_eq_default xs default (by omega)]
    exact hdefault

namespace Sound

theorem isLiteral {e : Expr} (h : Sound e) : e.isLiteral = false := Expr.isLiteral_of_root h.root

/-- A sound program runs without errors, and keeps what its agent keeps. -/
theorem safe {e : Expr} (h : Sound e) {σ : Type} {agent : Agent σ} {I : σ → Prop} (hagent : agent.Keeps I)
    (P : EvalError → Prop) : Safe I P (eval agent e) := by
  refine eval_safe hagent e h.wellFormed.1 (.inr ⟨?_, h.checked⟩)
  rw [Expr.category, h.root]
  rfl

theorem idle : Sound .idle := ⟨rfl, by decide, rfl⟩

end Sound

end Forager.Program
