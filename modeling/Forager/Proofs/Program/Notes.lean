import Forager.Proofs.Program.Soundness

/-!
# What a program gets to know

A run of a program is watched by an agent that does as it is told and writes down what it was asked about its state, and
whether it picked up a treat.

* `Paired R x y` : from states related by `R` two computations have the same result and end in related states;
* `Agent.InStep R a b` : so it is with whatever two agents sense and do; `eval_paired` : then it is so with programs
  that run on them;
* `Agent.noting a` : the agent that takes notes; `eval_noting` : taking notes changes nothing else;
* `notes a e s` : what program `e` gets to know on agent `a`.
-/

namespace Forager

set_option autoImplicit false

/-! ## Computations in pairs -/

section

variable {σ τ ε α β : Type} {R : σ → τ → Prop}

/-- From states related by `R` the two computations have the same result and end in related states. -/
def Paired (R : σ → τ → Prop) (x : StateM σ α) (y : StateM τ α) : Prop :=
  ∀ s t, R s t → (x.run s).1 = (y.run t).1 ∧ R (x.run s).2 (y.run t).2

namespace Paired

theorem pure (r : Except ε α) : Paired R (Pure.pure r : StateM σ _) (Pure.pure r : StateM τ _) :=
  fun _ _ h => ⟨rfl, h⟩

theorem lift {x : StateM σ α} {y : StateM τ α} (h : Paired R x y) :
    Paired R (x : ExceptT ε (StateM σ) α).run (y : ExceptT ε (StateM τ) α).run := by
  intro s t hst
  obtain ⟨hresult, hstate⟩ := h s t hst
  exact ⟨congrArg Except.ok hresult, hstate⟩

theorem bind {x : ExceptT ε (StateM σ) α} {y : ExceptT ε (StateM τ) α} {f : α → ExceptT ε (StateM σ) β}
    {g : α → ExceptT ε (StateM τ) β} (hx : Paired R x.run y.run) (hf : ∀ a, Paired R (f a).run (g a).run) :
    Paired R (x >>= f).run (y >>= g).run := by
  intro s t hst
  have hrun : (x.run s).1 = (y.run t).1 ∧ R (x.run s).2 (y.run t).2 := hx s t hst
  change ((x >>= f).run s).1 = ((y >>= g).run t).1 ∧ R ((x >>= f).run s).2 ((y >>= g).run t).2
  rw [run_bind_eq, run_bind_eq]
  generalize x.run s = p at hrun ⊢
  generalize y.run t = q at hrun ⊢
  obtain ⟨r, s'⟩ := p
  obtain ⟨r', t'⟩ := q
  obtain ⟨rfl, hstate⟩ : r = r' ∧ R s' t' := hrun
  cases r with
  | ok a => exact hf a s' t' hstate
  | error e => exact ⟨rfl, hstate⟩

end Paired

end

namespace Program

/-! ## Agents in pairs -/

/-- Whatever the two agents sense and do, they sense the same and stay in states related by `R`. -/
structure Agent.InStep {σ τ : Type} (R : σ → τ → Prop) (a : Agent σ) (b : Agent τ) : Prop where
  range : ∀ sensor, Paired R (a.range sensor) (b.range sensor)
  midpoint : Paired R a.midpoint b.midpoint
  width : Paired R a.width b.width
  inState : ∀ state, Paired R (a.inState state) (b.inState state)
  pickUp : Paired R a.pickUp b.pickUp
  setSpeed : ∀ left right, Paired R (a.setSpeed left right) (b.setSpeed left right)
  isCarrying : Paired R a.isCarrying b.isCarrying

section

variable {σ τ : Type} {R : σ → τ → Prop} {a : Agent σ} {b : Agent τ}

theorem evalStep_paired {args : List Expr} (h : ∀ e ∈ args, Paired R (eval a e).run (eval b e).run) (success : Bool) :
    Paired R (evalStep a success args).run (evalStep b success args).run := by
  induction args generalizing success with
  | nil => exact .pure _
  | cons e args ih =>
    rw [List.forall_mem_cons] at h
    rw [evalStep, evalStep]
    exact .bind h.1 fun ok => ih h.2 (ok && success)

theorem evalAll_paired {args : List Expr} (h : ∀ e ∈ args, Paired R (eval a e).run (eval b e).run) :
    Paired R (evalAll a args).run (evalAll b args).run := by
  induction args with
  | nil => exact .pure _
  | cons e args ih =>
    rw [List.forall_mem_cons] at h
    rw [evalAll, evalAll]
    refine .bind h.1 fun ok => ?_
    cases ok with
    | false => exact .pure _
    | true => exact ih h.2

theorem evalAny_paired {args : List Expr} (h : ∀ e ∈ args, Paired R (eval a e).run (eval b e).run) :
    Paired R (evalAny a args).run (evalAny b args).run := by
  induction args with
  | nil => exact .pure _
  | cons e args ih =>
    rw [List.forall_mem_cons] at h
    rw [evalAny, evalAny]
    refine .bind h.1 fun ok => ?_
    cases ok with
    | false => exact ih h.2
    | true => exact .pure _

theorem evalBranch_paired {args : List Expr} (h : ∀ e ∈ args, Paired R (eval a e).run (eval b e).run) :
    Paired R (evalBranch a args).run (evalBranch b args).run := by
  rcases args with - | ⟨condition, - | ⟨consequent, - | ⟨alternative, - | ⟨more, rest⟩⟩⟩⟩
  · exact .pure _
  · rw [evalBranch_one, evalBranch_one]
    refine .bind (h condition (by simp)) fun ok => ?_
    cases ok <;> exact .pure _
  · rw [evalBranch_two, evalBranch_two]
    refine .bind (h condition (by simp)) fun ok => ?_
    cases ok with
    | false => exact .pure _
    | true => exact h consequent (by simp)
  · rw [evalBranch_three, evalBranch_three]
    refine .bind (h condition (by simp)) fun ok => ?_
    cases ok with
    | false => exact h alternative (by simp)
    | true => exact h consequent (by simp)
  · rw [evalBranch_more, evalBranch_more]
    refine .bind (h condition (by simp)) fun ok => ?_
    cases ok with
    | false => exact .pure _
    | true => exact h consequent (by simp)

theorem evalNot_paired {args : List Expr} (h : ∀ e ∈ args, Paired R (eval a e).run (eval b e).run) :
    Paired R (evalNot a args).run (evalNot b args).run := by
  cases args with
  | nil => exact .pure _
  | cons e args =>
    rw [evalNot, evalNot]
    exact .bind (h e (by simp)) fun _ => .pure _

variable (h : a.InStep R b)
include h

theorem value_paired (e : Expr) : Paired R (value a e).run (value b e).run := by
  unfold value
  split
  · exact .pure _
  · exact .pure _
  · exact .lift (h.range _)
  · exact .lift h.midpoint
  · exact .lift h.width
  · exact .pure _

theorem valueOf_paired (e? : Option Expr) : Paired R (valueOf a e?).run (valueOf b e?).run := by
  cases e? with
  | none => exact .pure _
  | some e => exact value_paired h e

/-- **Programs go the same way** on agents that are in step. -/
theorem eval_paired (e : Expr) : Paired R (eval a e).run (eval b e).run := by
  induction e using Expr.args_induction with
  | node op args ih =>
    cases op with
    | step =>
      rw [eval, eval]
      exact evalStep_paired ih true
    | branch =>
      rw [eval, eval]
      exact evalBranch_paired ih
    | all =>
      rw [eval, eval]
      exact evalAll_paired ih
    | any =>
      rw [eval, eval]
      exact evalAny_paired ih
    | negation =>
      rw [eval, eval]
      exact evalNot_paired ih
    | comparison c =>
      rw [eval, eval]
      exact .bind (valueOf_paired h _) fun _ => .bind (valueOf_paired h _) fun _ => .pure _
    | setSpeed left right =>
      rw [eval, eval]
      exact .bind (.lift (h.setSpeed left right)) fun _ => .pure _
    | inState state =>
      rw [eval, eval]
      exact .lift (h.inState state)
    | pickUp =>
      rw [eval, eval]
      exact .lift h.pickUp
    | isCarrying =>
      rw [eval, eval]
      exact .lift h.isCarrying
    | noop | literal | valueNoop | getRange | getMidpoint | getWidth => exact .pure _

end

/-! ## Notes -/

/-- What a program gets to know: the answer to whether its robot is in some state, and whether a treat was picked up. -/
inductive Note where
  | asked (state : State) (answer : Bool)
  | pickUp (done : Bool)
  deriving DecidableEq, Repr

/-- The same computation, after which a note of its result is taken. -/
def noted {σ α : Type} (x : StateM σ α) (note : α → List Note) : StateM (σ × List Note) α := fun p =>
  ((x.run p.1).1, (x.run p.1).2, p.2 ++ note (x.run p.1).1)

/-- The agent that does the same and takes notes. To ask whether it carries something is to ask for that state. -/
def Agent.noting {σ : Type} (a : Agent σ) : Agent (σ × List Note) where
  range sensor := noted (a.range sensor) fun _ => []
  midpoint := noted a.midpoint fun _ => []
  width := noted a.width fun _ => []
  inState state := noted (a.inState state) fun answer => [.asked state answer]
  pickUp := noted a.pickUp fun done => [.pickUp done]
  setSpeed left right := noted (a.setSpeed left right) fun _ => []
  isCarrying := noted a.isCarrying fun answer => [.asked .carry answer]

/-- What a program gets to know on an agent. -/
def notes {σ : Type} (a : Agent σ) (e : Expr) (s : σ) : List Note := ((eval a.noting e).run (s, [])).2.2

theorem noted_paired {σ α : Type} (x : StateM σ α) (note : α → List Note) :
    Paired (fun p s => p.1 = s) (noted x note) x := by
  rintro p s rfl
  exact ⟨rfl, rfl⟩

theorem Agent.noting_inStep {σ : Type} (a : Agent σ) : a.noting.InStep (fun p s => p.1 = s) a where
  range _ := noted_paired _ _
  midpoint := noted_paired _ _
  width := noted_paired _ _
  inState _ := noted_paired _ _
  pickUp := noted_paired _ _
  setSpeed _ _ := noted_paired _ _
  isCarrying := noted_paired _ _

/-- **Taking notes changes nothing else.** -/
theorem eval_noting {σ : Type} (a : Agent σ) (e : Expr) (s : σ) (before : List Note) :
    ((eval a.noting e).run (s, before)).1 = ((eval a e).run s).1 ∧
      ((eval a.noting e).run (s, before)).2.1 = ((eval a e).run s).2 :=
  eval_paired a.noting_inStep e (s, before) s rfl

end Program

end Forager
