import Forager.Breeding.Mutation
import Forager.Proofs.Breeding.Typing
import Forager.Proofs.Chance.Draws
import Forager.Proofs.Number.Overflow

/-!
# What mutation can make of an expression

* `Mutant rate e m` : `m` comes from `e` by the changes that are possible at this rate, one rule for each of them;
* `mutate_mutant` : mutating an expression of the right shape always gives such an `m`;
* `Mutant.shaped`, `Mutant.root` : it has the right shape, and a step stays a step;
* `Mutant.keeps` : if `e` passes the check, `m` does, and may stand wherever `e` may;
* `Mutant.numbers` : its numbers are those of `e`, zeros, and numbers of `e` that were jittered;
* `Mutant.overflow` : if `e` is finite, those that are not finite are infinities.
-/

namespace Forager.Breeding

set_option autoImplicit false

open Program
open Chance (Draw)

/-- The arguments of a sequence that loses the one at place `dropped`. -/
def remaining : (dropped : Option Nat) → List Expr → List Expr
  | none, args => args
  | some k, args => args.eraseIdx k

/-- What a mutation can make of an expression. -/
inductive Mutant (rate : Float) : Expr → Expr → Prop
  | kept {op : Op} (hop : op.kind.wants = none) : Mutant rate (.leaf op) (.leaf op)
  | grown {kind : Kind} (h : kind ∈ logicalGrowth) : Mutant rate (.leaf .noop) (grow kind)
  | grownReal {kind : Kind} (h : kind ∈ realGrowth) : Mutant rate (.leaf .valueNoop) (grow kind)
  | literal {x y : Float} (hchange : Possible (happens rate).run (some true)) (hy : Possible (jitter x) y) :
    Mutant rate (.leaf (.literal x)) (.leaf (.literal y))
  | speeds {left right l r : Float} (hchange : Possible (happens rate).run (some true)) (hl : Possible (jitter left) l)
    (hr : Possible (jitter right) r) : Mutant rate (.leaf (.setSpeed left right)) (.leaf (.setSpeed l r))
  | sensor {sensor : Int} {k : Nat} (hchange : Possible (happens rate).run (some true)) (hk : k < sensorCount) :
    Mutant rate (.leaf (.getRange sensor)) (.leaf (.getRange k))
  | state {s s' : State} (hchange : Possible (happens rate).run (some true)) :
    Mutant rate (.leaf (.inState s)) (.leaf (.inState s'))
  | sequence {op : Op} {args ms : List Expr} {dropped : Option Nat} (hop : op.kind.isSequence = true)
    (hdropped : Possible (dropping rate args.length).run (some dropped))
    (hlength : ms.length = (remaining dropped args).length)
    (h : ∀ p ∈ (remaining dropped args).zip ms, Mutant rate p.1 p.2) : Mutant rate (.node op args) (.node op ms)
  | unwrapped {a m : Expr} (hchange : Possible (happens rate).run (some true)) (h : Mutant rate a m) :
    Mutant rate (.node .negation [a]) m
  | negation {a m : Expr} (h : Mutant rate a m) : Mutant rate (.node .negation [a]) (.node .negation [m])
  | comparison {c c' : Comparison} {a b m n : Expr} (hc : c' = c ∨ Possible (happens rate).run (some true))
    (ha : Mutant rate a m) (hb : Mutant rate b n) :
    Mutant rate (.node (.comparison c) [a, b]) (.node (.comparison c') [m, n])
  /-- A choice without alternative, which stays one, or gets a placeholder before or after its branch. -/
  | choice {c a l m : Expr} (hc : Mutant rate c l) (ha : Mutant rate a m) :
    Mutant rate (.node .branch [c, a]) (.node .branch [l, m])
  | choiceDeferred {c a l m : Expr} (hchange : Possible (happens rate).run (some true)) (hc : Mutant rate c l)
    (ha : Mutant rate a m) : Mutant rate (.node .branch [c, a]) (.node .branch [l, noop, m])
  | choiceExtended {c a l m : Expr} (hchange : Possible (happens rate).run (some true)) (hc : Mutant rate c l)
    (ha : Mutant rate a m) : Mutant rate (.node .branch [c, a]) (.node .branch [l, m, noop])
  /-- A choice with an alternative, which may change places with the other branch, or go. -/
  | fork {c a b l m n : Expr} (hc : Mutant rate c l) (ha : Mutant rate a m) (hb : Mutant rate b n) :
    Mutant rate (.node .branch [c, a, b]) (.node .branch [l, m, n])
  | forkSwapped {c a b l m n : Expr} (hchange : Possible (happens rate).run (some true)) (hc : Mutant rate c l)
    (ha : Mutant rate a m) (hb : Mutant rate b n) : Mutant rate (.node .branch [c, a, b]) (.node .branch [l, n, m])
  | forkPruned {c a b l m : Expr} (hchange : Possible (happens rate).run (some true)) (hc : Mutant rate c l)
    (ha : Mutant rate a m) : Mutant rate (.node .branch [c, a, b]) (.node .branch [l, m])

/-! ## Every mutation is one of these -/

section

variable {rate : Float}

theorem happens_attains (probability : Float) :
    Attains (fun b => Possible (happens probability).run (some b)) (happens probability) := by
  have htotal : Attains (fun _ => True) (happens probability) :=
    .bind (.lift (.any Chance.unit)) fun u _ => .pure trivial
  exact htotal.possible.mono fun b h => h.2

theorem dropping_attains (count : Nat) :
    Attains (fun dropped => Possible (dropping rate count).run (some dropped)) (dropping rate count) := by
  have htotal : Attains (fun _ => True) (dropping rate count) := by
    refine .bind (happens_attains rate) fun b _ => ?_
    split
    · exact .bind (.lift (.any _)) fun k _ => .pure trivial
    · exact .pure trivial
  exact htotal.possible.mono fun b h => h.2

theorem mutateAll_mutant {args : List Expr} (h : ∀ a ∈ args, Attains (Mutant rate a) (mutate rate a))
    (dropped : Option Nat) :
    Attains (fun ms => ms.length = (remaining dropped args).length ∧
      ∀ p ∈ (remaining dropped args).zip ms, Mutant rate p.1 p.2) (mutateAll rate dropped args) := by
  induction args generalizing dropped with
  | nil =>
    rw [mutateAll]
    cases dropped <;> exact .pure (by simp [remaining])
  | cons a args ih =>
    obtain ⟨ha, hargs⟩ := List.forall_mem_cons.mp h
    have hcons : ∀ d, Attains (fun ms => ms.length = (a :: remaining d args).length ∧
        ∀ p ∈ (a :: remaining d args).zip ms, Mutant rate p.1 p.2)
        (do
          let e ← mutate rate a
          let rest ← mutateAll rate d args
          return e :: rest) := by
      intro d
      refine .bind ha fun m hm => .bind (ih hargs d) fun ms hms => .pure ⟨?_, ?_⟩
      · rw [List.length_cons, List.length_cons, hms.1]
      · exact List.forall_mem_cons.mpr ⟨hm, hms.2⟩
    cases dropped with
    | none =>
      rw [mutateAll]
      exact hcons none
    | some k =>
      cases k with
      | zero =>
        rw [mutateAll]
        exact ih hargs none
      | succ k =>
        rw [mutateAll]
        exact hcons (some k)

theorem sequence_mutant {op : Op} {args : List Expr} (hop : op.kind.isSequence = true)
    (h : ∀ a ∈ args, Attains (Mutant rate a) (mutate rate a)) :
    Attains (Mutant rate (.node op args)) (do
      let dropped ← dropping rate args.length
      return .node op (← mutateAll rate dropped args)) := by
  refine .bind (dropping_attains args.length) fun dropped hdropped => ?_
  exact .bind (mutateAll_mutant h dropped) fun ms hms => .pure (.sequence hop hdropped hms.1 hms.2)

theorem mutateBranch_two (rate : Float) (c a : Expr) :
    mutateBranch rate [c, a] = do
      let c ← mutate rate c
      if ← happens rate then
        if ← happens 0.5 then return .node .branch [c, noop, ← mutate rate a]
        else return .node .branch [c, ← mutate rate a, noop]
      else return .node .branch [c, ← mutate rate a] := rfl

theorem mutateBranch_three (rate : Float) (c a b : Expr) :
    mutateBranch rate [c, a, b] = do
      let c ← mutate rate c
      if ← happens rate then
        if ← happens 0.5 then
          let b ← mutate rate b
          return .node .branch [c, b, ← mutate rate a]
        else return .node .branch [c, ← mutate rate a]
      else
        let a ← mutate rate a
        return .node .branch [c, a, ← mutate rate b] := rfl

theorem mutateBranch_mutant {args : List Expr} (hlength : args.length = 2 ∨ args.length = 3)
    (h : ∀ a ∈ args, Attains (Mutant rate a) (mutate rate a)) :
    Attains (Mutant rate (.node .branch args)) (mutateBranch rate args) := by
  rcases hlength with hlength | hlength
  · obtain ⟨c, a, rfl⟩ := List.length_eq_two.mp hlength
    have hc := h c (by simp)
    have ha := h a (by simp)
    rw [mutateBranch_two]
    refine .bind hc fun l hl => .bind (happens_attains rate) fun changes hchange => ?_
    split
    · rename_i htrue
      subst htrue
      refine .bind (happens_attains 0.5) fun first _ => ?_
      split
      · exact .bind ha fun m hm => .pure (.choiceDeferred hchange hl hm)
      · exact .bind ha fun m hm => .pure (.choiceExtended hchange hl hm)
    · exact .bind ha fun m hm => .pure (.choice hl hm)
  · obtain ⟨c, a, b, rfl⟩ := List.length_eq_three.mp hlength
    have hc := h c (by simp)
    have ha := h a (by simp)
    have hb := h b (by simp)
    rw [mutateBranch_three]
    refine .bind hc fun l hl => .bind (happens_attains rate) fun changes hchange => ?_
    split
    · rename_i htrue
      subst htrue
      refine .bind (happens_attains 0.5) fun first _ => ?_
      split
      · exact .bind hb fun n hn => .bind ha fun m hm => .pure (.forkSwapped hchange hl hm hn)
      · exact .bind ha fun m hm => .pure (.forkPruned hchange hl hm)
    · exact .bind ha fun m hm => .bind hb fun n hn => .pure (.fork hl hm hn)

/-- A change of the operation alone, at a node without arguments. -/
theorem leaf_mutant {op : Op} (hop : op.kind.wants = none) {d : Mutating Expr}
    (hd : Possible (happens rate).run (some true) → Attains (Mutant rate (.leaf op)) d) :
    Attains (Mutant rate (.leaf op)) (do if ← happens rate then d else return .leaf op) := by
  refine .bind (happens_attains rate) fun changes hchange => ?_
  cases changes with
  | true => exact hd hchange
  | false => exact .pure (.kept hop)

theorem negation_mutant {a : Expr} (h : Attains (Mutant rate a) (mutate rate a)) :
    Attains (Mutant rate (.node .negation [a])) (mutate rate (.node .negation [a])) := by
  rw [mutate, mutateFirst]
  refine .bind (happens_attains rate) fun unwraps hchange => ?_
  cases unwraps with
  | true => exact h.mono fun m hm => .unwrapped hchange hm
  | false => exact .bind h fun m hm => .pure (.negation hm)

theorem comparison_mutant (c : Comparison) {a b : Expr} (ha : Attains (Mutant rate a) (mutate rate a))
    (hb : Attains (Mutant rate b) (mutate rate b)) :
    Attains (Mutant rate (.node (.comparison c) [a, b])) (mutate rate (.node (.comparison c) [a, b])) := by
  have htwo : ∀ c', (c' = c ∨ Possible (happens rate).run (some true)) →
      Attains (Mutant rate (.node (.comparison c) [a, b]))
        (do return .node (.comparison c') (← mutateTwo rate [a, b])) := by
    intro c' hc
    rw [mutateTwo]
    refine .bind (P := fun ms => ∃ m n, ms = [m, n] ∧ Mutant rate a m ∧ Mutant rate b n) ?_ ?_
    · exact .bind ha fun m hm => .bind hb fun n hn => .pure ⟨m, n, rfl, hm, hn⟩
    · rintro ms ⟨m, n, rfl, hm, hn⟩
      exact .pure (.comparison hc hm hn)
  rw [mutate]
  refine .bind (happens_attains rate) fun changes hchange => ?_
  cases changes with
  | true => exact .bind (.lift (.any _)) fun c' _ => htwo c' (.inr hchange)
  | false => exact .bind (P := (· = c)) (.pure rfl) fun c' hc' => htwo c' (.inl hc')

/-- **Every mutation** of an expression of the right shape has a result, which is a mutant of the expression. -/
theorem mutate_mutant (rate : Float) {e : Expr} (hshaped : e.shaped = true) :
    Attains (Mutant rate e) (mutate rate e) := by
  induction e using Expr.args_induction with
  | node op args ih =>
    obtain ⟨htakes, hargs⟩ := (Expr.shaped_node op args).mp hshaped
    have hmutants : ∀ a ∈ args, Attains (Mutant rate a) (mutate rate a) := fun a ha => ih a ha (hargs a ha)
    cases op with
    | noop =>
      cases List.isEmpty_iff.mp htakes
      rw [mutate]
      refine .bind (happens_attains 0.5) fun grows _ => ?_
      split
      · exact .bind (.lift (Chance.choose_mem _ (by decide))) fun kind hkind => .pure (.grown hkind)
      · exact .pure (.kept rfl)
    | valueNoop =>
      cases List.isEmpty_iff.mp htakes
      rw [mutate]
      refine .bind (happens_attains 0.5) fun grows _ => ?_
      split
      · exact .bind (.lift (Chance.choose_mem _ (by decide))) fun kind hkind => .pure (.grownReal hkind)
      · exact .pure (.kept rfl)
    | literal x =>
      cases List.isEmpty_iff.mp htakes
      rw [mutate]
      refine leaf_mutant rfl fun hchange => ?_
      exact .bind (.lift (gives_possible _)) fun y hy => .pure (.literal hchange hy)
    | setSpeed left right =>
      cases List.isEmpty_iff.mp htakes
      rw [mutate]
      refine leaf_mutant rfl fun hchange => .bind (.lift (gives_possible _)) fun l hl => ?_
      exact .bind (.lift (gives_possible _)) fun r hr => .pure (.speeds hchange hl hr)
    | getRange sensor =>
      simp only [Op.takes, Bool.and_eq_true, List.isEmpty_iff] at htakes
      cases htakes.2
      rw [mutate]
      refine leaf_mutant rfl fun hchange => ?_
      exact .bind (.lift (Chance.below_lt (by decide))) fun k hk => .pure (.sensor hchange hk)
    | inState s =>
      cases List.isEmpty_iff.mp htakes
      rw [mutate]
      exact leaf_mutant rfl fun hchange => .bind (.lift (.any _)) fun s' _ => .pure (.state hchange)
    | step | all | any =>
      rw [mutate]
      exact sequence_mutant rfl hmutants
    | branch =>
      rw [mutate]
      simp only [Op.takes, Bool.and_eq_true, Bool.or_eq_true, decide_eq_true_eq] at htakes
      exact mutateBranch_mutant htakes.1 hmutants
    | negation =>
      simp only [Op.takes, Bool.and_eq_true, decide_eq_true_eq] at htakes
      obtain ⟨a, rfl⟩ := List.length_eq_one_iff.mp htakes.1
      exact negation_mutant (hmutants a (by simp))
    | comparison c =>
      simp only [Op.takes, decide_eq_true_eq] at htakes
      obtain ⟨a, b, rfl⟩ := List.length_eq_two.mp htakes
      exact comparison_mutant c (hmutants a (by simp)) (hmutants b (by simp))
    | getMidpoint | getWidth | pickUp | isCarrying =>
      cases List.isEmpty_iff.mp htakes
      exact .pure (.kept rfl)

/-! ## Shapes -/

/-- Whether `m` may stand wherever `e` may. -/
structure Keeps (e m : Expr) : Prop where
  shaped : m.shaped = true
  checked : check m = .ok ()
  real : decide (m.category = .real) = decide (e.category = .real)
  literal : m.isLiteral = e.isLiteral
  root : e.kind = .step → m.kind = .step

/-- What grows from a placeholder may stand in its place. -/
theorem grow_keeps_noop {kind : Kind} (h : kind ∈ logicalGrowth) : Keeps noop (grow kind) := by
  simp only [logicalGrowth, Comparison.all, List.map_cons, List.map_nil, List.cons_append, List.nil_append,
    List.mem_cons, List.not_mem_nil, or_false] at h
  rcases h with rfl | rfl | rfl | rfl | rfl | rfl | rfl | rfl | rfl | rfl | rfl | rfl
  all_goals exact ⟨rfl, rfl, rfl, rfl, fun h => by cases h⟩

theorem grow_keeps_valueNoop {kind : Kind} (h : kind ∈ realGrowth) : Keeps (.leaf .valueNoop) (grow kind) := by
  simp only [realGrowth, List.mem_cons, List.not_mem_nil, or_false] at h
  rcases h with rfl | rfl | rfl
  all_goals exact ⟨rfl, rfl, rfl, rfl, fun h => by cases h⟩

theorem exists_mem_zip {args ms : List Expr} (hlength : ms.length = args.length) {m : Expr} (hm : m ∈ ms) :
    ∃ a ∈ args, (a, m) ∈ args.zip ms := by
  obtain ⟨i, hi, rfl⟩ := List.getElem_of_mem hm
  refine ⟨args[i], List.getElem_mem _, ?_⟩
  rw [← List.getElem_zip (h := by simp; omega)]
  exact List.getElem_mem _

theorem mem_remaining {dropped : Option Nat} {args : List Expr} {a : Expr} (h : a ∈ remaining dropped args) :
    a ∈ args := by
  cases dropped with
  | none => exact h
  | some k => exact List.mem_of_mem_eraseIdx h

/-- A logical operation on placeholders and mutants of its arguments has the right shape, if there are as many as it
takes. -/
theorem logical_shaped {op : Op} {args ms : List Expr} (hop : op.kind.wants = some .boolean)
    (hshaped : (Expr.node op args).shaped = true) (hbranch : op = .branch → ms.length = 2 ∨ ms.length = 3)
    (hnegation : op = .negation → ms.length = 1)
    (hms : ∀ m ∈ ms, m = noop ∨ ∃ a ∈ args, a.shaped = true → m.shaped = true ∧ m.isLiteral = a.isLiteral) :
    (Expr.node op ms).shaped = true ∧ (Expr.node op ms).isLiteral = (Expr.node op args).isLiteral := by
  obtain ⟨htakes, hargs⟩ := (Expr.shaped_node op args).mp hshaped
  have hnone : ∀ a ∈ args, a.isLiteral = false := by
    have hall : args.all (!·.isLiteral) = true := by
      cases op with
      | step | all | any => exact htakes
      | branch | negation =>
        simp only [Op.takes, Bool.and_eq_true] at htakes
        exact htakes.2
      | _ => cases hop
    intro a ha
    simpa using List.all_eq_true.mp hall a ha
  have hfit : ∀ m ∈ ms, m.shaped = true ∧ m.isLiteral = false := by
    intro m hm
    rcases hms m hm with rfl | ⟨a, ha, hmutant⟩
    · exact ⟨rfl, rfl⟩
    · obtain ⟨hshape, hlit⟩ := hmutant (hargs a ha)
      exact ⟨hshape, hlit.trans (hnone a ha)⟩
  have hall : ms.all (!·.isLiteral) = true := by
    rw [List.all_eq_true]
    intro m hm
    rw [(hfit m hm).2]
    rfl
  refine ⟨(Expr.shaped_node op ms).mpr ⟨?_, fun m hm => (hfit m hm).1⟩, rfl⟩
  cases op with
  | step | all | any => exact hall
  | branch => simpa [Op.takes, hall] using hbranch rfl
  | negation => simpa [Op.takes, hall] using hnegation rfl
  | _ => cases hop

/-- **Mutants keep the right shape**, and where no number may stand none comes to stand. -/
theorem Mutant.shaped {e m : Expr} (h : Mutant rate e m) (hshaped : e.shaped = true) :
    m.shaped = true ∧ m.isLiteral = e.isLiteral := by
  induction h with
  | kept hop => exact ⟨hshaped, rfl⟩
  | grown hkind => exact ⟨(grow_keeps_noop hkind).shaped, (grow_keeps_noop hkind).literal⟩
  | grownReal hkind => exact ⟨(grow_keeps_valueNoop hkind).shaped, (grow_keeps_valueNoop hkind).literal⟩
  | literal hchange hy => exact ⟨rfl, rfl⟩
  | speeds hchange hl hr => exact ⟨rfl, rfl⟩
  | sensor hchange hk =>
    refine ⟨(Expr.shaped_node _ _).mpr ⟨?_, by simp⟩, rfl⟩
    simp only [Op.takes, List.isEmpty_nil, Bool.and_true, Bool.and_eq_true, decide_eq_true_eq]
    omega
  | state hchange => exact ⟨rfl, rfl⟩
  | @sequence op args ms dropped hop hdropped hlength hms ih =>
    have hlogical : op.kind.wants = some .boolean ∧ op ≠ .branch ∧ op ≠ .negation := by
      cases op with
      | step | all | any => exact ⟨rfl, fun h => (by cases h), fun h => by cases h⟩
      | _ => cases hop
    refine logical_shaped hlogical.1 hshaped (absurd · hlogical.2.1) (absurd · hlogical.2.2) fun m hm => .inr ?_
    obtain ⟨a, ha, hmem⟩ := exists_mem_zip hlength hm
    exact ⟨a, mem_remaining ha, ih _ hmem⟩
  | unwrapped hchange hm ih =>
    -- The argument takes the place of the negation, and neither is a number.
    obtain ⟨htakes, hargs⟩ := (Expr.shaped_node _ _).mp hshaped
    simp only [Op.takes, List.all_cons, List.all_nil, Bool.and_true, Bool.and_eq_true, Bool.not_eq_true'] at htakes
    obtain ⟨hshape, hlit⟩ := ih (hargs _ (by simp))
    exact ⟨hshape, hlit.trans htakes.2⟩
  | negation hm ih =>
    refine logical_shaped rfl hshaped (fun h => by cases h) (fun _ => rfl) ?_
    simpa using .inr ih
  | comparison hc hm hn ihm ihn =>
    obtain ⟨-, hargs⟩ := (Expr.shaped_node _ _).mp hshaped
    refine ⟨(Expr.shaped_node _ _).mpr ⟨rfl, ?_⟩, rfl⟩
    simpa using ⟨(ihm (hargs _ (by simp))).1, (ihn (hargs _ (by simp))).1⟩
  | choice hc ha ihc iha =>
    refine logical_shaped rfl hshaped (fun _ => .inl rfl) (fun h => by cases h) ?_
    simpa using ⟨.inr (.inl ihc), .inr (.inr iha)⟩
  | choiceDeferred hchange hc ha ihc iha =>
    refine logical_shaped rfl hshaped (fun _ => .inr rfl) (fun h => by cases h) ?_
    simpa using ⟨.inr (.inl ihc), .inr (.inr iha)⟩
  | choiceExtended hchange hc ha ihc iha =>
    refine logical_shaped rfl hshaped (fun _ => .inr rfl) (fun h => by cases h) ?_
    simpa using ⟨.inr (.inl ihc), .inr (.inr iha)⟩
  | fork hc ha hb ihc iha ihb =>
    refine logical_shaped rfl hshaped (fun _ => .inr rfl) (fun h => by cases h) ?_
    simpa using ⟨.inr (.inl ihc), .inr (.inr (.inl iha)), .inr (.inr (.inr ihb))⟩
  | forkSwapped hchange hc ha hb ihc iha ihb =>
    refine logical_shaped rfl hshaped (fun _ => .inr rfl) (fun h => by cases h) ?_
    simpa using ⟨.inr (.inl ihc), .inr (.inr (.inr ihb)), .inr (.inr (.inl iha))⟩
  | forkPruned hchange hc ha ihc iha =>
    refine logical_shaped rfl hshaped (fun _ => .inl rfl) (fun h => by cases h) ?_
    simpa using ⟨.inr (.inl ihc), .inr (.inr (.inl iha))⟩

theorem Mutant.root {e m : Expr} (h : Mutant rate e m) (hroot : e.kind = .step) : m.kind = .step := by
  cases h with
  | kept hop => exact hroot
  | sequence hop hdropped hlength hms => exact hroot
  | _ => cases hroot

/-! ## Types -/

/-- An operation on mutants of arguments passes the check if one that wants the same passes it on the arguments.
Placeholders may stand between them where something logical is wanted. -/
theorem check_mutants {op op' : Op} {args ms : List Expr} (hwants : op'.kind.wants = op.kind.wants)
    (hcheck : check (.node op args) = .ok ())
    (hms : ∀ m ∈ ms, m = noop ∧ op.kind.wants = some .boolean ∨
      ∃ a ∈ args, check a = .ok () → check m = .ok () ∧ (m.category = .real ↔ a.category = .real)) :
    check (.node op' ms) = .ok () := by
  rw [check_node_iff] at hcheck ⊢
  intro wanted hwanted m hm
  rw [hwants] at hwanted
  rcases hms m hm with ⟨rfl, hlogical⟩ | ⟨a, ha, hmutant⟩
  · rw [hlogical] at hwanted
    cases hwanted
    exact ⟨rfl, rfl⟩
  · obtain ⟨hserves, hchecked⟩ := hcheck wanted hwanted a ha
    obtain ⟨hm, hreal⟩ := hmutant hchecked
    rw [serves_iff (wants_ne_effect hwanted)] at hserves ⊢
    exact ⟨(decide_eq_decide.mpr hreal).trans hserves, hm⟩

/-- **Mutants keep their types.** A mutant of what passes the check passes it, and gives a real if the other did. -/
theorem Mutant.checked {e m : Expr} (h : Mutant rate e m) (hcheck : check e = .ok ()) :
    check m = .ok () ∧ (m.category = .real ↔ e.category = .real) := by
  induction h with
  | kept hop => exact ⟨hcheck, .rfl⟩
  | grown hkind => exact ⟨(grow_keeps_noop hkind).checked, decide_eq_decide.mp (grow_keeps_noop hkind).real⟩
  | grownReal hkind =>
    exact ⟨(grow_keeps_valueNoop hkind).checked, decide_eq_decide.mp (grow_keeps_valueNoop hkind).real⟩
  | literal | speeds | sensor | state => exact ⟨check_leaf _, .rfl⟩
  | sequence hop hdropped hlength hms ih =>
    refine ⟨check_mutants rfl hcheck fun m hm => .inr ?_, .rfl⟩
    obtain ⟨a, ha, hmem⟩ := exists_mem_zip hlength hm
    exact ⟨a, mem_remaining ha, ih _ hmem⟩
  | unwrapped hchange hm ih =>
    -- The argument takes the place of the negation: both are logical.
    obtain ⟨hserves, hchecked⟩ := (check_node_iff _ _).mp hcheck .boolean rfl _ List.mem_cons_self
    obtain ⟨hm, hreal⟩ := ih hchecked
    rw [serves_iff (by decide), decide_eq_decide] at hserves
    exact ⟨hm, hreal.trans hserves⟩
  | negation hm ih => exact ⟨check_mutants rfl hcheck (by simpa using .inr ih), .rfl⟩
  | comparison hc hm hn ihm ihn =>
    exact ⟨check_mutants rfl hcheck (by simpa using ⟨.inr (.inl ihm), .inr (.inr ihn)⟩), .rfl⟩
  | choice hc ha ihc iha => exact ⟨check_mutants rfl hcheck (by simpa using ⟨.inr (.inl ihc), .inr (.inr iha)⟩), .rfl⟩
  | choiceDeferred hchange hc ha ihc iha =>
    refine ⟨check_mutants rfl hcheck ?_, .rfl⟩
    simpa using ⟨.inr (.inl ihc), .inl rfl, .inr (.inr iha)⟩
  | choiceExtended hchange hc ha ihc iha =>
    refine ⟨check_mutants rfl hcheck ?_, .rfl⟩
    simpa using ⟨.inr (.inl ihc), .inr (.inr iha), .inl rfl⟩
  | fork hc ha hb ihc iha ihb =>
    refine ⟨check_mutants rfl hcheck ?_, .rfl⟩
    simpa using ⟨.inr (.inl ihc), .inr (.inr (.inl iha)), .inr (.inr (.inr ihb))⟩
  | forkSwapped hchange hc ha hb ihc iha ihb =>
    refine ⟨check_mutants rfl hcheck ?_, .rfl⟩
    simpa using ⟨.inr (.inl ihc), .inr (.inr (.inr ihb)), .inr (.inr (.inl iha))⟩
  | forkPruned hchange hc ha ihc iha =>
    refine ⟨check_mutants rfl hcheck ?_, .rfl⟩
    simpa using ⟨.inr (.inl ihc), .inr (.inr (.inl iha))⟩

theorem Mutant.keeps {e m : Expr} (h : Mutant rate e m) (hshaped : e.shaped = true) (hcheck : check e = .ok ()) :
    Keeps e m where
  shaped := (h.shaped hshaped).1
  checked := (h.checked hcheck).1
  real := decide_eq_decide.mpr (h.checked hcheck).2
  literal := (h.shaped hshaped).2
  root := h.root

/-! ## Numbers -/

/-- Where the numbers of a mutant come from: they were there, are zeros of what has grown, or were jittered. -/
def Derived (e : Expr) (y : Float) : Prop := y ∈ e.numbers ∨ y = 0 ∨ ∃ x ∈ e.numbers, Possible (jitter x) y

theorem Derived.of_mem {op : Op} {args : List Expr} {a : Expr} {y : Float} (h : Derived a y) (ha : a ∈ args) :
    Derived (.node op args) y := by
  have hsub : ∀ x ∈ a.numbers, x ∈ (Expr.node op args).numbers := fun x hx => Expr.mem_numbers.mpr (.inr ⟨a, ha, hx⟩)
  rcases h with h | h | ⟨x, hx, hy⟩
  · exact .inl (hsub y h)
  · exact .inr (.inl h)
  · exact .inr (.inr ⟨x, hsub x hx, hy⟩)

/-- The numbers of a node whose arguments are placeholders and mutants of arguments. -/
theorem derived_node {op op' : Op} {args ms : List Expr} (hop : op'.numbers = [])
    (hms : ∀ m ∈ ms, m = noop ∨ ∃ a ∈ args, ∀ y ∈ m.numbers, Derived a y) :
    ∀ y ∈ (Expr.node op' ms).numbers, Derived (.node op args) y := by
  intro y hy
  rcases Expr.mem_numbers.mp hy with h | ⟨m, hm, hy⟩
  · rw [hop] at h
    cases h
  · rcases hms m hm with rfl | ⟨a, ha, hderived⟩
    · cases hy
    · exact (hderived y hy).of_mem ha

theorem numbers_grow {kind : Kind} (h : kind ∈ logicalGrowth ∨ kind ∈ realGrowth) :
    ∀ y ∈ (grow kind).numbers, y = 0 := by
  have hall : ∀ kind ∈ logicalGrowth ++ realGrowth, (grow kind).numbers = [] ∨ (grow kind).numbers = [0] ∨
      (grow kind).numbers = [0, 0] := by
    simp only [logicalGrowth, realGrowth, Comparison.all, List.map_cons, List.map_nil, List.cons_append,
      List.nil_append, List.forall_mem_cons]
    refine ⟨.inl rfl, .inl rfl, .inl rfl, .inl rfl, .inr (.inl rfl), .inr (.inl rfl), .inr (.inl rfl), .inr (.inl rfl),
      .inr (.inl rfl), .inr (.inr rfl), .inl rfl, .inl rfl, .inl rfl, .inl rfl, .inl rfl, by simp⟩
  intro y hy
  rcases hall kind (List.mem_append.mpr h) with h | h | h
  · simp [h] at hy
  · simpa [h] using hy
  · simpa [h] using hy

/-- **The numbers of a mutant** come from the numbers of the expression. -/
theorem Mutant.numbers {e m : Expr} (h : Mutant rate e m) : ∀ y ∈ m.numbers, Derived e y := by
  induction h with
  | kept hop => exact fun y hy => .inl hy
  | grown hkind => exact fun y hy => .inr (.inl (numbers_grow (.inl hkind) y hy))
  | grownReal hkind => exact fun y hy => .inr (.inl (numbers_grow (.inr hkind) y hy))
  | @literal x z hchange hz =>
    intro y hy
    obtain rfl : y = z := by simpa [Expr.mem_numbers, Expr.leaf, Op.numbers] using hy
    exact .inr (.inr ⟨x, by simp [Expr.mem_numbers, Expr.leaf, Op.numbers], hz⟩)
  | @speeds left right l r hchange hl hr =>
    intro y hy
    have hmem : ∀ x, x = left ∨ x = right → x ∈ (Expr.leaf (.setSpeed left right)).numbers := by
      simp [Expr.mem_numbers, Expr.leaf, Op.numbers]
    have hcases : y = l ∨ y = r := by simpa [Expr.mem_numbers, Expr.leaf, Op.numbers] using hy
    rcases hcases with rfl | rfl
    · exact .inr (.inr ⟨left, hmem left (.inl rfl), hl⟩)
    · exact .inr (.inr ⟨right, hmem right (.inr rfl), hr⟩)
  | sensor hchange hk => exact fun y hy => by cases hy
  | state hchange => exact fun y hy => by cases hy
  | @sequence op args ms dropped hop hdropped hlength hms ih =>
    refine derived_node ?_ fun m hm => .inr ?_
    · cases op with
      | step | all | any => rfl
      | _ => cases hop
    · obtain ⟨a, ha, hmem⟩ := exists_mem_zip hlength hm
      exact ⟨a, mem_remaining ha, ih _ hmem⟩
  | unwrapped hchange hm ih => exact fun y hy => (ih y hy).of_mem (by simp)
  | negation hm ih => exact derived_node rfl (by simpa using .inr ih)
  | comparison hc hm hn ihm ihn => exact derived_node rfl (by simpa using ⟨.inr (.inl ihm), .inr (.inr ihn)⟩)
  | choice hc ha ihc iha | choiceDeferred hchange hc ha ihc iha | choiceExtended hchange hc ha ihc iha =>
    exact derived_node rfl (by simpa using ⟨.inr (.inl ihc), .inr (.inr iha)⟩)
  | fork hc ha hb ihc iha ihb =>
    exact derived_node rfl (by simpa using ⟨.inr (.inl ihc), .inr (.inr (.inl iha)), .inr (.inr (.inr ihb))⟩)
  | forkSwapped hchange hc ha hb ihc iha ihb =>
    exact derived_node rfl (by simpa using ⟨.inr (.inl ihc), .inr (.inr (.inr ihb)), .inr (.inr (.inl iha))⟩)
  | forkPruned hchange hc ha ihc iha =>
    exact derived_node rfl (by simpa using ⟨.inr (.inl ihc), .inr (.inr (.inl iha))⟩)

/-! ## Overflow -/

theorem isNaN_unit : Gives (fun u => u.isNaN = false) Chance.unit := by
  have hwithin : ∀ fuel, Gives (fun u => u.isNaN = false) (Chance.unitWithin fuel) := by
    intro fuel
    induction fuel with
    | zero => exact .pure (by decide +kernel)
    | succ fuel ih =>
      refine .bind (.any Chance.bits) fun x _ => ?_
      dsimp only
      split
      · exact ih
      · exact .pure (Number.isNaN_div (Number.isNaN_toFloat x) (by decide +kernel) (by decide +kernel))
  exact hwithin Chance.patience

/-- Jittering a finite number gives a number, which may be too large. -/
theorem isNaN_jitter {x : Float} (hx : Number.isFinite x = true) : Gives (fun y => y.isNaN = false) (jitter x) := by
  refine .bind isNaN_unit fun u hu => ?_
  by_cases hzero : (x == 0) = true
  · rw [if_pos hzero]
    have hproduct := Number.isNaN_mul_right hu (y := 0.2) (by decide +kernel) (by decide +kernel)
    exact .pure (Number.isNaN_sub hproduct (by decide +kernel))
  · rw [if_neg hzero]
    have hsum := Number.isNaN_add (x := 0.5) (by decide +kernel) hu
    exact .pure (Number.isNaN_mul hx (by simpa using hzero) hsum)

/-- **Overflow.** A number of a mutant that is not finite is an infinity, and comes from jittering a finite number. -/
theorem Mutant.overflow {e m : Expr} (h : Mutant rate e m) (hfinite : e.finite = true) {y : Float} (hy : y ∈ m.numbers)
    (hinfinite : Number.isFinite y = false) :
    (∃ negative, Number.shape y = .infinite negative) ∧ ∃ x ∈ e.numbers, Possible (jitter x) y := by
  rw [Expr.finite_iff] at hfinite
  rcases h.numbers y hy with hold | rfl | ⟨x, hx, hjitter⟩
  · rw [hfinite y hold] at hinfinite
    cases hinfinite
  · cases hinfinite.symm.trans (by decide +kernel : Number.isFinite 0 = true)
  · obtain ⟨s, rfl⟩ := hjitter
    exact ⟨Number.exists_infinite (isNaN_jitter (hfinite x hx) s) hinfinite, x, hx, s, rfl⟩

end

end Forager.Breeding
