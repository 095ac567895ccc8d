import Forager.Proofs.Breeding.Mutants
import Forager.Proofs.Chance.Fractions

/-!
# How much a mutation adds

* `never_happens`, `always_happens` : at the ends of its range the rate leaves nothing to chance;
* `Sprouted e m` : `m` is `e` with some of its placeholders grown, and nothing else changed; `dormant_sprouts` : at rate
  zero this is all that mutation does;
* `Mutant.size_le`, `Mutant.depth_le` : a mutant has at most three times the nodes, and is at most one level deeper;
  `mutation_bounded` : so is whatever mutation gives.
-/

namespace Forager.Breeding

set_option autoImplicit false

open Program

/-! ## The ends of the range of rates -/

theorem never_happens {rate : Float} (hrate : ¬ 0 < rate) : ¬ Possible (happens rate).run (some true) := by
  rintro ⟨s, hs⟩
  change some (decide ((Chance.unit.run s).1 < rate)) = some true at hs
  obtain ⟨hlow, -⟩ := Chance.unit_range s
  have hlt : (Chance.unit.run s).1 < rate := of_decide_eq_true (Option.some.inj hs)
  obtain ⟨hu, hr⟩ := Number.number_of_lt hlt
  exact hrate (Number.Order.lt_of_le_of_lt (by decide +kernel) hu hr hlow hlt)

theorem always_happens : Yields (· = true) (happens 1) := by
  refine .bind (.lift Chance.unit_range) fun u hu => .pure ?_
  exact decide_eq_true hu.2

/-- A sequence loses nothing where nothing happens. -/
theorem eq_none_of_dropping {rate : Float} {count : Nat} {dropped : Option Nat}
    (hnever : ¬ Possible (happens rate).run (some true)) (h : Possible (dropping rate count).run (some dropped)) :
    dropped = none := by
  have hnone : Attains (· = none) (dropping rate count) := by
    refine .bind (happens_attains rate) fun b hb => ?_
    cases b with
    | true => exact absurd hb hnever
    | false => exact .pure rfl
  obtain ⟨s, hs⟩ := h
  obtain ⟨d, s', hrun, rfl⟩ := hnone s
  exact Option.some.inj (hs.symm.trans (congrArg Prod.fst hrun))

/-! ## Placeholders -/

/-- `m` is `e` with some of its placeholders grown: at all other nodes the operation, with what it mentions, and the
number of arguments are the same. -/
inductive Sprouted : Expr → Expr → Prop
  | logical {kind : Kind} (h : kind ∈ logicalGrowth) : Sprouted (.leaf .noop) (grow kind)
  | real {kind : Kind} (h : kind ∈ realGrowth) : Sprouted (.leaf .valueNoop) (grow kind)
  | node {op : Op} {args ms : List Expr} (hlength : ms.length = args.length)
    (h : ∀ p ∈ args.zip ms, Sprouted p.1 p.2) : Sprouted (.node op args) (.node op ms)

/-- Where nothing happens, mutants are what grows from placeholders. -/
theorem Mutant.sprouted {rate : Float} (hnever : ¬ Possible (happens rate).run (some true)) {e m : Expr}
    (h : Mutant rate e m) : Sprouted e m := by
  induction h with
  | kept hop => exact .node rfl (by simp)
  | grown hkind => exact .logical hkind
  | grownReal hkind => exact .real hkind
  | literal hchange | speeds hchange | sensor hchange | state hchange | unwrapped hchange =>
    exact absurd hchange hnever
  | choiceDeferred hchange | choiceExtended hchange | forkSwapped hchange | forkPruned hchange =>
    exact absurd hchange hnever
  | sequence hop hdropped hlength hms ih =>
    cases eq_none_of_dropping hnever hdropped
    exact .node hlength ih
  | negation hm ih => exact .node rfl (by simpa using ih)
  | comparison hc hm hn ihm ihn =>
    cases hc.resolve_right hnever
    exact .node rfl (by simpa using ⟨ihm, ihn⟩)
  | choice hc ha ihc iha => exact .node rfl (by simpa using ⟨ihc, iha⟩)
  | fork hc ha hb ihc iha ihb => exact .node rfl (by simpa using ⟨ihc, iha, ihb⟩)

theorem mem_ops {op op' : Op} {args : List Expr} :
    op' ∈ (Expr.node op args).ops ↔ op' = op ∨ ∃ a ∈ args, op' ∈ a.ops := by
  have hall : ∀ as : List Expr, op' ∈ Expr.opsAll as ↔ ∃ a ∈ as, op' ∈ a.ops := by
    intro as
    induction as with
    | nil => simp [Expr.opsAll]
    | cons a as ih => rw [Expr.opsAll, List.mem_append, ih, List.exists_mem_cons_iff]
  rw [Expr.ops, List.mem_cons, hall]

/-- An expression without placeholders has no other sprout than itself. -/
theorem Sprouted.eq {e m : Expr} (h : Sprouted e m) (hnone : ∀ op ∈ e.ops, op.kind ≠ .noop ∧ op.kind ≠ .valueNoop) :
    m = e := by
  induction h with
  | logical hkind => exact absurd rfl (hnone .noop (mem_ops.mpr (.inl rfl))).1
  | real hkind => exact absurd rfl (hnone .valueNoop (mem_ops.mpr (.inl rfl))).2
  | @node op args ms hlength _ ih =>
    congr 1
    refine List.ext_getElem hlength fun i hm ha => ?_
    have hzip : (args[i], ms[i]) ∈ args.zip ms := by
      rw [← List.getElem_zip (h := by simp; omega)]
      exact List.getElem_mem _
    exact ih _ hzip fun op' hop' => hnone op' (mem_ops.mpr (.inr ⟨_, List.getElem_mem ha, hop'⟩))

/-- **Where nothing happens only placeholders grow.** At a rate of zero every mutation of a well-formed expression has a
result, which is the expression with some of its placeholders replaced: each of those by one of the expressions that
may grow in its place. So an expression without placeholders stays as it is. -/
theorem dormant_sprouts (rate : Float) (hrate : rate ≤ 0) (e : Expr) (he : e.WellFormed) :
    Attains (Sprouted e) (mutate rate e) ∧
    ((∀ op ∈ e.ops, op.kind ≠ .noop ∧ op.kind ≠ .valueNoop) → Attains (· = e) (mutate rate e)) := by
  have hnever := never_happens fun h => Number.Order.not_le_of_lt h hrate
  have hsprouts : Attains (Sprouted e) (mutate rate e) :=
    (mutate_mutant rate he.1).mono fun m hm => hm.sprouted hnever
  exact ⟨hsprouts, fun hnone => hsprouts.mono fun m hm => hm.eq hnone⟩

/-- A program with a placeholder of either sort. -/
def fallow : Expr :=
  .node .step [noop, .node .branch [.node (.comparison .lt) [.leaf .valueNoop, .leaf (.literal 0.5)], .leaf .pickUp]]

/-- Nothing happens at a rate of zero, but one placeholder grows and the other does not; where there is none, all
draws come to the same. -/
theorem dormant_sprouts_fallow :
    (fallow.WellFormed ∧ ∃ m s', (mutate 0 fallow).run (.script #[0, 0, 0x300000000, 0, 0x4000000000000000] 0) =
      (some m, s') ∧ Sprouted fallow m ∧ m.print = "(step (not (noop)) (if (lt (vnoop) 0.5) (pickUp)))") ∧
    racing.WellFormed ∧ (∀ op ∈ racing.ops, op.kind ≠ .noop ∧ op.kind ≠ .valueNoop) ∧
      Attains (· = racing) (mutate 0 racing) := by
  have hzero : (0 : Float) ≤ 0 := by decide +kernel
  have hfallow : fallow.WellFormed := by decide +kernel
  have hracing : racing.WellFormed := by decide +kernel
  have hnone : ∀ op ∈ racing.ops, op.kind ≠ .noop ∧ op.kind ≠ .valueNoop := by
    simp only [racing, Expr.leaf, Expr.ops, Expr.opsAll, List.cons_append, List.nil_append, List.forall_mem_cons]
    decide
  obtain ⟨m, s', hrun, hm⟩ := (dormant_sprouts 0 hzero fallow hfallow).1
    (.script #[0, 0, 0x300000000, 0, 0x4000000000000000] 0)
  have hprint : ((mutate 0 fallow).run (.script #[0, 0, 0x300000000, 0, 0x4000000000000000] 0)).1.map Expr.print =
      some "(step (not (noop)) (if (lt (vnoop) 0.5) (pickUp)))" := by decide +kernel
  rw [hrun] at hprint
  exact ⟨⟨hfallow, m, s', hrun, hm, Option.some.inj hprint⟩, hracing, hnone,
    (dormant_sprouts 0 hzero racing hracing).2 hnone⟩

/-! ## Size and depth -/

theorem depthAll_le_iff {args : List Expr} {n : Nat} : Expr.depthAll args ≤ n ↔ ∀ a ∈ args, a.depth ≤ n := by
  induction args with
  | nil => simp [Expr.depthAll]
  | cons a args ih => rw [Expr.depthAll, Nat.max_le, ih, List.forall_mem_cons]

theorem sizeAll_le_of_zip {args ms : List Expr} (hlength : ms.length = args.length)
    (h : ∀ p ∈ args.zip ms, p.2.size ≤ 3 * p.1.size) : Expr.sizeAll ms ≤ 3 * Expr.sizeAll args := by
  induction args generalizing ms with
  | nil =>
    cases List.length_eq_zero_iff.mp hlength
    exact Nat.le_refl _
  | cons a args ih =>
    obtain ⟨m, ms, rfl⟩ := List.exists_cons_of_length_eq_add_one hlength
    obtain ⟨hm, hms⟩ := List.forall_mem_cons.mp h
    have := ih (Nat.succ.inj hlength) hms
    simp only [Expr.sizeAll] at hm ⊢
    omega

theorem sizeAll_remaining_le (dropped : Option Nat) (args : List Expr) :
    Expr.sizeAll (remaining dropped args) ≤ Expr.sizeAll args := by
  cases dropped with
  | none => exact Nat.le_refl _
  | some k =>
    rw [remaining]
    induction args generalizing k with
    | nil => exact Nat.le_refl _
    | cons a args ih =>
      cases k with
      | zero => exact Nat.le_add_left _ _
      | succ k => exact Nat.add_le_add_left (ih k) _

/-- What grows has at most three nodes, on two levels. -/
theorem grow_le (kind : Kind) : (grow kind).size ≤ 3 ∧ (grow kind).depth ≤ 2 := by
  cases kind <;> simp [grow, noop, Expr.leaf, Expr.size, Expr.sizeAll, Expr.depth, Expr.depthAll]

variable {rate : Float}

/-- **A mutant has at most three times as many nodes.** -/
theorem Mutant.size_le {e m : Expr} (h : Mutant rate e m) : m.size ≤ 3 * e.size := by
  induction h with
  | kept | literal | speeds | sensor | state =>
    simp only [Expr.size, Expr.sizeAll, Expr.leaf]
    omega
  | grown | grownReal => exact (grow_le _).1
  | @sequence op args ms dropped hop hdropped hlength hms ih =>
    have hms := sizeAll_le_of_zip hlength ih
    have hargs := sizeAll_remaining_le dropped args
    simp only [Expr.size]
    omega
  | unwrapped | negation | comparison | choice | choiceDeferred | choiceExtended | fork | forkSwapped | forkPruned =>
    simp only [Expr.size, Expr.sizeAll, noop, Expr.leaf] at *
    omega

/-- **A mutant is at most one level deeper.** -/
theorem Mutant.depth_le {e m : Expr} (h : Mutant rate e m) : m.depth ≤ e.depth + 1 := by
  induction h with
  | kept | literal | speeds | sensor | state => exact Nat.le_succ _
  | grown | grownReal => exact (grow_le _).2
  | @sequence op args ms dropped hop hdropped hlength hms ih =>
    refine Nat.succ_le_succ (depthAll_le_iff.mpr fun m hm => ?_)
    obtain ⟨a, ha, hmem⟩ := exists_mem_zip hlength hm
    exact (ih _ hmem).trans (Nat.succ_le_succ (depthAll_le_iff.mp le_rfl a (mem_remaining ha)))
  | unwrapped | negation | comparison | choice | choiceDeferred | choiceExtended | fork | forkSwapped | forkPruned =>
    simp only [Expr.depth, Expr.depthAll, noop, Expr.leaf] at *
    omega

/-- **Mutation adds little.** At any rate every mutation of a well-formed expression has a result, which has at most
three times as many nodes as the expression, and is at most one level deeper. -/
theorem mutation_bounded (rate : Float) (e : Expr) (he : e.WellFormed) :
    Attains (fun m => m.size ≤ 3 * e.size ∧ m.depth ≤ e.depth + 1) (mutate rate e) :=
  (mutate_mutant rate he.1).mono fun _ hm => ⟨hm.size_le, hm.depth_le⟩

/-- Both bounds are reached where a placeholder grows into a choice. -/
theorem mutation_bounded_noop :
    noop.WellFormed ∧ ∃ m s', (mutate 1 noop).run (.script #[0] 0) = (some m, s') ∧
      (m.size ≤ 3 * noop.size ∧ m.depth ≤ noop.depth + 1) ∧ m.size = 3 * noop.size ∧ m.depth = noop.depth + 1 := by
  have hnoop : noop.WellFormed := by decide +kernel
  obtain ⟨m, s', hrun, hm⟩ := mutation_bounded 1 noop hnoop (.script #[0] 0)
  have hgrown : ((mutate 1 noop).run (.script #[0] 0)).1.map (fun m => (m.size, m.depth)) = some (3, 2) := by
    decide +kernel
  rw [hrun] at hgrown
  obtain ⟨hsize, hdepth⟩ := Prod.mk.inj (Option.some.inj hgrown)
  exact ⟨hnoop, m, s', hrun, hm, hsize, hdepth⟩

end Forager.Breeding
