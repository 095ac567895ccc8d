import Forager.Proofs.Breeding.Exchange
import Forager.Proofs.Breeding.Generations
import Forager.Proofs.Breeding.Idle
import Forager.Proofs.Breeding.Mutants
import Forager.Proofs.Chance.Fractions
import Forager.Proofs.Number.Magnitude

/-!
# Populations that go on

Mutation and crossover of sound programs fail only where a number has become infinite. A mutation makes numbers at most
twice as large, so for many generations nothing fails.

* `jitter_within` : how large a number becomes;
* `Modest b e` : a sound program whose numbers are at most the `b`-th power of two; `hands_modest` : its descendants
  are modest again, for `b + 1`, and are bred without errors;
* `Enduring b n p` : a population of such individuals in which nothing else fails; `Enduring.advance` : it completes its
  generation; `Enduring.exists_completed` : and any number of generations, up to the greatest double.
-/

namespace Forager.Breeding

set_option autoImplicit false

open Program
open Number (Within value)

/-! ## Numbers -/

/-- Powers of two are doubles. -/
theorem exists_power {b : Nat} (hb : b ≤ 1023) : ∃ z, Number.isFinite z = true ∧ value z = 2 ^ b := by
  have hc : Number.Canonical (2 ^ 52) ((b : Int) - 52) := Number.canonical_power (by omega) (by omega)
  refine ⟨_, (Number.value_double hc).1, (Number.value_double hc).2.trans ?_⟩
  rw [zpow_sub₀ (by norm_num), zpow_natCast]
  exact mul_div_cancel₀ _ (by norm_num)

theorem fraction_half : Number.Fraction 0.5 := (Number.fraction_of_lt (by decide +kernel) (by decide +kernel)).1

theorem fraction_fifth : Number.Fraction 0.2 := (Number.fraction_of_lt (by decide +kernel) (by decide +kernel)).1

theorem fraction_tenth : Number.Fraction 0.1 := (Number.fraction_of_lt (by decide +kernel) (by decide +kernel)).1

/-- A number becomes at most twice as large. -/
theorem jitter_within {x : Float} {b : Nat} (hb : b ≤ 1022) (hx : Within (2 ^ b) x) :
    Gives (Within (2 ^ (b + 1))) (jitter x) := by
  refine .bind Chance.unit_range fun u hu => .pure ?_
  obtain ⟨hfraction, -⟩ := Number.fraction_of_lt hu.1 hu.2
  obtain ⟨hone, hvalue⟩ := Number.value_one
  split
  · -- What comes of zero is the difference of two fractions.
    have hle : value u * value 0.2 ≤ value 1 := by
      rw [hvalue]
      exact mul_le_one₀ hfraction.le_one fraction_fifth.nonneg fraction_fifth.le_one
    have htenth : value 0.1 ≤ value 1 := by
      rw [hvalue]
      exact fraction_tenth.le_one
    have hproduct := Number.mul_rounds hfraction.isFinite fraction_fifth.isFinite hone hfraction.nonneg
      fraction_fifth.nonneg hle
    have hsmall := hproduct.within (mul_nonneg hfraction.nonneg fraction_fifth.nonneg) hone hle
    have hdifference := Number.sub_within hproduct.isFinite fraction_tenth.isFinite hone hproduct.value_nonneg
      fraction_tenth.nonneg ((le_abs_self _).trans hsmall.le) htenth
    rw [hvalue] at hdifference
    exact hdifference.mono (one_le_pow₀ (by norm_num))
  · obtain ⟨two, htwo, hvalue₂⟩ := exists_power (b := 1) (by omega)
    obtain ⟨z, hz, hvaluez⟩ := exists_power (b := b + 1) (by omega)
    have hle : value 0.5 + value u ≤ value two := by
      rw [hvalue₂]
      have := fraction_half.le_one
      have := hfraction.le_one
      linarith
    have hsum := Number.add_rounds fraction_half.isFinite hfraction.isFinite htwo fraction_half.nonneg
      hfraction.nonneg hle
    have hfactor := hsum.within (add_nonneg fraction_half.nonneg hfraction.nonneg) htwo hle
    rw [← hvaluez]
    refine Number.mul_within hx hfactor hz ?_
    rw [hvalue₂, hvaluez, pow_one, pow_succ]

/-! ## Programs -/

/-- A sound program whose numbers are at most the `b`-th power of two. -/
structure Modest (b : Nat) (e : Expr) : Prop where
  sound : Sound e
  numbers : ∀ x ∈ e.numbers, Within (2 ^ b) x

variable {b c n : Nat} {e : Expr}

theorem Modest.mono (h : Modest b e) (hbc : b ≤ c) : Modest c e :=
  ⟨h.sound, fun x hx => (h.numbers x hx).mono (pow_le_pow_right₀ (by norm_num) hbc)⟩

theorem mutateSlot_modest (rate : Float) (slot : Nat) (hb : b ≤ 1022) (h : Modest b e) :
    Returns (fun _ => False) (Modest (b + 1)) (mutateSlot rate slot e) := by
  refine .bind (.draw (mutate_mutant rate h.sound.wellFormed.1).gives) ?_
  rintro _ ⟨m, rfl, hmutant⟩
  have hm := hmutant.keeps h.sound.wellFormed.1 h.sound.checked
  have hroot : m.kind = .step := hm.root h.sound.root
  have hnumbers : ∀ y ∈ m.numbers, Within (2 ^ (b + 1)) y := by
    intro y hy
    rcases hmutant.numbers y hy with hold | rfl | ⟨x, hx, source, rfl⟩
    · exact ((h.mono (Nat.le_succ b)).numbers y hold)
    · exact ⟨Number.value_zero.1, by rw [Number.value_zero.2, abs_zero]; positivity⟩
    · exact jitter_within hb (h.numbers x hx) source
  have hwell : m.WellFormed := ⟨hm.shaped, Expr.finite_iff.mpr fun y hy => (hnumbers y hy).isFinite⟩
  dsimp only
  rw [parseProgram_print hroot hwell]
  exact .pure ⟨⟨hroot, hwell, hm.checked⟩, hnumbers⟩

/-- Crossover of modest programs gives modest programs. -/
theorem crossover_modest {a d : Expr} (ha : Modest b a) (hd : Modest b d) :
    Gives (fun result => ∃ crossed first second, result = .ok crossed ∧
      parseProgram crossed.first = .ok first ∧ parseProgram crossed.second = .ok second ∧ Modest b first ∧
      Modest b second) (crossover a d) := by
  intro source
  have hrun : ((crossover a d).run source).1 = .ok ((transplant a d).run source).1 := by
    rw [crossover_eq ha.sound.wellFormed.1 hd.sound.wellFormed.1 (Expr.isLiteral_of_root ha.sound.root)
      (Expr.isLiteral_of_root hd.sound.root), StateT.run_map]
    rfl
  obtain ⟨first, second, hfirst, hsecond, hops⟩ := (transplanted a d source).programs ha.sound.root hd.sound.root
    ha.sound.wellFormed hd.sound.wellFormed
  have hsound := crossover_sound ha.sound hd.sound source _ hrun
  -- Together they have the operations of their parents, and so the numbers.
  have hnumbers : ∀ x ∈ first.numbers ++ second.numbers, Within (2 ^ b) x := by
    intro x hx
    have hmem : x ∈ a.numbers ++ d.numbers := by
      unfold Expr.numbers at hx ⊢
      rw [← List.flatMap_append] at hx ⊢
      exact (hops.flatMap_right Op.numbers).mem_iff.mp hx
    exact (List.mem_append.mp hmem).elim (ha.numbers x) (hd.numbers x)
  obtain ⟨hleft, hright⟩ := List.forall_mem_append.mp hnumbers
  exact ⟨_, first, second, hrun, hfirst, hsecond, ⟨hsound first (.inl hfirst), hleft⟩,
    ⟨hsound second (.inr hsecond), hright⟩⟩

theorem hands_modest (rate : Float) (hb : b ≤ 1022) :
    Hands rate (fun _ => False) (fun _ => Modest b) (fun _ => Modest (b + 1)) where
  root _ _ h := h.sound.root
  mutant slot _ h := mutateSlot_modest rate slot hb h
  crossed slot a d ha hd source := by
    obtain ⟨crossed, first, second, hresult, hfirst, hsecond, hleft, hright⟩ := crossover_modest ha hd source
    rw [hresult]
    refine .pure ?_
    unfold readCrossed
    rw [hfirst, hsecond]
    exact ⟨.pure hleft, .pure hright⟩

/-! ## Populations -/

/-- A population of individuals with `n` such programs, in which nothing else can fail. -/
structure Enduring (b n : Nat) (p : Population) : Prop where
  responds : Responds p.simulator
  selector : p.selector.Sure
  opponent : ∀ e ∈ p.opponent, Sound e
  repeats : 1 ≤ p.repeats
  some : p.individuals ≠ []
  even : p.individuals.length % 2 = 0
  modest : ∀ ind ∈ p.individuals, Carries (Modest b) n ind

/-- A setup with modest programs and values in their ranges makes such a population. -/
theorem new_enduring {s : Setup} {sim : Simulator} {baseline progenitor : Individual} (hn : 0 < n) (hb : b ≤ 1022)
    (hsim : s.simulator = some sim) (hresponds : Responds sim) (hselector : s.selector.Sure)
    (hbaseline : s.baseline = some baseline) (hopponent : ∀ e ∈ baseline.programs, Sound e)
    (hprogenitor : s.progenitor = some progenitor) (hmodest : Carries (Modest b) n progenitor)
    (hsize : 0 < s.size ∧ s.size % 2 = 0) (hrate : (0 ≤ s.rate && s.rate ≤ 1) = true) (hrepeats : 1 ≤ s.repeats) :
    ∃ p, Population.new s = .ok p ∧ Enduring (b + 1) n p := by
  obtain ⟨p, hnew, hp, hbase, -, hsame, hne, hbear⟩ := new_of_hands (hands_modest s.rate hb)
    (fun _ _ h => h.mono (Nat.le_succ b)) hn hsim hbaseline hprogenitor hsize hrate hrepeats
    (bears_const_iff.mpr hmodest)
  obtain ⟨_, _, _, others, src, -, -, -, -, -, -, -, hothers, hpopulation⟩ := new_ok hnew
  obtain ⟨-, -, hnumbered⟩ := founders_numbered _ s.rate _ 1 _ _ src trivial hothers
  refine ⟨p, hnew, hp ▸ hresponds, new_selector hnew ▸ hselector, hbase ▸ hopponent, hsame ▸ hrepeats, hne, ?_,
    fun ind hind => bears_const_iff.mp (hbear ind hind)⟩
  have hlength := (hnumbered others rfl).length
  rw [hpopulation]
  dsimp only
  rw [List.length_cons]
  omega

/-- **Such a population completes its generation**, and the next one is such a population. -/
theorem Enduring.advance {p : Population} (h : Enduring b n p) (hn : 0 < n) (hb : b ≤ 1022) :
    ∃ g, (p.advance .never).result = .ok g ∧ Enduring (b + 1) n (p.advance .never).population := by
  obtain ⟨g, hg, hbear⟩ := advance_hands (hands_modest p.rate hb) (fun _ _ h => h.sound) hn h.responds h.selector
    h.opponent h.repeats h.some fun ind hind => bears_const_iff.mpr (h.modest ind hind)
  obtain ⟨first, others, playing, next, hall, hnext, -, hleft⟩ := advance_ok hg
  have hlength : (first :: others).length = p.individuals.length := by
    have hprograms := programs_evaluateAll p.simulator p.opponent p.repeats p.matchSeed p.individuals
      ⟨p.played, .never, []⟩
    rw [hall] at hprograms
    simpa only [List.length_map] using congrArg List.length hprograms
  have hnumbered := offspring_numbered p (hlength ▸ h.even) hnext
  rw [hleft] at hbear ⊢
  refine ⟨g, hg, h.responds, h.selector, h.opponent, h.repeats, ?_, ?_,
    fun ind hind => bears_const_iff.mp (hbear ind hind)⟩
  · exact List.ne_nil_of_length_pos (by rw [hnumbered.length]; exact Nat.succ_pos _)
  · rw [hnumbered.length, hlength]
    exact h.even

/-! ## Runs -/

/-- `q` comes of `p` by completing the generations `gs`, one after another and without a failure. -/
inductive Completed (p : Population) : List Generation → Population → Prop where
  | start : Completed p [] p
  | evolve {gs : List Generation} {q : Population} {σ : Type} {observers : List (Observer σ)} {deadline : Deadline}
      {s : σ} {g : Generation} (h : Completed p gs q) (hg : (q.evolve observers deadline s).1.result = .ok g) :
      Completed p (gs ++ [g]) (q.evolve observers deadline s).1.population

/-- **Modest populations go on.** Without a deadline they complete as many generations as are wanted, as long as the
powers of two stay below the greatest double. -/
theorem Enduring.exists_completed {p : Population} (h : Enduring b n p) (hn : 0 < n) (k : Nat) (hk : b + k ≤ 1023) :
    ∃ gs q, gs.length = k ∧ Completed p gs q ∧ Enduring (b + k) n q := by
  induction k with
  | zero => exact ⟨[], p, rfl, .start, h⟩
  | succ k ih =>
    obtain ⟨gs, q, hcount, hcompleted, hq⟩ := ih (by omega)
    obtain ⟨g, hg, hnext⟩ := hq.advance hn (by omega)
    have hresult : (q.evolve ([] : List (Observer Unit)) .never ()).1.result = .ok g := by
      rw [evolve_nil]
      exact hg
    refine ⟨gs ++ [g], _, by rw [List.length_append, hcount]; rfl, .evolve hcompleted hresult, ?_⟩
    rw [evolve_nil]
    exact hnext

/-- A program with lists, numbers, and placeholders of both sorts. -/
def seedling : Expr :=
  .node .step [
    .node .branch [
      .node (.comparison .lt) [.leaf (.getRange 2), .leaf (.literal 2.5)],
      .leaf (.setSpeed 0.5 (-0.25)),
      noop],
    .node .all [.node .negation [noop], .leaf .pickUp],
    .node (.comparison .gte) [.leaf .valueNoop, .leaf (.literal 0)]]

/-- A setup at half the full rate, with two programs for each individual. -/
def lively : Setup where
  simulator := some (Arena.forage { treats := 1, maxSteps := 100 })
  baseline := some { id := "baseline", programs := [seedling] }
  progenitor := some { id := "progenitor", programs := [seedling, .node .step [noop]] }
  size := 4
  rate := 0.5
  repeats := 2

theorem modest_lively : ∀ e ∈ [seedling, .node .step [noop]], Modest 2 e := by
  have hsound : ∀ e ∈ [seedling, .node .step [noop]], e.kind = .step ∧ e.WellFormed ∧ check e = .ok () := by
    decide +kernel
  have hnumbers : ∀ e ∈ [seedling, .node .step [noop]], ∀ x ∈ e.numbers, Number.isFinite x = true ∧ x.abs ≤ 4 := by
    decide +kernel
  have hfour : Number.shape (4 : Float) = .finite false (2 ^ 52) (-50) := by decide +kernel
  obtain ⟨hfinite, hvalue⟩ := Number.value_of_shape hfour
  intro e he
  obtain ⟨hroot, hwell, hcheck⟩ := hsound e he
  refine ⟨⟨hroot, hwell, hcheck⟩, fun x hx => ?_⟩
  obtain ⟨hx, hle⟩ := hnumbers e he x hx
  refine (Number.within_of_abs_le hx hfinite hle).mono ?_
  rw [hvalue]
  norm_num

theorem new_lively : ∃ p, Population.new lively = .ok p ∧ Enduring 3 2 p := by
  refine new_enduring (s := lively) Nat.two_pos (by decide) rfl (responds_forage rfl) Selector.sure_roulette rfl ?_ rfl
    ⟨rfl, modest_lively⟩ (by decide) (by decide +kernel) (by decide)
  exact List.forall_mem_singleton.mpr (modest_lively seedling List.mem_cons_self).sound

end Forager.Breeding
