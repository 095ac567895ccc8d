import Forager.Proofs.Breeding.Evaluation
import Forager.Proofs.Breeding.Heredity

/-!
# Idle populations

Where a property of sound programs is handed down without errors, and the selector does not fail either, no step of a
generation fails. The program that does nothing is a fixed point of evolution: whatever is drawn, the offspring of idle
individuals is idle.

* `new_of_hands`, `advance_hands` : a progenitor with such a property makes a population whose individuals have it, and
  which completes its generation; `new_of_heritable`, `advance_heritable` : the same of a property that does not change;
* `heritable_idle` : to be idle is handed down without errors; `new_of_idle`, `advance_idle` : so an idle progenitor
  makes an idle population, which completes its generation, and the next is idle.
-/

namespace Forager.Breeding

set_option autoImplicit false

open Program

/-! ## Properties that are handed down without errors -/

section

variable {S S' : Nat → Expr → Prop} {n : Nat}

/-- A setup with such a progenitor and values in their ranges makes a population of individuals with the property. -/
theorem new_of_hands {s : Setup} (hS : Hands s.rate (fun _ => False) S S') (hSS' : ∀ slot e, S slot e → S' slot e)
    {sim : Simulator} {baseline progenitor : Individual} (hn : 0 < n) (hsim : s.simulator = some sim)
    (hbaseline : s.baseline = some baseline) (hprogenitor : s.progenitor = some progenitor)
    (hsize : 0 < s.size ∧ s.size % 2 = 0) (hrate : (0 ≤ s.rate && s.rate ≤ 1) = true) (hrepeats : 1 ≤ s.repeats)
    (hbears : Bears S n progenitor) :
    ∃ p, Population.new s = .ok p ∧ p.simulator = sim ∧ p.opponent = baseline.programs ∧ p.rate = s.rate ∧
      p.repeats = s.repeats ∧ p.individuals ≠ [] ∧ ∀ ind ∈ p.individuals, Bears S' n ind := by
  obtain ⟨others, src, hrun, -, hothers⟩ := (founders_bear hS hn hbears (s.size.toNat - 1) 1).exists_result
    (s := .ofSeed (Chance.selectionSeed s.seed (-1))) trivial
  have hne : progenitor.programs ≠ [] := List.ne_nil_of_length_pos (by rw [hbears.length]; exact hn)
  have hroots : ∀ e ∈ progenitor.programs, e.kind = .step := by
    intro e he
    obtain ⟨slot, hslot⟩ := List.mem_iff_getElem?.mp he
    exact hS.root _ e (hSS' _ e (hbears.programs slot e hslot))
  have hfirst := (new_iff (individualId 0 0) progenitor.programs _).mpr ⟨hne, hroots, rfl⟩
  unfold Population.new
  rw [hsim, hbaseline, hprogenitor]
  dsimp only
  rw [if_neg (by simp; omega), hrate, if_neg (by simp), if_neg (by omega), hfirst]
  dsimp only
  rw [hrun]
  refine ⟨_, rfl, rfl, rfl, rfl, rfl, by simp, List.forall_mem_cons.mpr ⟨?_, hothers⟩⟩
  exact ⟨hbears.length, (hbears.mono hSS').programs⟩

/-- **Such a population completes its generation** if the programs are sound, and the next one has the property. -/
theorem advance_hands {p : Population} (hS : Hands p.rate (fun _ => False) S S') (hsound : ∀ slot e, S slot e → Sound e)
    (hn : 0 < n) (hsim : Responds p.simulator) (hselector : p.selector.Sure) (hopponent : ∀ e ∈ p.opponent, Sound e)
    (hrepeats : 1 ≤ p.repeats) (hne : p.individuals ≠ []) (hbear : ∀ ind ∈ p.individuals, Bears S n ind) :
    ∃ g, (p.advance .never).result = .ok g ∧ ∀ ind ∈ (p.advance .never).population.individuals, Bears S' n ind := by
  have hplayable : ∀ ind ∈ p.individuals, ind.programs ≠ [] ∧ ∀ e ∈ ind.programs, Sound e := by
    intro ind hind
    refine ⟨List.ne_nil_of_length_pos (by rw [(hbear ind hind).length]; exact hn), fun e he => ?_⟩
    obtain ⟨slot, hslot⟩ := List.mem_iff_getElem?.mp he
    exact hsound _ e ((hbear ind hind).programs slot e hslot)
  have hfailure := evaluateAll_total hsim hopponent hrepeats p.matchSeed p.individuals hplayable p.played []
  have hprograms := programs_evaluateAll p.simulator p.opponent p.repeats p.matchSeed p.individuals
    ⟨p.played, .never, []⟩
  unfold Population.advance
  rcases hall : evaluateAll p.simulator p.opponent p.repeats p.matchSeed p.individuals ⟨p.played, .never, []⟩ with
    ⟨failure, evaluated, playing⟩
  rw [hall] at hfailure hprograms
  have hevaluated := bear_of_programs hprograms hbear
  dsimp only at hfailure hevaluated ⊢
  subst hfailure
  cases evaluated with
  | nil => exact absurd (List.map_eq_nil_iff.mp hprograms.symm) hne
  | cons first others =>
    have hpick := (hselector (first :: others) (List.cons_ne_nil _ _)).mono fun _ _ => trivial
    obtain ⟨herror, hok⟩ := offspring_bear (F := fun _ => False) p hS hn (fun _ _ _ h => h) hpick hevaluated
    dsimp only
    cases hnext : p.offspring first others with
    | error e => exact (herror e hnext).elim
    | ok next => exact ⟨_, rfl, hok next hnext⟩

end

section

variable {S : Expr → Prop} {n : Nat}

/-- The same of a property that stays as it is. -/
theorem new_of_heritable {s : Setup} (hS : Heritable s.rate (fun _ => False) S) {sim : Simulator}
    {baseline progenitor : Individual} (hn : 0 < n) (hsim : s.simulator = some sim)
    (hbaseline : s.baseline = some baseline) (hprogenitor : s.progenitor = some progenitor)
    (hsize : 0 < s.size ∧ s.size % 2 = 0) (hrate : (0 ≤ s.rate && s.rate ≤ 1) = true) (hrepeats : 1 ≤ s.repeats)
    (hcarries : Carries S n progenitor) :
    ∃ p, Population.new s = .ok p ∧ p.simulator = sim ∧ p.opponent = baseline.programs ∧ p.rate = s.rate ∧
      p.repeats = s.repeats ∧ p.individuals ≠ [] ∧ ∀ ind ∈ p.individuals, Carries S n ind := by
  obtain ⟨p, hnew, hp, hopponent, hrate, hrepeats, hne, hbear⟩ :=
    new_of_hands hS.hands (fun _ _ h => h) hn hsim hbaseline hprogenitor hsize hrate hrepeats
      (bears_const_iff.mpr hcarries)
  exact ⟨p, hnew, hp, hopponent, hrate, hrepeats, hne, fun ind hind => bears_const_iff.mp (hbear ind hind)⟩

theorem advance_heritable {p : Population} (hS : Heritable p.rate (fun _ => False) S) (hsound : ∀ e, S e → Sound e)
    (hn : 0 < n) (hsim : Responds p.simulator) (hselector : p.selector.Sure) (hopponent : ∀ e ∈ p.opponent, Sound e)
    (hrepeats : 1 ≤ p.repeats) (hne : p.individuals ≠ []) (hcarries : ∀ ind ∈ p.individuals, Carries S n ind) :
    ∃ g, (p.advance .never).result = .ok g ∧
      ∀ ind ∈ (p.advance .never).population.individuals, Carries S n ind := by
  obtain ⟨g, hg, hbear⟩ := advance_hands hS.hands (fun _ => hsound) hn hsim hselector hopponent hrepeats hne
    fun ind hind => bears_const_iff.mpr (hcarries ind hind)
  exact ⟨g, hg, fun ind hind => bears_const_iff.mp (hbear ind hind)⟩

end

/-! ## The program that does nothing -/

/-- Whether an individual has `n` programs that do nothing. -/
abbrev IsIdle (n : Nat) (ind : Individual) : Prop := Carries (· = .idle) n ind

theorem mutate_idle (rate : Float) : Gives (· = some .idle) (mutate rate .idle).run := by
  -- There is no argument that could go, whatever is drawn.
  have hdropping : dropping rate 0 = (do
      let _ ← happens rate
      return none) := by
    unfold dropping
    congr 1
    funext b
    simp
  intro s
  change ((do
    let dropped ← dropping rate 0
    return Expr.node .step (← mutateAll rate dropped []) : Mutating Expr).run s).1 = _
  rw [hdropping]
  rfl

theorem crossover_idle : Gives (· = .ok ⟨"(step)", "(step)", false⟩) (crossover .idle .idle) := fun _ => rfl

theorem heritable_idle (rate : Float) : Heritable rate (fun _ => False) (· = .idle) where
  root := by
    rintro _ rfl
    rfl
  mutant := by
    rintro slot _ rfl
    refine .bind (.draw (mutate_idle rate)) ?_
    rintro _ rfl
    exact .pure rfl
  crossed := by
    rintro _ _ rfl rfl s
    rw [crossover_idle s]
    exact .pure fun slot => ⟨.pure rfl, .pure rfl⟩

/-- A setup with an idle progenitor and values in their ranges makes a population of idle individuals. -/
theorem new_of_idle {s : Setup} {sim : Simulator} {baseline progenitor : Individual} {n : Nat} (hn : 0 < n)
    (hsim : s.simulator = some sim) (hbaseline : s.baseline = some baseline)
    (hprogenitor : s.progenitor = some progenitor) (hsize : 0 < s.size ∧ s.size % 2 = 0)
    (hrate : (0 ≤ s.rate && s.rate ≤ 1) = true) (hrepeats : 1 ≤ s.repeats) (hidle : IsIdle n progenitor) :
    ∃ p, Population.new s = .ok p ∧ p.simulator = sim ∧ p.opponent = baseline.programs ∧ p.repeats = s.repeats ∧
      p.individuals ≠ [] ∧ ∀ ind ∈ p.individuals, IsIdle n ind := by
  obtain ⟨p, hnew, hp, hopponent, -, hrepeats, hne, hall⟩ := new_of_heritable (heritable_idle s.rate) hn hsim hbaseline
    hprogenitor hsize hrate hrepeats hidle
  exact ⟨p, hnew, hp, hopponent, hrepeats, hne, hall⟩

/-- **An idle population completes its generation**, and the next one is idle. -/
theorem advance_idle {p : Population} {n : Nat} (hn : 0 < n) (hsim : Responds p.simulator)
    (hselector : p.selector.Sure) (hopponent : ∀ e ∈ p.opponent, Sound e) (hrepeats : 1 ≤ p.repeats)
    (hne : p.individuals ≠ []) (hidle : ∀ ind ∈ p.individuals, IsIdle n ind) :
    ∃ g, (p.advance .never).result = .ok g ∧ ∀ ind ∈ (p.advance .never).population.individuals, IsIdle n ind :=
  advance_heritable (heritable_idle p.rate) (fun _ he => he ▸ .idle) hn hsim hselector hopponent hrepeats hne hidle

end Forager.Breeding
