import Forager.Proofs.Breeding.Endurance

/-!
# Evolution keeps programs sound

* `heritable_sound` : mutation and crossover hand soundness down;
* `Healthy n p` : a population of individuals with `n` sound programs in a simulator that cuts no match of such
  programs short; `advance_healthy` : so is the next generation, and no match of this one was cut short;
* `Evolved p gs q` : what comes of a population in any number of attempts; `evolved_sound` : its programs are sound
  throughout, if those it was made from are.
-/

namespace Forager.Breeding

set_option autoImplicit false

open Program

/-! ## Heredity -/

theorem mutateSlot_sound (rate : Float) (slot : Nat) {e : Expr} (h : Sound e) :
    Returns (fun _ => True) Sound (mutateSlot rate slot e) := by
  refine .bind (.draw (mutate_mutant rate h.wellFormed.1).gives) ?_
  rintro _ ⟨m, rfl, hmutant⟩
  have hm := hmutant.keeps h.wellFormed.1 h.checked
  dsimp only
  cases hparse : parseProgram m.print with
  | error x => exact .throw trivial
  | ok e' => exact .pure (sound_of_print (hm.literal.trans h.isLiteral) hm.shaped hm.checked hparse)

/-- **Soundness is heritable.** Mutation and crossover may fail, but whatever comes of sound programs is sound. -/
theorem heritable_sound (rate : Float) : Heritable rate (fun _ => True) Sound where
  root _ h := h.root
  mutant slot _ h := mutateSlot_sound rate slot h
  crossed a b ha hb := by
    intro s
    have hcrossed := crossover_sound ha hb s
    refine settled_returns .swap fun crossed hok slot => ⟨?_, ?_⟩
    · exact settled_returns (.crossed slot) fun e he => hcrossed crossed hok e (.inl he)
    · exact settled_returns (.crossed slot) fun e he => hcrossed crossed hok e (.inr he)

/-! ## Populations -/

/-- A population of individuals with `n` sound programs, which are evaluated against sound programs in a simulator that
cuts no match of them short. -/
structure Healthy (n : Nat) (p : Population) : Prop where
  simulator : Finishes p.simulator
  opponent : ∀ e ∈ p.opponent, Sound e
  individuals : ∀ ind ∈ p.individuals, Carries Sound n ind

/-- A population is healthy if it was made from sound programs. -/
theorem new_healthy {s : Setup} {p : Population} {sim : Simulator} {baseline progenitor : Individual}
    (hnew : Population.new s = .ok p) (hsimulator : s.simulator = some sim) (hbaseline : s.baseline = some baseline)
    (hprogenitor : s.progenitor = some progenitor) (hsim : Finishes sim) (hopponent : ∀ e ∈ baseline.programs, Sound e)
    (hsound : ∀ e ∈ progenitor.programs, Sound e) :
    0 < progenitor.programs.length ∧ Healthy progenitor.programs.length p := by
  obtain ⟨_, _, _, others, src, hsim', hbaseline', hprogenitor', -, -, hne, -, hothers, rfl⟩ := new_ok hnew
  cases hsimulator.symm.trans hsim'
  cases hbaseline.symm.trans hbaseline'
  cases hprogenitor.symm.trans hprogenitor'
  have hn := List.length_pos_of_ne_nil hne
  have hcarries : Carries Sound progenitor.programs.length progenitor := ⟨rfl, hsound⟩
  obtain ⟨-, -, hrest⟩ := founders_carry (heritable_sound s.rate) hn hcarries _ 1 _ _ src trivial hothers
  exact ⟨hn, hsim, hopponent, List.forall_mem_cons.mpr ⟨⟨rfl, hsound⟩, hrest others rfl⟩⟩

theorem abortedRuns_summarize (index : Nat) (repeats : Int) (first : Individual) (others : List Individual)
    (h : ∀ ind ∈ first :: others, ind.aborted = 0) : (summarize index repeats first others).abortedRuns = 0 := by
  have hfold : ∀ individuals : List Individual, (∀ ind ∈ individuals, ind.aborted = 0) →
      individuals.foldr (fun i n => i.aborted + n) 0 = 0 := by
    intro individuals hinds
    induction individuals with
    | nil => rfl
    | cons ind individuals ih =>
      obtain ⟨hind, hrest⟩ := List.forall_mem_cons.mp hinds
      rw [List.foldr_cons, hind, ih hrest]
  exact hfold (first :: others) h

/-- A generation of individuals with `n` sound programs, none of whose matches was cut short. -/
structure Generation.Healthy (n : Nat) (g : Generation) : Prop where
  abortedRuns : g.abortedRuns = 0
  individuals : ∀ ind ∈ g.individuals, Carries Sound n ind

/-- An attempt to complete a generation leaves the population healthy, and so is the generation, if it is completed. -/
theorem advance_healthy {n : Nat} (hn : 0 < n) {p : Population} (h : Healthy n p) (deadline : Deadline) :
    Healthy n (p.advance deadline).population ∧ ∀ g, (p.advance deadline).result = .ok g → g.Healthy n := by
  have hprograms := programs_evaluateAll p.simulator p.opponent p.repeats p.matchSeed p.individuals
    ⟨p.played, deadline, []⟩
  unfold Population.advance
  rcases hall : evaluateAll p.simulator p.opponent p.repeats p.matchSeed p.individuals ⟨p.played, deadline, []⟩ with
    ⟨failure, evaluated, playing⟩
  rw [hall] at hprograms
  have hevaluated := carry_of_programs hprograms h.individuals
  dsimp only
  -- A failed attempt keeps the individuals, evaluated in part.
  split
  · exact ⟨⟨h.simulator, h.opponent, hevaluated⟩, fun g hg => by cases hg⟩
  · exact ⟨⟨h.simulator, h.opponent, hevaluated⟩, fun g hg => by cases hg⟩
  · rename_i first others
    have haborted := evaluateAll_aborted h.simulator h.opponent (fun ind hind => (h.individuals ind hind).programs) hall
    split
    · exact ⟨⟨h.simulator, h.opponent, hevaluated⟩, fun g hg => by cases hg⟩
    · rename_i next hnext
      have hoffspring := (offspring_carry (F := fun _ => True) p (heritable_sound p.rate) hn
        (fun _ _ _ _ => trivial) (.any _) hevaluated).2 next hnext
      refine ⟨⟨h.simulator, h.opponent, hoffspring⟩, fun g hg => ?_⟩
      cases hg
      exact ⟨abortedRuns_summarize _ _ first others haborted, hevaluated⟩

theorem evolve_healthy {n : Nat} (hn : 0 < n) {p : Population} (h : Healthy n p) {σ : Type}
    (observers : List (Observer σ)) (deadline : Deadline) (s : σ) :
    Healthy n (p.evolve observers deadline s).1.population ∧
      ∀ g, (p.evolve observers deadline s).1.result = .ok g → g.Healthy n := by
  obtain ⟨hp, hg⟩ := advance_healthy hn h deadline
  unfold Population.evolve
  dsimp only
  split
  · exact ⟨hp, hg⟩
  · split
    · exact ⟨hp, hg⟩
    · exact ⟨hp, fun g hg' => by cases hg'⟩

/-! ## Runs -/

/-- `q` comes of `p` in any number of attempts, which completed the generations `gs`. -/
inductive Evolved (p : Population) : List Generation → Population → Prop where
  | start : Evolved p [] p
  | completed {gs : List Generation} {q : Population} {σ : Type} {observers : List (Observer σ)} {deadline : Deadline}
      {s : σ} {g : Generation} (h : Evolved p gs q) (hg : (q.evolve observers deadline s).1.result = .ok g) :
      Evolved p (gs ++ [g]) (q.evolve observers deadline s).1.population
  | failed {gs : List Generation} {q : Population} {σ : Type} {observers : List (Observer σ)} {deadline : Deadline}
      {s : σ} {e : EvolveError} (h : Evolved p gs q) (he : (q.evolve observers deadline s).1.result = .error e) :
      Evolved p gs (q.evolve observers deadline s).1.population

theorem Evolved.healthy {n : Nat} (hn : 0 < n) {p q : Population} {gs : List Generation} (h : Evolved p gs q)
    (hp : Healthy n p) : Healthy n q ∧ ∀ g ∈ gs, g.Healthy n := by
  induction h with
  | start => exact ⟨hp, fun g hg => by cases hg⟩
  | @completed gs q σ observers deadline s g _ hg ih =>
    obtain ⟨hq, hgs⟩ := ih
    obtain ⟨hnext, hcompleted⟩ := evolve_healthy hn hq observers deadline s
    refine ⟨hnext, fun g' hg' => ?_⟩
    rcases List.mem_append.mp hg' with hold | hlast
    · exact hgs g' hold
    · cases List.mem_singleton.mp hlast
      exact hcompleted g hg
  | @failed gs q σ observers deadline s e _ _ ih =>
    exact ⟨(evolve_healthy hn ih.1 observers deadline s).1, ih.2⟩

/-- **Evolution keeps programs sound.** In a population for the forage arena that was made from programs that were read
from text and pass the check, every program of every generation has the root of a program, is well formed and passes
the check, whatever is drawn and however often an attempt fails; and no match is ever cut short. -/
theorem evolved_sound (s : Setup) (c : Arena.Config) (baseline progenitor : Individual) (p q : Population)
    (gs : List Generation) (hsimulator : s.simulator = some (Arena.forage c)) (hbaseline : s.baseline = some baseline)
    (hprogenitor : s.progenitor = some progenitor)
    (hparsed : ∀ e ∈ baseline.programs ++ progenitor.programs,
      (∃ text, parseProgram text = .ok e) ∧ check e = .ok ())
    (hnew : Population.new s = .ok p) (hevolved : Evolved p gs q) :
    (∀ ind ∈ q.individuals, ∀ e ∈ ind.programs, e.kind = .step ∧ e.WellFormed ∧ check e = .ok ()) ∧
    ∀ g ∈ gs, g.abortedRuns = 0 ∧
      ∀ ind ∈ g.individuals, ∀ e ∈ ind.programs, e.kind = .step ∧ e.WellFormed ∧ check e = .ok () := by
  have hsound : ∀ e ∈ baseline.programs ++ progenitor.programs, Sound e := fun e he => sound_of_parsed (hparsed e he)
  obtain ⟨hbase, hfirst⟩ := List.forall_mem_append.mp hsound
  obtain ⟨hn, hp⟩ := new_healthy hnew hsimulator hbaseline hprogenitor (finishes_forage c) hbase hfirst
  obtain ⟨hq, hgs⟩ := hevolved.healthy hn hp
  have hall : ∀ {n : Nat} {individuals : List Individual}, (∀ ind ∈ individuals, Carries Sound n ind) →
      ∀ ind ∈ individuals, ∀ e ∈ ind.programs, e.kind = .step ∧ e.WellFormed ∧ check e = .ok () := by
    intro n individuals hinds ind hind e he
    have hsound := (hinds ind hind).programs e he
    exact ⟨hsound.root, hsound.wellFormed, hsound.checked⟩
  exact ⟨hall hq.individuals, fun g hg => ⟨(hgs g hg).abortedRuns, hall (hgs g hg).individuals⟩⟩

theorem Completed.evolved {p q : Population} {gs : List Generation} (h : Completed p gs q) : Evolved p gs q := by
  induction h with
  | start => exact .start
  | evolve _ hg ih => exact .completed ih hg

/-- Two generations of programs with lists and placeholders, which are changed half of the time. -/
theorem evolved_sound_lively :
    ∃ p gs q, Population.new lively = .ok p ∧ Evolved p gs q ∧ gs.length = 2 ∧
      (∀ g ∈ gs, g.abortedRuns = 0 ∧ ∀ ind ∈ g.individuals, ∀ e ∈ ind.programs, check e = .ok ()) ∧
      ∀ ind ∈ q.individuals, ∀ e ∈ ind.programs, e.kind = .step ∧ e.WellFormed ∧ check e = .ok () := by
  have hparsed : ∀ e ∈ [seedling] ++ [seedling, .node .step [noop]],
      (∃ text, parseProgram text = .ok e) ∧ check e = .ok () := by
    intro e he
    have hsound := (modest_lively e (by simpa using he)).sound
    exact ⟨⟨e.print, parseProgram_print hsound.root hsound.wellFormed⟩, hsound.checked⟩
  obtain ⟨p, hnew, henduring⟩ := new_lively
  obtain ⟨gs, q, hcount, hcompleted, -⟩ := henduring.exists_completed Nat.two_pos 2 (by decide)
  obtain ⟨hq, hgs⟩ := evolved_sound lively _ _ _ p q gs rfl rfl rfl hparsed hnew hcompleted.evolved
  refine ⟨p, gs, q, hnew, hcompleted.evolved, hcount, fun g hg => ⟨(hgs g hg).1, fun ind hind e he => ?_⟩, hq⟩
  exact ((hgs g hg).2 ind hind e he).2.2

end Forager.Breeding
