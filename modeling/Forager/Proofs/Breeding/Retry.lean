import Forager.Proofs.Breeding.Interleaving

/-!
# Failed generations can be tried again

A generation that fails leaves nothing behind but fitness values, which the next attempt computes again. What it has
drawn at random does not matter either, since every attempt draws from a source of its own.

* `Alike p q` : populations that differ in fitness values and in what was played only;
* `evaluateAll_congr` : evaluation does not look at these, if the simulator keeps no state; `Alike.advance` : and so
  neither does a generation;
* `Population.Disturbed` : schedules that may be called off at any moment;
* `Population.Retryable` : what a failed generation leaves; `failed_retryable` : it does so in order and in any
  schedule.
-/

namespace Forager.Breeding

set_option autoImplicit false

open Program (Expr)
open Relation (ReflTransGen)

/-! ## Evaluating again -/

section

variable {sim : Simulator} (hsim : sim.Stateless) (opponent : List Expr) (repeats : Int) (seed : Int64)

include hsim

theorem playSeries_congr (id : String) (team : List Expr) (count r : Nat) (totals : Totals) {p q : Playing}
    (h : p.deadline = q.deadline) :
    (playSeries sim id team opponent seed count r totals p).1 =
        (playSeries sim id team opponent seed count r totals q).1 ∧
      (playSeries sim id team opponent seed count r totals p).2.deadline =
        (playSeries sim id team opponent seed count r totals q).2.deadline := by
  induction count generalizing r totals p q with
  | zero => exact ⟨rfl, h⟩
  | succ count ih =>
    rw [playSeries, playSeries, h]
    rcases q.deadline.look with ⟨_ | _, deadline⟩
    · dsimp only
      rw [hsim p.before q.before]
      cases (sim.play q.before deadline ⟨team, opponent, Chance.derive seed (.ofNat r)⟩).result with
      | error e => exact ⟨rfl, rfl⟩
      | ok outcome => exact ih (r + 1) _ rfl
    · exact ⟨rfl, rfl⟩

theorem evaluate_congr {ind ind' : Individual} (hind : ind.identity = ind'.identity) {p q : Playing}
    (h : p.deadline = q.deadline) :
    (ind.evaluate sim opponent repeats seed p).1 = (ind'.evaluate sim opponent repeats seed q).1 ∧
      (ind.evaluate sim opponent repeats seed p).2.deadline =
        (ind'.evaluate sim opponent repeats seed q).2.deadline := by
  obtain ⟨id, programs, fitness, evaluated, aborted⟩ := ind
  obtain ⟨id', programs', fitness', evaluated', aborted'⟩ := ind'
  cases hind
  unfold Individual.evaluate
  by_cases hrepeats : repeats < 1
  · rw [if_pos hrepeats, if_pos hrepeats]
    exact ⟨rfl, h⟩
  · rw [if_neg hrepeats, if_neg hrepeats]
    obtain ⟨hresult, hdeadline⟩ := playSeries_congr hsim opponent seed id programs repeats.toNat 0 {} h
    rcases hp : playSeries sim id programs opponent seed repeats.toNat 0 {} p with ⟨result, p'⟩
    rcases hq : playSeries sim id programs opponent seed repeats.toNat 0 {} q with ⟨result', q'⟩
    rw [hp, hq] at hresult hdeadline
    dsimp only at hresult
    subst hresult
    cases result with
    | error e => exact ⟨rfl, hdeadline⟩
    | ok totals => exact ⟨rfl, hdeadline⟩

/-- **Evaluating again gives the same**, whatever fitness values the individuals had and whatever was played. -/
theorem evaluateAll_congr {individuals cached : List Individual}
    (hinds : individuals.map (·.identity) = cached.map (·.identity)) {p q : Playing} (h : p.deadline = q.deadline) :
    (evaluateAll sim opponent repeats seed individuals p).1 = (evaluateAll sim opponent repeats seed cached q).1 ∧
      ((evaluateAll sim opponent repeats seed individuals p).1 = none →
        (evaluateAll sim opponent repeats seed individuals p).2.1 =
          (evaluateAll sim opponent repeats seed cached q).2.1) := by
  induction individuals generalizing cached p q with
  | nil =>
    cases List.map_eq_nil_iff.mp hinds.symm
    exact ⟨rfl, fun _ => rfl⟩
  | cons ind individuals ih =>
    obtain ⟨ind', rest, rfl, hind, hrest⟩ := List.map_eq_cons_iff.mp hinds.symm
    obtain ⟨hresult, hdeadline⟩ := evaluate_congr hsim opponent repeats seed hind.symm h
    rw [evaluateAll, evaluateAll]
    rcases hp : ind.evaluate sim opponent repeats seed p with ⟨result, p'⟩
    rcases hq : ind'.evaluate sim opponent repeats seed q with ⟨result', q'⟩
    rw [hp, hq] at hresult hdeadline
    dsimp only at hresult
    subst hresult
    -- Both evaluations fail here, or both go on with the same individual and the same deadline.
    cases result with
    | error e => exact ⟨rfl, fun hnone => by cases hnone⟩
    | ok evaluated =>
      obtain ⟨hfailure, hsame⟩ := ih hrest.symm hdeadline
      exact ⟨hfailure, fun hnone => congrArg (evaluated :: ·) (hsame hnone)⟩

end

/-! ## Populations that are alike -/

/-- The populations differ in the fitness values of their individuals, and in what was played, only. -/
structure Alike (p q : Population) : Prop where
  same : q = { p with individuals := q.individuals, played := q.played }
  individuals : q.individuals.map (·.identity) = p.individuals.map (·.identity)

/-- A generation that is not completed leaves a population that is alike. -/
theorem conclude_error {p : Population} {failure : Option EvaluationError} {individuals : List Individual}
    {playing : Playing} {e : EvolveError} (hinds : individuals.map (·.identity) = p.individuals.map (·.identity))
    (h : (p.conclude failure individuals playing).result = .error e) :
    Alike p (p.conclude failure individuals playing).population := by
  unfold Population.conclude at h ⊢
  dsimp only at h ⊢
  split at h
  · exact ⟨rfl, hinds⟩
  · exact ⟨rfl, hinds⟩
  · cases hnext : p.offspring _ _ with
    | error x => exact ⟨rfl, hinds⟩
    | ok next =>
      rw [hnext] at h
      cases h

section

variable {p q : Population} (h : Alike p q)

include h

/-- After the same evaluation, populations that are alike go on in the same way. -/
theorem Alike.conclude (failure : Option EvaluationError) (individuals : List Individual) (playing playing' : Playing) :
    (q.conclude failure individuals playing).Agrees (p.conclude failure individuals playing') := by
  obtain ⟨hresult, hpopulation⟩ := conclude_agrees p failure individuals playing playing'
  rw [h.same]
  exact ⟨hresult, hpopulation⟩

/-- Evaluation fails in the same way in populations that are alike, or gives the same. -/
theorem Alike.evaluateAll (hsim : p.simulator.Stateless) (deadline : Deadline) :
    let here := evaluateAll q.simulator q.opponent q.repeats q.matchSeed q.individuals ⟨q.played, deadline, []⟩
    let there := evaluateAll p.simulator p.opponent p.repeats p.matchSeed p.individuals ⟨p.played, deadline, []⟩
    here.1 = there.1 ∧ (here.1 = none → here.2.1 = there.2.1) := by
  have hsame := evaluateAll_congr hsim p.opponent p.repeats p.matchSeed h.individuals
    (p := ⟨q.played, deadline, []⟩) (q := ⟨p.played, deadline, []⟩) rfl
  rw [h.same]
  exact hsame

/-- **A generation of populations that are alike** fails in the same way, or completes in the same way. -/
theorem Alike.advance (hsim : p.simulator.Stateless) (deadline : Deadline) :
    (q.advance deadline).result = (p.advance deadline).result ∧
      ∀ g, (p.advance deadline).result = .ok g → (q.advance deadline).Agrees (p.advance deadline) := by
  obtain ⟨hfailure, hinds⟩ := h.evaluateAll hsim deadline
  rw [advance_eq, advance_eq]
  rcases hhere : Breeding.evaluateAll q.simulator q.opponent q.repeats q.matchSeed q.individuals
    ⟨q.played, deadline, []⟩ with ⟨failure, individuals, playing⟩
  rcases hthere : Breeding.evaluateAll p.simulator p.opponent p.repeats p.matchSeed p.individuals
    ⟨p.played, deadline, []⟩ with ⟨failure', individuals', playing'⟩
  rw [hhere, hthere] at hfailure hinds
  dsimp only at hfailure hinds ⊢
  subst hfailure
  cases failure with
  | some e => exact ⟨rfl, fun g hg => by cases hg⟩
  | none =>
    cases hinds rfl
    exact ⟨(h.conclude none individuals playing playing').result,
      fun _ _ => h.conclude none individuals playing playing'⟩

end

/-! ## Failures -/

/-- What is left of a population after a generation that failed: the same generation with the same individuals, and the
same best one; and, if the simulator keeps no state, a population that evolves as the one before would have. -/
structure Population.Retryable (p left : Population) : Prop where
  generation : left.generation = p.generation
  individuals : left.individuals.map (·.identity) = p.individuals.map (·.identity)
  best : left.best = p.best
  result : p.simulator.Stateless → ∀ (σ : Type) (observers : List (Observer σ)) (deadline : Deadline) (s : σ),
    (left.evolve observers deadline s).1.result = (p.evolve observers deadline s).1.result ∧
      (left.evolve observers deadline s).2 = (p.evolve observers deadline s).2
  next : p.simulator.Stateless → ∀ (σ : Type) (observers : List (Observer σ)) (deadline : Deadline) (s : σ),
    ∀ g, (p.advance deadline).result = .ok g →
      (left.evolve observers deadline s).1.population.unplayed = (p.evolve observers deadline s).1.population.unplayed

theorem Alike.retryable {p q : Population} (h : Alike p q) : p.Retryable q where
  generation := by rw [h.same]
  individuals := h.individuals
  best := by rw [h.same]
  result hsim σ observers deadline s := announce_result (h.advance hsim deadline).1 observers s
  next hsim σ observers deadline s g hg := by
    rw [evolve_eq, evolve_eq, announce_population, announce_population]
    exact ((h.advance hsim deadline).2 g hg).population

/-- An attempt that fails otherwise than by an observer has failed before any of them was told. -/
theorem announce_error {σ : Type} {a : Attempt} {observers : List (Observer σ)} {s : σ} {e : EvolveError}
    (he : ∀ generation message, e ≠ .observer generation message)
    (h : (a.announce observers s).1.result = .error e) : a.result = .error e ∧ (a.announce observers s).2 = s := by
  unfold Attempt.announce at h ⊢
  cases ha : a.result with
  | error x =>
    simp only [ha] at h
    exact ⟨h, rfl⟩
  | ok g =>
    simp only [ha] at h
    rcases hrun : (notify g observers).run s with ⟨_ | _, s'⟩
    · rw [hrun] at h
      cases h
      exact absurd rfl (he _ _)
    · rw [hrun] at h
      rw [ha] at h
      cases h

/-- The trials of the current generation can come to `g` if they may be called off at any moment. -/
def Population.Disturbed (p : Population) (workers : Int) (g : Trials) : Prop :=
  ReflTransGen (fun g g' => Trials.Next p.course (workerCount workers) g g' ∨ g' = { g with calledOff := true })
    p.trials g

theorem Population.Disturbed.identities {p : Population} {workers : Int} {g : Trials} (h : p.Disturbed workers g) :
    g.individuals.map (·.identity) = p.individuals.map (·.identity) := by
  induction h with
  | refl =>
    change ((p.individuals.map _).map _).map _ = _
    rw [List.map_map, List.map_map]
    rfl
  | tail _ hstep ih =>
    rcases hstep with hnext | rfl
    · exact (identities_next hnext).trans ih
    · exact ih

/-- **A failed generation can be tried again.** If an evolution fails before its observers are told, whether its
individuals are evaluated in order or by a schedule that may be called off at any moment, the population has the same
generation, individuals and best individual as before, and can be evolved as if the attempt had not been made. -/
theorem failed_retryable (p : Population) {σ : Type} (observers : List (Observer σ)) (s : σ) (e : EvolveError)
    (he : ∀ generation message, e ≠ .observer generation message) :
    (∀ deadline, (p.evolve observers deadline s).1.result = .error e →
      p.Retryable (p.evolve observers deadline s).1.population ∧ (p.evolve observers deadline s).2 = s) ∧
    ∀ workers g, p.Disturbed workers g → (p.evolveAfter g observers s).1.result = .error e →
      p.Retryable (p.evolveAfter g observers s).1.population ∧ (p.evolveAfter g observers s).2 = s := by
  refine ⟨fun deadline h => ?_, fun workers g hg h => ?_⟩
  · obtain ⟨hresult, hstate⟩ := announce_error he h
    have hidentities := map_evaluateAll (f := (·.identity)) (fun _ _ _ _ => rfl) p.simulator p.opponent p.repeats
      p.matchSeed p.individuals ⟨p.played, deadline, []⟩
    rw [evolve_eq, announce_population]
    exact ⟨(conclude_error hidentities hresult).retryable, hstate⟩
  · obtain ⟨hresult, hstate⟩ := announce_error he h
    unfold Population.evolveAfter
    rw [announce_population]
    exact ⟨(conclude_error hg.identities hresult).retryable, hstate⟩

theorem failed_retryable_census :
    (((counted [[.idle], [.idle]]).evolve [] (some 1) ()).1.result = .error (.evaluation .canceled) ∧
      ((counted [[.idle], [.idle]]).evolve [] (some 1) ()).1.population.individuals.map (·.fitness) = [1, 0] ∧
      ∃ g, ((counted [[.idle], [.idle]]).evolve [] .never ()).1.result = .ok g ∧
        (((counted [[.idle], [.idle]]).evolve [] (some 1) ()).1.population.evolve [] .never ()).1.result = .ok g) ∧
    ∃ g, (counted [[.idle], [.idle]]).Disturbed 1 g ∧ g.Ended ∧
      ((counted [[.idle], [.idle]]).evolveAfter g [] ()).1.result = .error (.evaluation .canceled) ∧
      (counted [[.idle], [.idle]]).Retryable ((counted [[.idle], [.idle]]).evolveAfter g [] ()).1.population := by
  obtain ⟨horder, hdisturbed⟩ :=
    failed_retryable (counted [[.idle], [.idle]]) [] () (.evaluation .canceled) nofun
  refine ⟨⟨rfl, rfl, ?_⟩, ?_⟩
  · have hidle : ∀ ind ∈ (counted [[.idle], [.idle]]).individuals, IsIdle 1 ind :=
      List.forall_mem_cons.mpr ⟨⟨rfl, by simp⟩, List.forall_mem_singleton.mpr ⟨rfl, by simp⟩⟩
    obtain ⟨g, hg, -⟩ := advance_idle (p := counted [[.idle], [.idle]]) Nat.one_pos responds_census
      Selector.sure_roulette (by simp [counted]) (by decide) (by simp [counted]) hidle
    have hevolve : ((counted [[.idle], [.idle]]).evolve [] .never ()).1.result = .ok g := by
      rw [evolve_nil]
      exact hg
    have hretry := (horder (some 1) rfl).1.result (fun _ _ _ _ => rfl) Unit [] .never ()
    exact ⟨g, hevolve, hretry.1.trans hevolve⟩
  · -- The trials are called off between the first and the second.
    have hschedule : ∃ g, (counted [[.idle], [.idle]]).Disturbed 1 g ∧ g.Ended ∧ g.failure = some .canceled := by
      refine ⟨_,
        .head (.inl (next_of_move [] rfl (fun _ => ⟨by simp, by decide⟩) (.begin (by decide)))) <|
        .head (.inl (next_of_move [] rfl nofun (.enter (by decide) rfl))) <|
        .head (.inl (next_of_move [] rfl nofun (.finish rfl))) <|
        .head (.inr rfl) <|
        .head (.inl (next_of_move [] rfl nofun (.record (by decide)))) <|
        .head (.inl (next_of_move [_] rfl (fun _ => ⟨by simp, by decide⟩) (.begin (by decide)))) <|
        .head (.inl (next_of_move [_] rfl nofun (.stop (by decide) rfl))) .refl, ?_, rfl⟩
      exact List.forall_mem_cons.mpr ⟨rfl, List.forall_mem_singleton.mpr rfl⟩
    obtain ⟨g, hg, hended, hfailure⟩ := hschedule
    have hresult : ((counted [[.idle], [.idle]]).evolveAfter g [] ()).1.result = .error (.evaluation .canceled) := by
      rw [Population.evolveAfter, hfailure]
      rfl
    exact ⟨g, hg, hended, hresult, (hdisturbed 1 g hg hresult).1⟩

end Forager.Breeding
