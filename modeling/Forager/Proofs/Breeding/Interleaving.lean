import Mathlib.Data.List.Forall2
import Forager.Proofs.Breeding.Schedule

/-!
# All schedules agree

If the result of a match depends on the match alone, it does not matter in which order the matches of a generation are
played: no trial sees what another one does, as long as none fails.

* `Simulator.Plays s f` : a simulator whose matches have the results `f`; `plays_forage` : the forage arena is one;
* `Course.alone c ind` : the evaluation of an individual on its own;
* `OnCourse` : where a trial can be if nothing has failed yet; `Fair` : the invariant of all schedules
  (`Fair.schedules`);
* `Population.evolveAfter` : the rest of an evolution after a schedule;
* `schedules_agree` : every schedule ends as the evaluation in order does.
-/

namespace Forager

set_option autoImplicit false

/-- A simulator whose matches have the results `f`, however many it has played before, if they are not called off. -/
def Simulator.Plays (s : Simulator) (f : Match → Except MatchError Outcome) : Prop :=
  ∀ before m, (s.play before .never m).result = f m ∧ (s.play before .never m).deadline = .never

namespace Arena

theorem playFrom_deadline (fuel steps : Nat) (w : World) : (playFrom fuel steps w .never).deadline = .never := by
  induction fuel generalizing steps w with
  | zero => rfl
  | succ fuel ih =>
    have hlook : (if steps % lookInterval = 0 then Deadline.never.look else (false, .never)) = (false, .never) := by
      split <;> rfl
    rw [playFrom, hlook]
    split
    · rfl
    · simp only [Bool.false_eq_true, if_false]
      split
      · exact ih _ _
      · rfl

/-- The forage arena plays every match to a result of its own. -/
theorem plays_forage (c : Config) :
    (forage c).Plays fun m => (playMatch c.withDefaults .never m).result := by
  intro before m
  refine ⟨rfl, ?_⟩
  change (playMatch c.withDefaults .never m).deadline = .never
  unfold playMatch
  split
  · rfl
  · dsimp only
    split
    · rfl
    · split <;> exact playFrom_deadline _ _ _

end Arena

namespace Breeding

open Program (Expr)
open Relation (ReflTransGen)

/-! ## One individual on its own -/

/-- The evaluation of an individual on its own, without a deadline. -/
def Course.alone (c : Course) (ind : Individual) : Except EvaluationError Individual :=
  (ind.evaluate c.simulator c.opponent c.repeats c.seed {}).1

/-- The totals after `count` more matches from match `r` on, if these have the results `f`. -/
def Course.series (c : Course) (f : Match → Except MatchError Outcome) (ind : Individual) :
    (count r : Nat) → Totals → Except EvaluationError Totals
  | 0, _, totals => .ok totals
  | count + 1, r, totals =>
    match f (c.fixture ind.programs r) with
    | .error e => .error (.failed ind.id e)
    | .ok outcome => c.series f ind count (r + 1) (totals.add outcome)

section

variable {c : Course} {f : Match → Except MatchError Outcome}

theorem playSeries_eq (hsim : c.simulator.Plays f) (ind : Individual) (count r : Nat) (totals : Totals) (p : Playing)
    (hp : p.deadline = .never) :
    ∃ p', playSeries c.simulator ind.id ind.programs c.opponent c.seed count r totals p =
      (c.series f ind count r totals, p') ∧ p'.deadline = .never := by
  induction count generalizing r totals p with
  | zero => exact ⟨p, rfl, hp⟩
  | succ count ih =>
    obtain ⟨hresult, hdeadline⟩ := hsim p.before (c.fixture ind.programs r)
    unfold Course.fixture at hresult hdeadline
    rw [playSeries, hp]
    simp only [Deadline.never, Deadline.look] at hresult hdeadline ⊢
    rw [Course.series, hresult]
    unfold Course.fixture
    cases f ⟨ind.programs, c.opponent, Chance.derive c.seed (.ofNat r)⟩ with
    | error e => exact ⟨_, rfl, hdeadline⟩
    | ok outcome => exact ih (r + 1) _ _ hdeadline

/-- What an evaluation without a deadline comes to does not depend on what was played before. -/
theorem evaluate_eq_alone (hsim : c.simulator.Plays f) (ind : Individual) (p : Playing) (hp : p.deadline = .never) :
    ∃ p', ind.evaluate c.simulator c.opponent c.repeats c.seed p = (c.alone ind, p') ∧ p'.deadline = .never := by
  unfold Course.alone Individual.evaluate
  split
  · exact ⟨p, rfl, hp⟩
  · obtain ⟨p', hplay, hp'⟩ := playSeries_eq hsim ind c.repeats.toNat 0 {} p hp
    obtain ⟨q, halone, -⟩ := playSeries_eq hsim ind c.repeats.toNat 0 {} {} rfl
    rw [hplay, halone]
    cases c.series f ind c.repeats.toNat 0 {} with
    | error e => exact ⟨p', rfl, hp'⟩
    | ok totals => exact ⟨p', rfl, hp'⟩

theorem alone_eq (hsim : c.simulator.Plays f) (hrepeats : 1 ≤ c.repeats) (ind : Individual) :
    c.alone ind = (c.series f ind c.rounds 0 {}).map (ind.record c.repeats) := by
  obtain ⟨q, halone, -⟩ := playSeries_eq hsim ind c.rounds 0 {} {} rfl
  unfold Course.alone Individual.evaluate
  rw [if_neg (by omega), ← Course.rounds, halone]
  cases c.series f ind c.rounds 0 {} <;> rfl

theorem alone_of_no_repeats (h : c.repeats < 1) (ind : Individual) : c.alone ind = .error .noRepeats := by
  unfold Course.alone Individual.evaluate
  rw [if_pos h]

/-- Individuals that can be evaluated on their own can be evaluated in order. -/
theorem evaluateAll_of_alone (hsim : c.simulator.Plays f) {individuals evaluated : List Individual}
    (h : List.Forall₂ (fun ind ind' => c.alone ind = .ok ind') individuals evaluated) (p : Playing)
    (hp : p.deadline = .never) :
    ∃ p', evaluateAll c.simulator c.opponent c.repeats c.seed individuals p = (none, evaluated, p') ∧
      p'.deadline = .never := by
  induction h generalizing p with
  | nil => exact ⟨p, rfl, hp⟩
  | cons hind _ ih =>
    obtain ⟨q, hone, hq⟩ := evaluate_eq_alone hsim _ p hp
    obtain ⟨p', hrest, hp'⟩ := ih q hq
    refine ⟨p', ?_, hp'⟩
    rw [evaluateAll, hone, hind]
    dsimp only
    rw [hrest]

end

/-! ## Trials that are not called off -/

/-- A trial of an individual that has gone as the evaluation of the individual on its own goes. -/
inductive OnCourse (c : Course) (f : Match → Except MatchError Outcome) (ind : Individual) : Trial → Prop where
  | waiting : OnCourse c f ind ⟨ind, .waiting⟩
  | ready {r : Nat} {totals : Totals} (hrepeats : 1 ≤ c.repeats) (hr : r ≤ c.rounds)
      (h : c.series f ind (c.rounds - r) r totals = c.series f ind c.rounds 0 {}) :
      OnCourse c f ind ⟨ind, .ready r totals⟩
  | playing {r : Nat} {totals : Totals} (hrepeats : 1 ≤ c.repeats) (hr : r < c.rounds)
      (h : c.series f ind (c.rounds - r) r totals = c.series f ind c.rounds 0 {}) :
      OnCourse c f ind ⟨ind, .playing r totals⟩
  | done {ind' : Individual} (h : c.alone ind = .ok ind') : OnCourse c f ind ⟨ind', .done⟩

section

variable {c : Course} {f : Match → Except MatchError Outcome} (hsim : c.simulator.Plays f)

include hsim

/-- A move of a trial that was not called off keeps it on course, or shows that the individual fails on its own. -/
theorem OnCourse.move {ind : Individual} {t : Trial} {before : Nat} {m : Move} (h : OnCourse c f ind t)
    (hmove : t.Moves c false before .never m) :
    m.error = none ∧ OnCourse c f ind m.trial ∨ ∃ e, m.error = some e ∧ c.alone ind = .error e := by
  -- What is left of a series after one of its matches.
  have hnext : ∀ {r : Nat} {totals : Totals}, r < c.rounds →
      c.series f ind (c.rounds - r) r totals =
        match f (c.fixture ind.programs r) with
        | .error e => .error (.failed ind.id e)
        | .ok outcome => c.series f ind (c.rounds - (r + 1)) (r + 1) (totals.add outcome) := by
    intro r totals hr
    rw [show c.rounds - r = c.rounds - (r + 1) + 1 by omega, Course.series]
  cases h with
  | waiting =>
    cases hmove with
    | refuse hrepeats => exact .inr ⟨_, rfl, alone_of_no_repeats hrepeats ind⟩
    | begin hrepeats => exact .inl ⟨rfl, .ready hrepeats (Nat.zero_le _) rfl⟩
  | ready hrepeats hr hseries =>
    cases hmove with
    | stop _ hoff => cases hoff
    | enter hlt _ => exact .inl ⟨rfl, .playing hrepeats hlt hseries⟩
    | record hlast =>
      refine .inl ⟨rfl, .done ?_⟩
      rw [alone_eq hsim hrepeats, ← hseries, Nat.sub_eq_zero_of_le hlast]
      rfl
  | playing hrepeats hr hseries =>
    rw [hnext hr] at hseries
    cases hmove with
    | lose hplay =>
      rw [(hsim _ _).1] at hplay
      rw [hplay] at hseries
      refine .inr ⟨_, rfl, ?_⟩
      rw [alone_eq hsim hrepeats, ← hseries]
      rfl
    | finish hplay =>
      rw [(hsim _ _).1] at hplay
      rw [hplay] at hseries
      exact .inl ⟨rfl, .ready hrepeats hr hseries⟩
  | done _ => cases hmove

end

/-! ## Schedules -/

/-- What holds throughout a schedule: trials are called off only after a failure, up to which all are on course; and a
failure is that of an individual which fails on its own. -/
structure Fair (c : Course) (f : Match → Except MatchError Outcome) (individuals : List Individual) (g : Trials) :
    Prop where
  calledOff : g.calledOff = g.failure.isSome
  onCourse : g.failure = none → List.Forall₂ (OnCourse c f) individuals g.trials
  failure : ∀ e, g.failure = some e → ∃ ind ∈ individuals, c.alone ind = .error e

theorem forall₂_split {α β : Type} {R : α → β → Prop} {as : List α} {pre post : List β} {b : β}
    (h : List.Forall₂ R as (pre ++ b :: post)) :
    ∃ l a r, as = l ++ a :: r ∧ List.Forall₂ R l pre ∧ R a b ∧ List.Forall₂ R r post := by
  induction pre generalizing as with
  | nil =>
    obtain ⟨a, r, hab, hr, rfl⟩ := List.forall₂_cons_right_iff.mp h
    exact ⟨[], a, r, rfl, .nil, hab, hr⟩
  | cons p pre ih =>
    obtain ⟨a₀, rest, hp, hrest, rfl⟩ := List.forall₂_cons_right_iff.mp h
    obtain ⟨l, a, r, rfl, hl, hab, hr⟩ := ih hrest
    exact ⟨a₀ :: l, a, r, rfl, .cons hp hl, hab, hr⟩

section

variable {c : Course} {f : Match → Except MatchError Outcome} {individuals : List Individual} {g g' : Trials}

theorem Fair.next (hsim : c.simulator.Plays f) {workers : Nat} (h : Fair c f individuals g)
    (hnext : Trials.Next c workers g g') : Fair c f individuals g' := by
  obtain ⟨pre, t, post, deadline, m, htrials, -, hdeadline, hmove, rfl⟩ := hnext
  have hcalledOff : (g.calledOff || m.error.isSome) = (g.failure.or m.error).isSome := by
    rw [h.calledOff, Option.isSome_or]
  cases hfailure : g.failure with
  | some e =>
    -- After the first failure nothing but the trials changes.
    have hsame : (g.after pre m post).failure = some e := by
      change g.failure.or m.error = _
      rw [hfailure, Option.some_or]
    refine ⟨hcalledOff, fun hnone => ?_, fun e' he' => ?_⟩
    · rw [hsame] at hnone
      cases hnone
    · rw [hsame] at he'
      cases he'
      exact h.failure e hfailure
  | none =>
    have hoff : g.calledOff = false := by rw [h.calledOff, hfailure]; rfl
    have herror : (g.after pre m post).failure = m.error := by
      change g.failure.or m.error = _
      rw [hfailure, Option.none_or]
    rw [hoff, hdeadline hoff] at hmove
    have hcourse := h.onCourse hfailure
    rw [htrials] at hcourse
    obtain ⟨l, ind, r, rfl, hl, hind, hr⟩ := forall₂_split hcourse
    rcases hind.move hsim hmove with ⟨hnone, hmoved⟩ | ⟨e, he, halone⟩
    · refine ⟨hcalledOff, fun _ => List.rel_append hl (.cons hmoved hr), fun e he => ?_⟩
      rw [herror, hnone] at he
      cases he
    · refine ⟨hcalledOff, fun hnone => ?_, fun e' he' => ?_⟩
      · rw [herror, he] at hnone
        cases hnone
      · rw [herror, he] at he'
        cases he'
        exact ⟨ind, by simp, halone⟩

theorem Fair.schedules (hsim : c.simulator.Plays f) {workers : Nat} (h : Fair c f individuals g)
    (hschedule : ReflTransGen (Trials.Next c workers) g g') : Fair c f individuals g' := by
  induction hschedule with
  | refl => exact h
  | tail _ hnext ih => exact ih.next hsim hnext

/-- Once all trials have ended without a failure, each has come to what the individual comes to on its own. -/
theorem Fair.alone_of_ended (h : Fair c f individuals g) (hended : g.Ended) (hfailure : g.failure = none) :
    List.Forall₂ (fun ind ind' => c.alone ind = .ok ind') individuals g.individuals := by
  have hdone : ∀ ind, ∀ t ∈ g.trials, OnCourse c f ind t → c.alone ind = .ok t.individual := by
    intro ind t ht hcourse
    have hphase := hended t ht
    cases hcourse with
    | waiting => cases hphase
    | ready => cases hphase
    | playing => cases hphase
    | done halone => exact halone
  rw [Trials.individuals, List.forall₂_map_right_iff]
  refine List.forall₂_iff_zip.mpr ⟨(h.onCourse hfailure).length_eq, fun hmem => ?_⟩
  exact hdone _ _ (List.of_mem_zip hmem).2 (List.forall₂_zip (h.onCourse hfailure) hmem)

/-- If every individual can be evaluated on its own, no schedule fails. -/
theorem Fair.failure_eq_none (h : Fair c f individuals g)
    (hall : ∀ ind ∈ individuals, ∃ ind', c.alone ind = .ok ind') : g.failure = none := by
  cases hfailure : g.failure with
  | none => rfl
  | some e =>
    obtain ⟨ind, hind, he⟩ := h.failure e hfailure
    obtain ⟨ind', hok⟩ := hall ind hind
    rw [he] at hok
    cases hok

/-- If some individual fails on its own, every schedule fails like such an individual. -/
theorem Fair.exists_failure (h : Fair c f individuals g) (hended : g.Ended)
    (hsome : ∃ ind ∈ individuals, ∃ e, c.alone ind = .error e) :
    ∃ e, g.failure = some e ∧ ∃ ind ∈ individuals, c.alone ind = .error e := by
  cases hfailure : g.failure with
  | some e => exact ⟨e, rfl, h.failure e hfailure⟩
  | none =>
    obtain ⟨ind, hind, e, he⟩ := hsome
    obtain ⟨pre, post, rfl⟩ := List.append_of_mem hind
    obtain ⟨-, ind', -, -, -, hok, -⟩ := forall₂_split (h.alone_of_ended hended hfailure).flip
    rw [he] at hok
    cases hok

end

/-! ## Populations -/

/-- What comes of a generation after its evaluation: a failure, or a summary and the next generation. -/
def Population.conclude (p : Population) (failure : Option EvaluationError) (individuals : List Individual)
    (playing : Playing) : Attempt :=
  let evaluated := { p with individuals, played := playing.before }
  match failure, individuals with
  | some e, _ => ⟨.error (.evaluation e), evaluated, playing.deadline, playing.journal⟩
  | none, [] => ⟨.error (.selection .noIndividuals), evaluated, playing.deadline, playing.journal⟩
  | none, first :: others =>
    match p.offspring first others with
    | .error e => ⟨.error e, evaluated, playing.deadline, playing.journal⟩
    | .ok next =>
      let g := summarize p.generation p.repeats first others
      { result := .ok g
        population := { evaluated with
          individuals := next
          generation := p.generation + 1
          best := some (Population.improve p.best g.fittest) }
        deadline := playing.deadline
        journal := playing.journal ++ g.entries }

/-- Tells the observers of an attempt that has succeeded. -/
def Attempt.announce {σ : Type} (a : Attempt) (observers : List (Observer σ)) (s : σ) : Attempt × σ :=
  match a.result with
  | .error _ => (a, s)
  | .ok g =>
    match (notify g observers).run s with
    | (.ok (), s) => (a, s)
    | (.error message, s) => ({ a with result := .error (.observer g.index message) }, s)

theorem advance_eq (p : Population) (deadline : Deadline) :
    p.advance deadline =
      let evaluation := evaluateAll p.simulator p.opponent p.repeats p.matchSeed p.individuals ⟨p.played, deadline, []⟩
      p.conclude evaluation.1 evaluation.2.1 evaluation.2.2 := rfl

theorem evolve_eq (p : Population) {σ : Type} (observers : List (Observer σ)) (deadline : Deadline) (s : σ) :
    p.evolve observers deadline s = (p.advance deadline).announce observers s := rfl

/-- The population, with a simulator that has played nothing yet. -/
def Population.unplayed (p : Population) : Population := { p with played := 0 }

/-- Two attempts that end in the same way, and leave the same population up to what was played. -/
structure Attempt.Agrees (a b : Attempt) : Prop where
  result : a.result = b.result
  population : a.population.unplayed = b.population.unplayed

theorem conclude_agrees (p : Population) (failure : Option EvaluationError) (individuals : List Individual)
    (playing playing' : Playing) :
    (p.conclude failure individuals playing).Agrees (p.conclude failure individuals playing') := by
  unfold Population.conclude
  dsimp only
  split
  · exact ⟨rfl, rfl⟩
  · exact ⟨rfl, rfl⟩
  · split <;> exact ⟨rfl, rfl⟩

theorem announce_population {σ : Type} (a : Attempt) (observers : List (Observer σ)) (s : σ) :
    (a.announce observers s).1.population = a.population := by
  unfold Attempt.announce
  split
  · rfl
  · split <;> rfl

/-- Observers are told the same about attempts that end in the same way. -/
theorem announce_result {σ : Type} {a b : Attempt} (h : a.result = b.result) (observers : List (Observer σ)) (s : σ) :
    (a.announce observers s).1.result = (b.announce observers s).1.result ∧
      (a.announce observers s).2 = (b.announce observers s).2 := by
  unfold Attempt.announce
  cases ha : a.result with
  | error e =>
    have hb : b.result = .error e := h.symm.trans ha
    simp only [hb, ha, and_self]
  | ok g =>
    have hb : b.result = .ok g := h.symm.trans ha
    simp only [hb]
    split
    · exact ⟨h, rfl⟩
    · exact ⟨rfl, rfl⟩

/-- How many workers there are: at least one. -/
def workerCount (workers : Int) : Nat := if workers ≤ 0 then 1 else workers.toNat

/-- What the individuals of the current generation are evaluated by. -/
def Population.course (p : Population) : Course := ⟨p.simulator, p.opponent, p.repeats, p.matchSeed⟩

/-- The trials of the current generation before any has begun. -/
def Population.trials (p : Population) : Trials where
  trials := p.individuals.map (⟨·, .waiting⟩)
  played := p.played

/-- The trials of the current generation can come to `g`. -/
def Population.Schedules (p : Population) (workers : Int) (g : Trials) : Prop :=
  ReflTransGen (Trials.Next p.course (workerCount workers)) p.trials g

/-- The rest of an evolution whose trials have come to `g`. -/
def Population.evolveAfter {σ : Type} (p : Population) (g : Trials) (observers : List (Observer σ)) (s : σ) :
    Attempt × σ :=
  (p.conclude g.failure g.individuals ⟨g.played, .never, []⟩).announce observers s

theorem fair_trials (p : Population) (f : Match → Except MatchError Outcome) :
    Fair p.course f p.individuals p.trials where
  calledOff := rfl
  onCourse _ := by
    change List.Forall₂ _ _ (p.individuals.map _)
    rw [List.forall₂_map_right_iff, List.forall₂_same]
    exact fun ind _ => .waiting
  failure e he := by cases he

section

variable {p : Population} {workers : Int} {f : Match → Except MatchError Outcome} {g : Trials}

theorem Population.Schedules.fair (h : p.Schedules workers g) (hsim : p.simulator.Plays f) :
    Fair p.course f p.individuals g := (fair_trials p f).schedules hsim h

/-- If all individuals can be evaluated on their own, a schedule ends with what the evaluation in order gives. -/
theorem evaluateAll_of_schedules (hsim : p.simulator.Plays f) (h : p.Schedules workers g) (hended : g.Ended)
    (hfailure : g.failure = none) :
    ∃ playing, evaluateAll p.simulator p.opponent p.repeats p.matchSeed p.individuals ⟨p.played, .never, []⟩ =
      (none, g.individuals, playing) := by
  have halone := (h.fair hsim).alone_of_ended hended hfailure
  obtain ⟨playing, hall, -⟩ := evaluateAll_of_alone (c := p.course) hsim halone ⟨p.played, .never, []⟩ rfl
  exact ⟨playing, hall⟩

end

/-- **All schedules agree.** Let the result of a match depend on the match alone. However many workers there are,
every schedule ends, never with more active trials than workers. If every individual can be evaluated on its own, all
schedules come to the same fitness values and counts as the evaluation in order, and so to the same generation, the
same messages to observers and the same next population. If some individual fails on its own, every schedule fails,
with the error of such an individual. -/
theorem schedules_agree (p : Population) (workers : Int) (f : Match → Except MatchError Outcome)
    (hsim : p.simulator.Plays f) :
    (WellFounded fun g' g => Trials.Next p.course (workerCount workers) g g') ∧
    (∀ g, p.Schedules workers g → g.active ≤ workerCount workers ∧
      (g.Ended ∨ ∃ g', Trials.Next p.course (workerCount workers) g g')) ∧
    ((∀ ind ∈ p.individuals, ∃ ind', p.course.alone ind = .ok ind') →
      ∀ g, p.Schedules workers g → g.Ended →
        (∃ playing, evaluateAll p.simulator p.opponent p.repeats p.matchSeed p.individuals ⟨p.played, .never, []⟩ =
          (g.failure, g.individuals, playing)) ∧ g.failure = none ∧
        ∀ (σ : Type) (observers : List (Observer σ)) (s : σ),
          (p.evolveAfter g observers s).1.result = (p.evolve observers .never s).1.result ∧
          (p.evolveAfter g observers s).1.population.unplayed = (p.evolve observers .never s).1.population.unplayed ∧
          (p.evolveAfter g observers s).2 = (p.evolve observers .never s).2) ∧
    ((∃ ind ∈ p.individuals, ∃ e, p.course.alone ind = .error e) →
      ∀ g, p.Schedules workers g → g.Ended →
        ∃ e, (∃ ind ∈ p.individuals, p.course.alone ind = .error e) ∧
        ∀ (σ : Type) (observers : List (Observer σ)) (s : σ),
          (p.evolveAfter g observers s).1.result = .error (.evaluation e)) := by
  have hworkers : 0 < workerCount workers := by
    unfold workerCount
    split <;> omega
  refine ⟨next_wellFounded _ _, fun g hg => ⟨active_le ?_ hg, ?_⟩, fun hall g hg hended => ?_,
    fun hsome g hg hended => ?_⟩
  · have hidle : p.trials.active = 0 := List.countP_eq_zero.mpr fun t ht => by
      obtain ⟨ind, -, rfl⟩ := List.mem_map.mp ht
      simp [Phase.isActive]
    omega
  · exact or_iff_not_imp_left.mpr (exists_next p.course hworkers)
  · have hfailure := (hg.fair hsim).failure_eq_none hall
    obtain ⟨playing, horder⟩ := evaluateAll_of_schedules hsim hg hended hfailure
    refine ⟨⟨playing, by rw [horder, hfailure]⟩, hfailure, fun σ observers s => ?_⟩
    have hagrees := conclude_agrees p none g.individuals ⟨g.played, .never, []⟩ playing
    rw [evolve_eq, advance_eq, horder, Population.evolveAfter, hfailure]
    obtain ⟨hresult, hstate⟩ := announce_result hagrees.result observers s
    refine ⟨hresult, ?_, hstate⟩
    rw [announce_population, announce_population]
    exact hagrees.population
  · obtain ⟨e, hfailure, halone⟩ := (hg.fair hsim).exists_failure hended hsome
    refine ⟨e, halone, fun σ observers s => ?_⟩
    rw [Population.evolveAfter, hfailure]
    rfl

/-- A simulator that counts the programs of a team, which must have one. -/
def census : Simulator where
  name := "census"
  play _ deadline m :=
    ⟨if m.team.isEmpty then .error .noPrograms else .ok ⟨Float.ofNat m.team.length, none, false, none⟩, deadline, []⟩

def counted (teams : List (List Expr)) : Population where
  simulator := census
  opponent := []
  rate := 0
  repeats := 1
  seed := 7
  selector := .roulette
  individuals := teams.map fun programs => { id := "team", programs }

theorem plays_census : census.Plays fun m =>
    if m.team.isEmpty then .error .noPrograms else .ok ⟨Float.ofNat m.team.length, none, false, none⟩ :=
  fun _ _ => ⟨rfl, rfl⟩

theorem responds_census : Responds census := by
  intro before m hne _ _
  refine ⟨⟨Float.ofNat m.team.length, none, false, none⟩, [], ?_⟩
  change (⟨if m.team.isEmpty then _ else _, _, _⟩ : Reply) = _
  rw [if_neg (by simpa using hne)]

theorem schedules_agree_census :
    (∃ g, (counted [[.idle], [.idle, .idle]]).Schedules 2 g ∧ g.Ended ∧
      (g.individuals.map fun ind => (ind.fitness, ind.aborted)) = [(1, 0), (2, 0)] ∧
      ((counted [[.idle], [.idle, .idle]]).evolveAfter g [] ()).1.result =
        ((counted [[.idle], [.idle, .idle]]).evolve [] .never ()).1.result) ∧
    ∀ g, (counted [[.idle], []]).Schedules 2 g → g.Ended →
      ∃ e, ((counted [[.idle], []]).evolveAfter g [] ()).1.result = .error (.evaluation e) := by
  obtain ⟨-, -, hagree, -⟩ := schedules_agree (counted [[.idle], [.idle, .idle]]) 2 _ plays_census
  obtain ⟨-, -, -, hfail⟩ := schedules_agree (counted [[.idle], []]) 2 _ plays_census
  refine ⟨?_, fun g hg hended => ?_⟩
  · -- The second trial overtakes the first.
    have hschedule : ∃ g, (counted [[.idle], [.idle, .idle]]).Schedules 2 g ∧ g.Ended ∧
        (g.individuals.map fun ind => (ind.fitness, ind.aborted)) = [(1, 0), (2, 0)] := by
      refine ⟨_,
        .head (next_of_move [] rfl (fun _ => ⟨by simp, by decide⟩) (.begin (by decide))) <|
        .head (next_of_move [_] rfl (fun _ => ⟨by simp, by decide⟩) (.begin (by decide))) <|
        .head (next_of_move [_] rfl nofun (.enter (by decide) rfl)) <|
        .head (next_of_move [] rfl nofun (.enter (by decide) rfl)) <|
        .head (next_of_move [_] rfl nofun (.finish rfl)) <|
        .head (next_of_move [_] rfl nofun (.record (by decide))) <|
        .head (next_of_move [] rfl nofun (.finish rfl)) <|
        .head (next_of_move [] rfl nofun (.record (by decide))) .refl, ?_, rfl⟩
      exact List.forall_mem_cons.mpr ⟨rfl, List.forall_mem_singleton.mpr rfl⟩
    have halone : ∀ ind ∈ (counted [[.idle], [.idle, .idle]]).individuals,
        ∃ ind', (counted [[.idle], [.idle, .idle]]).course.alone ind = .ok ind' :=
      List.forall_mem_cons.mpr ⟨⟨_, rfl⟩, List.forall_mem_singleton.mpr ⟨_, rfl⟩⟩
    obtain ⟨g, hg, hended, hfitness⟩ := hschedule
    obtain ⟨-, -, hsame⟩ := hagree halone g hg hended
    exact ⟨g, hg, hended, hfitness, (hsame Unit [] ()).1⟩
  · obtain ⟨e, -, hresult⟩ := hfail ⟨_, List.mem_cons_of_mem _ List.mem_cons_self, _, rfl⟩ g hg hended
    exact ⟨e, hresult Unit [] ()⟩

end Breeding

end Forager
