import Mathlib.Algebra.Order.BigOperators.Group.List
import Mathlib.Logic.Relation
import Forager.Proofs.Breeding.Lineup

/-!
# Evaluation by several workers

The individuals of a generation may be evaluated side by side. Each has a trial of its own, which plays one match after
the other and then records the fitness of the individual. Trials are started in order, and no more than a given number
are active at a time. The first that fails calls all of them off: the others fail when they next look, or go on if they
do not look again.

* `Trial.Moves` : what a trial does next; `Trials.Next` : some trial makes its next move;
* `next_wellFounded` : moves come to an end; `exists_next` : and they do so only when all trials have ended;
* `active_le` : no more trials are active than there are workers;
* `identities_next` : no move changes which individuals are evaluated.
-/

namespace Forager.Breeding

set_option autoImplicit false

open Program (Expr)
open Relation (ReflTransGen)

/-! ## Trials -/

/-- What all trials of an evaluation have in common. -/
structure Course where
  simulator : Simulator
  opponent : List Expr
  repeats : Int
  seed : Int64

def Course.rounds (c : Course) : Nat := c.repeats.toNat

/-- Match `r` of a team. -/
def Course.fixture (c : Course) (team : List Expr) (r : Nat) : Match :=
  ⟨team, c.opponent, Chance.derive c.seed (.ofNat r)⟩

def Totals.add (totals : Totals) (outcome : Outcome) : Totals :=
  ⟨totals.fitness + outcome.fitness, if outcome.aborted then totals.aborted + 1 else totals.aborted⟩

/-- The individual with what its matches came to. -/
def Individual.record (ind : Individual) (repeats : Int) (totals : Totals) : Individual :=
  { ind with fitness := totals.fitness / Float.ofInt repeats, evaluated := true, aborted := totals.aborted }

inductive Phase where
  /-- It begins. -/
  | waiting
  /-- It looks whether it was called off and enters match `r`, or records the totals if that was the last. -/
  | ready (r : Nat) (totals : Totals)
  /-- It ends match `r`. -/
  | playing (r : Nat) (totals : Totals)
  | done
  | failed

/-- Whether a trial has begun and not ended. -/
def Phase.isActive : Phase → Bool
  | .ready .. | .playing .. => true
  | .waiting | .done | .failed => false

def Phase.isEnded : Phase → Bool
  | .done | .failed => true
  | .waiting | .ready .. | .playing .. => false

structure Trial where
  individual : Individual
  phase : Phase

/-- What comes of a move: the trial after it, the error it has failed with, if any, and the matches that were ended. -/
structure Move where
  trial : Trial
  error : Option EvaluationError := none
  played : Nat := 0

/-- The next move of a trial. It depends on whether the trials were called off, and a match may look at the number of
matches before it and at a deadline. -/
inductive Trial.Moves (c : Course) (calledOff : Bool) (before : Nat) (deadline : Deadline) : Trial → Move → Prop where
  | refuse {ind : Individual} (h : c.repeats < 1) :
      Moves c calledOff before deadline ⟨ind, .waiting⟩ ⟨⟨ind, .failed⟩, some .noRepeats, 0⟩
  | begin {ind : Individual} (h : 1 ≤ c.repeats) :
      Moves c calledOff before deadline ⟨ind, .waiting⟩ ⟨⟨ind, .ready 0 {}⟩, none, 0⟩
  | stop {ind : Individual} {r : Nat} {totals : Totals} (hr : r < c.rounds) (h : calledOff = true) :
      Moves c calledOff before deadline ⟨ind, .ready r totals⟩ ⟨⟨ind, .failed⟩, some .canceled, 0⟩
  | enter {ind : Individual} {r : Nat} {totals : Totals} (hr : r < c.rounds) (h : calledOff = false) :
      Moves c calledOff before deadline ⟨ind, .ready r totals⟩ ⟨⟨ind, .playing r totals⟩, none, 0⟩
  | record {ind : Individual} {r : Nat} {totals : Totals} (hr : c.rounds ≤ r) :
      Moves c calledOff before deadline ⟨ind, .ready r totals⟩ ⟨⟨ind.record c.repeats totals, .done⟩, none, 0⟩
  | lose {ind : Individual} {r : Nat} {totals : Totals} {e : MatchError}
      (h : (c.simulator.play before deadline (c.fixture ind.programs r)).result = .error e) :
      Moves c calledOff before deadline ⟨ind, .playing r totals⟩ ⟨⟨ind, .failed⟩, some (.failed ind.id e), 1⟩
  | finish {ind : Individual} {r : Nat} {totals : Totals} {outcome : Outcome}
      (h : (c.simulator.play before deadline (c.fixture ind.programs r)).result = .ok outcome) :
      Moves c calledOff before deadline ⟨ind, .playing r totals⟩ ⟨⟨ind, .ready (r + 1) (totals.add outcome)⟩, none, 1⟩

structure Trials where
  trials : List Trial
  /-- The error of the first trial that failed. -/
  failure : Option EvaluationError := none
  calledOff : Bool := false
  /-- How many matches the simulator has played. -/
  played : Nat := 0

namespace Trials

def individuals (g : Trials) : List Individual := g.trials.map (·.individual)

def active (g : Trials) : Nat := g.trials.countP (·.phase.isActive)

def Ended (g : Trials) : Prop := ∀ t ∈ g.trials, t.phase.isEnded = true

/-- The trials after a move of the one between `pre` and `post`. The first error stays, and calls the trials off. -/
def after (g : Trials) (pre : List Trial) (m : Move) (post : List Trial) : Trials where
  trials := pre ++ m.trial :: post
  failure := g.failure.or m.error
  calledOff := g.calledOff || m.error.isSome
  played := g.played + m.played

/-- One trial makes its next move. It begins only if all before it have begun and a worker is free. A match sees no
deadline unless the trials were called off; then it may have seen them called off at any moment. -/
def Next (c : Course) (workers : Nat) (g g' : Trials) : Prop :=
  ∃ pre t post deadline m, g.trials = pre ++ t :: post ∧
    (t.phase = .waiting → (∀ u ∈ pre, u.phase ≠ .waiting) ∧ g.active < workers) ∧
    (g.calledOff = false → deadline = .never) ∧
    t.Moves c g.calledOff g.played deadline m ∧ g' = g.after pre m post

end Trials

/-! ## Every schedule ends -/

/-- A bound on the number of moves that a trial of `n` matches has left. -/
def Phase.movesLeft (n : Nat) : Phase → Nat
  | .waiting => 2 * n + 2
  | .ready r _ => 2 * (n - r) + 1
  | .playing r _ => max 2 (2 * (n - r))
  | .done | .failed => 0

section

variable {c : Course} {calledOff : Bool} {before : Nat} {deadline : Deadline} {t : Trial} {m : Move}

theorem movesLeft_move (h : t.Moves c calledOff before deadline m) :
    m.trial.phase.movesLeft c.rounds < t.phase.movesLeft c.rounds := by
  cases h <;> simp only [Phase.movesLeft] <;> omega

theorem waiting_or_isActive (h : t.Moves c calledOff before deadline m) :
    t.phase = .waiting ∨ t.phase.isActive = true := by
  cases h with
  | refuse | begin => exact .inl rfl
  | stop | enter | record | lose | finish => exact .inr rfl

theorem identity_move (h : t.Moves c calledOff before deadline m) :
    m.trial.individual.identity = t.individual.identity := by
  cases h <;> rfl

theorem exists_move (c : Course) (calledOff : Bool) (before : Nat) (deadline : Deadline)
    (h : t.phase.isEnded = false) : ∃ m, t.Moves c calledOff before deadline m := by
  obtain ⟨ind, phase⟩ := t
  cases phase with
  | waiting =>
    by_cases hrepeats : c.repeats < 1
    · exact ⟨_, .refuse hrepeats⟩
    · exact ⟨_, .begin (by omega)⟩
  | ready r totals =>
    by_cases hr : r < c.rounds
    · cases hoff : calledOff with
      | true => exact ⟨_, .stop hr rfl⟩
      | false => exact ⟨_, .enter hr rfl⟩
    · exact ⟨_, .record (by omega)⟩
  | playing r totals =>
    cases hplay : (c.simulator.play before deadline (c.fixture ind.programs r)).result with
    | error e => exact ⟨_, .lose hplay⟩
    | ok outcome => exact ⟨_, .finish hplay⟩
  | done => cases h
  | failed => cases h

end

/-- **Every schedule ends.** There is no endless sequence of moves. -/
theorem next_wellFounded (c : Course) (workers : Nat) : WellFounded fun g' g => Trials.Next c workers g g' := by
  refine Subrelation.wf ?_ (measure fun g : Trials => (g.trials.map (·.phase.movesLeft c.rounds)).sum).wf
  rintro _ g ⟨pre, t, post, deadline, m, htrials, -, -, hmove, rfl⟩
  have hlt := movesLeft_move hmove
  change ((pre ++ m.trial :: post).map _).sum < (g.trials.map (·.phase.movesLeft c.rounds)).sum
  rw [htrials]
  simp only [List.map_append, List.map_cons, List.sum_append, List.sum_cons]
  omega

theorem isEnded_of_isActive {phase : Phase} (h : phase.isActive = true) : phase.isEnded = false := by
  cases phase <;> first | rfl | cases h

/-- A move is a step of all trials, if it does not begin a trial out of order. -/
theorem next_of_move {c : Course} {workers : Nat} {g : Trials} (pre : List Trial) {t : Trial} {post : List Trial}
    {m : Move} (htrials : g.trials = pre ++ t :: post)
    (hbegin : t.phase = .waiting → (∀ u ∈ pre, u.phase ≠ .waiting) ∧ g.active < workers)
    (hmove : t.Moves c g.calledOff g.played .never m) : Trials.Next c workers g (g.after pre m post) :=
  ⟨pre, t, post, .never, m, htrials, hbegin, fun _ => rfl, hmove, rfl⟩

/-- **No schedule gets stuck.** With at least one worker, some trial can move until all have ended. -/
theorem exists_next (c : Course) {workers : Nat} (hworkers : 0 < workers) {g : Trials} (h : ¬ g.Ended) :
    ∃ g', Trials.Next c workers g g' := by
  by_cases hactive : ∃ t ∈ g.trials, t.phase.isActive = true
  · -- An active trial can always go on.
    obtain ⟨t, ht, hactive⟩ := hactive
    obtain ⟨pre, post, htrials⟩ := List.append_of_mem ht
    obtain ⟨m, hm⟩ := exists_move c g.calledOff g.played .never (isEnded_of_isActive hactive)
    refine ⟨_, next_of_move pre htrials (fun hwaiting => ?_) hm⟩
    rw [hwaiting] at hactive
    cases hactive
  · -- Otherwise all workers are free for the first trial that waits.
    have hidle : g.active = 0 := List.countP_eq_zero.mpr fun t ht hact => hactive ⟨t, ht, hact⟩
    have hwaits : ∃ t, g.trials.find? (!·.phase.isEnded) = some t := by
      rw [← Option.isSome_iff_exists, List.find?_isSome]
      simpa [Trials.Ended] using h
    obtain ⟨t, ht⟩ := hwaits
    obtain ⟨hphase, pre, post, htrials, hpre⟩ := List.find?_eq_some_iff_append.mp ht
    obtain ⟨m, hm⟩ := exists_move c g.calledOff g.played .never (t := t) (by simpa using hphase)
    refine ⟨_, next_of_move pre htrials (fun _ => ⟨fun v hv hwaiting => ?_, by omega⟩) hm⟩
    have hended := hpre v hv
    rw [hwaiting] at hended
    cases hended

/-! ## What every schedule keeps -/

/-- **No more trials are active than there are workers.** -/
theorem active_le {c : Course} {workers : Nat} {start g : Trials} (hstart : start.active ≤ workers)
    (h : ReflTransGen (Trials.Next c workers) start g) : g.active ≤ workers := by
  induction h with
  | refl => exact hstart
  | @tail g _ _ hnext ih =>
    obtain ⟨pre, t, post, deadline, m, htrials, hbegin, -, hmove, rfl⟩ := hnext
    unfold Trials.active at ih hbegin
    change (pre ++ m.trial :: post).countP _ ≤ workers
    rw [htrials, List.countP_append, List.countP_cons] at ih hbegin
    rw [List.countP_append, List.countP_cons]
    -- Only a trial that begins becomes active, and then a worker was free.
    rcases waiting_or_isActive hmove with hwaiting | hactive
    · have hfree := (hbegin hwaiting).2
      split <;> omega
    · rw [hactive, if_pos rfl] at ih
      split <;> omega

/-- No move changes which individuals are evaluated. -/
theorem identities_next {c : Course} {workers : Nat} {g g' : Trials} (h : Trials.Next c workers g g') :
    g'.individuals.map (·.identity) = g.individuals.map (·.identity) := by
  obtain ⟨pre, t, post, deadline, m, htrials, -, -, hmove, rfl⟩ := h
  change ((pre ++ m.trial :: post).map _).map _ = _
  rw [Trials.individuals, htrials]
  simp only [List.map_append, List.map_cons, identity_move hmove]

end Forager.Breeding
