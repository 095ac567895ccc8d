import Forager.Session.Play
import Forager.Proofs.Arena.Accounting
import Forager.Proofs.Breeding.Evaluation
import Forager.Proofs.Breeding.Strategies
import Forager.Proofs.Breeding.Typing
import Forager.Proofs.Session.Idle

/-!
# Playing and evaluating

To play a strategy and to evaluate it are two loops over the same matches. Each has its own reports and its own way to
stop, so they are compared through the outcomes of the matches, on which both depend alone.

* `Fixture` : two teams, the arena and the seed; `Fixture.Outcomes x r outcomes` : the outcomes of the matches from
  number `r` on; `Fixture.Outcomes.unique` : there are no others;
* `playMatches_ok`, `playSeries_ok` : what either loop returns is made of the outcomes of its matches;
* `matches_never` : without a deadline both return, unless the treats of a match find no room, when both fail with it;
* `Opposes d path programs` : the programs that play for the opponent at a path;
* `play_evaluates` : playing and evaluating agree.
-/

namespace Forager

set_option autoImplicit false

open Breeding (Individual Playing Totals playSeries)
open Program

/-! ## Outcomes of matches -/

/-- Two teams that meet in an arena, time and again. -/
structure Fixture where
  config : Arena.Config
  team : List Expr
  opponent : List Expr
  seed : Int64

namespace Fixture

variable (x : Fixture)

def game (r : Nat) : Match := ⟨x.team, x.opponent, Chance.derive x.seed (.ofNat r)⟩

/-- The outcomes of the matches from number `r` on. -/
def Outcomes : Nat → List Outcome → Prop
  | _, [] => True
  | r, o :: rest => (Arena.playMatch x.config.withDefaults .never (x.game r)).result = .ok o ∧ Outcomes (r + 1) rest

def reports : Nat → List Outcome → List MatchReport
  | _, [] => []
  | r, o :: rest => .ofOutcome (x.game r).seed o :: reports (r + 1) rest

def total (start : Float) (outcomes : List Outcome) : Float := outcomes.foldl (fun sum o => sum + o.fitness) start

/-- Whether the treats of the match with number `r` find no room. -/
def NoRoom (r : Nat) : Prop :=
  ((Arena.World.new x.config.withDefaults x.team x.opponent).run (.ofSeed (x.game r).seed)).1 = none

variable {x} {r : Nat} {outcomes : List Outcome}

theorem Outcomes.unique {others : List Outcome} (h : x.Outcomes r outcomes) (h' : x.Outcomes r others)
    (hlength : outcomes.length = others.length) : outcomes = others := by
  induction outcomes generalizing r others with
  | nil => exact (List.length_eq_zero_iff.mp hlength.symm).symm
  | cons o outcomes ih =>
    cases others with
    | nil => cases hlength
    | cons o' others =>
      obtain ⟨hfirst, hrest⟩ := h
      obtain ⟨hfirst', hrest'⟩ := h'
      rw [hfirst, Except.ok.injEq] at hfirst'
      rw [hfirst', ih hrest hrest' (Nat.succ.inj hlength)]

theorem length_reports (r : Nat) (outcomes : List Outcome) : (x.reports r outcomes).length = outcomes.length := by
  induction outcomes generalizing r with
  | nil => rfl
  | cons o outcomes ih => exact congrArg (· + 1) (ih (r + 1))

theorem Outcomes.report (h : x.Outcomes r outcomes) {k : Nat} {report : MatchReport}
    (hk : (x.reports r outcomes)[k]? = some report) :
    ∃ o, (Arena.playMatch x.config.withDefaults .never (x.game (r + k))).result = .ok o ∧
      report = .ofOutcome (x.game (r + k)).seed o := by
  induction outcomes generalizing r k with
  | nil => cases hk
  | cons o outcomes ih =>
    obtain ⟨hfirst, hrest⟩ := h
    cases k with
    | zero => exact ⟨o, hfirst, (Option.some.inj hk).symm⟩
    | succ k =>
      rw [← Nat.add_assoc, Nat.add_right_comm]
      exact ih hrest hk

end Fixture

/-! ## The two loops -/

section

variable {x : Fixture} {count r : Nat}

theorem Session.playMatches_ok {d : Deadline} {start sum : Float} {before reports : List MatchReport} {s s' : Session}
    (h : (playMatches (Arena.forage x.config) x.team x.opponent x.seed count r d start before).run s =
      (.ok (sum, reports), s')) :
    ∃ outcomes, outcomes.length = count ∧ x.Outcomes r outcomes ∧ sum = Fixture.total start outcomes ∧
      reports = before ++ x.reports r outcomes := by
  induction count generalizing r d start before s with
  | zero =>
    cases h
    exact ⟨[], rfl, trivial, rfl, (List.append_nil _).symm⟩
  | succ count ih =>
    rw [playMatches] at h
    obtain ⟨_, s₁, -, h₁⟩ := run_bind_ok h
    obtain ⟨o, s₂, hsettle, h₂⟩ := run_bind_ok h₁
    have hresult := Arena.playMatch_in_time (settle_ok hsettle).1
    obtain ⟨outcomes, hlength, houtcomes, rfl, rfl⟩ := ih h₂
    refine ⟨o :: outcomes, congrArg (· + 1) hlength, ⟨hresult, houtcomes⟩, rfl, ?_⟩
    rw [List.append_assoc]
    rfl

theorem playSeries_ok {id : String} {totals totals' : Totals} {p p' : Playing}
    (h : playSeries (Arena.forage x.config) id x.team x.opponent x.seed count r totals p = (.ok totals', p')) :
    ∃ outcomes, outcomes.length = count ∧ x.Outcomes r outcomes ∧
      totals'.fitness = Fixture.total totals.fitness outcomes := by
  induction count generalizing r totals p with
  | zero =>
    cases h
    exact ⟨[], rfl, trivial, rfl⟩
  | succ count ih =>
    rw [playSeries] at h
    split at h
    · cases h
    · dsimp only at h
      split at h
      · cases h
      · rename_i o hresult
        obtain ⟨outcomes, hlength, houtcomes, hsum⟩ := ih h
        exact ⟨o :: outcomes, congrArg (· + 1) hlength, ⟨Arena.playMatch_in_time hresult, houtcomes⟩, hsum⟩

end

/-! ## Loops without a deadline -/

section

variable {x : Fixture} {r : Nat} {o : Outcome} {e : MatchError}

theorem Session.playMatches_of_ok
    (ho : Arena.playMatch x.config.withDefaults .never (x.game r) = ⟨.ok o, .never, []⟩) (count : Nat) (start : Float)
    (before : List MatchReport) (s : Session) :
    ∃ s₁, (playMatches (Arena.forage x.config) x.team x.opponent x.seed (count + 1) r .never start before).run s =
      (playMatches (Arena.forage x.config) x.team x.opponent x.seed count (r + 1) .never (start + o.fitness)
        (before ++ [.ofOutcome (x.game r).seed o])).run s₁ := by
  rw [playMatches]
  dsimp only [Arena.forage]
  unfold Fixture.game at ho ⊢
  rw [ho]
  exact ⟨_, rfl⟩

theorem Session.playMatches_of_error
    (ho : Arena.playMatch x.config.withDefaults .never (x.game r) = ⟨.error e, .never, []⟩) (count : Nat)
    (start : Float) (before : List MatchReport) (s : Session) :
    ∃ s₁, (playMatches (Arena.forage x.config) x.team x.opponent x.seed (count + 1) r .never start before).run s =
      (.error (.matchFailed r e), s₁) := by
  rw [playMatches]
  dsimp only [Arena.forage]
  unfold Fixture.game at ho
  rw [ho]
  exact ⟨_, rfl⟩

theorem playSeries_of_ok
    (ho : Arena.playMatch x.config.withDefaults .never (x.game r) = ⟨.ok o, .never, []⟩) (id : String) (count : Nat)
    (totals : Totals) (played : Nat) (journal : Journal) :
    ∃ totals₁,
      playSeries (Arena.forage x.config) id x.team x.opponent x.seed (count + 1) r totals ⟨played, .never, journal⟩ =
        playSeries (Arena.forage x.config) id x.team x.opponent x.seed count (r + 1) totals₁
          ⟨played + 1, .never, journal⟩ := by
  rw [playSeries]
  dsimp only [Arena.forage, Deadline.never, Deadline.look] at ho ⊢
  unfold Fixture.game at ho
  rw [ho]
  dsimp only
  rw [List.append_nil]
  exact ⟨_, rfl⟩

theorem playSeries_of_error
    (ho : Arena.playMatch x.config.withDefaults .never (x.game r) = ⟨.error e, .never, []⟩) (id : String) (count : Nat)
    (totals : Totals) (played : Nat) (journal : Journal) :
    ∃ p', playSeries (Arena.forage x.config) id x.team x.opponent x.seed (count + 1) r totals
      ⟨played, .never, journal⟩ = (.error (.failed id e), p') := by
  rw [playSeries]
  dsimp only [Arena.forage, Deadline.never, Deadline.look] at ho ⊢
  unfold Fixture.game at ho
  rw [ho]
  exact ⟨_, rfl⟩

end

/-- Two teams of sound programs. -/
structure Fixture.Sound (x : Fixture) : Prop where
  team_ne : x.team ≠ []
  opponent_ne : x.opponent ≠ []
  team : ∀ e ∈ x.team, Program.Sound e
  opponent : ∀ e ∈ x.opponent, Program.Sound e

namespace Fixture.Sound

variable {x : Fixture} (h : x.Sound)
include h

theorem outcome_or_no_room (r : Nat) :
    (∃ o, Arena.playMatch x.config.withDefaults .never (x.game r) = ⟨.ok o, .never, []⟩) ∨
    x.NoRoom r ∧ Arena.playMatch x.config.withDefaults .never (x.game r) =
      ⟨.error (.noRoom x.config.withDefaults.treats), .never, []⟩ := by
  have hopponent : (if (x.game r).opponent.isEmpty then [.idle] else (x.game r).opponent) = x.opponent :=
    if_neg fun hempty => h.opponent_ne (List.isEmpty_iff.mp hempty)
  rcases hnew : (Arena.World.new x.config.withDefaults x.team x.opponent).run (.ofSeed (x.game r).seed) with
    ⟨w?, source⟩
  cases w? with
  | some w => exact .inl (Arena.playMatch_room h.team_ne h.team h.opponent (hopponent.symm ▸ hnew))
  | none =>
    exact .inr ⟨congrArg Prod.fst hnew, Arena.playMatch_no_room .never h.team_ne (hopponent.symm ▸ hnew)⟩

/-- No match of sound programs is reported as cut short. -/
theorem report {r : Nat} {o : Outcome} (ho : (Arena.playMatch x.config.withDefaults .never (x.game r)).result = .ok o) :
    ∃ run, o.report = some run ∧ MatchReport.ofOutcome (x.game r).seed o =
      ⟨(x.game r).seed, o.fitness, run.score, run.opponentScore, run.steps, run.penalty, false, ""⟩ := by
  have haborted := (Arena.playMatch_sound x.config.withDefaults .never (x.game r) h.team h.opponent).1 o ho
  obtain ⟨w₀, rest, reason, -, rfl, -, -⟩ := Arena.playMatch_ok ho
  cases reason with
  | some text => cases haborted
  | none => exact ⟨_, rfl, rfl⟩

/-- **Without a deadline the two loops end alike**: both return, or both fail with the first match that has no room. -/
theorem matches_never (id : String) (count r : Nat) (start : Float) (before : List MatchReport) (s : Session)
    (totals : Totals) (played : Nat) (journal : Journal) :
    (∃ sum reports s' totals' p',
      (Session.playMatches (Arena.forage x.config) x.team x.opponent x.seed count r .never start before).run s =
        (.ok (sum, reports), s') ∧
      playSeries (Arena.forage x.config) id x.team x.opponent x.seed count r totals ⟨played, .never, journal⟩ =
        (.ok totals', p')) ∨
    ∃ k s' p', k < count ∧ x.NoRoom (r + k) ∧
      (Session.playMatches (Arena.forage x.config) x.team x.opponent x.seed count r .never start before).run s =
        (.error (.matchFailed (r + k) (.noRoom x.config.withDefaults.treats)), s') ∧
      playSeries (Arena.forage x.config) id x.team x.opponent x.seed count r totals ⟨played, .never, journal⟩ =
        (.error (.failed id (.noRoom x.config.withDefaults.treats)), p') := by
  induction count generalizing r start before s totals played journal with
  | zero => exact .inl ⟨start, before, s, totals, _, rfl, rfl⟩
  | succ count ih =>
    rcases h.outcome_or_no_room r with ⟨o, ho⟩ | ⟨hroom, ho⟩
    · obtain ⟨s₁, hs₁⟩ := Session.playMatches_of_ok ho count start before s
      obtain ⟨totals₁, hp₁⟩ := playSeries_of_ok ho id count totals played journal
      rw [hs₁, hp₁]
      rcases ih (r + 1) (start + o.fitness) (before ++ [.ofOutcome (x.game r).seed o]) s₁ totals₁ (played + 1)
        journal with
        hboth | ⟨k, s', p', hk, hroom, hfails⟩
      · exact .inl hboth
      · refine .inr ⟨k + 1, s', p', Nat.succ_lt_succ hk, ?_⟩
        rw [← Nat.add_assoc, Nat.add_right_comm]
        exact ⟨hroom, hfails⟩
    · obtain ⟨s₁, hs₁⟩ := Session.playMatches_of_error ho count start before s
      obtain ⟨p₁, hp₁⟩ := playSeries_of_error ho id count totals played journal
      exact .inr ⟨0, s₁, p₁, Nat.succ_pos _, hroom, hs₁, hp₁⟩

end Fixture.Sound

/-! ## Strategies that play -/

theorem Session.firstMisuse_eq_none_iff (slot : Nat) (programs : List Expr) :
    firstMisuse slot programs = none ↔ ∀ e ∈ programs, check e = .ok () := by
  induction programs generalizing slot with
  | nil => simp [firstMisuse]
  | cons e programs ih =>
    rw [firstMisuse, List.forall_mem_cons, ← ih (slot + 1)]
    cases check e with
    | ok u => simp
    | error x => simp

theorem Session.loadOpponent_fst (path : String) (s : Session) :
    ((loadOpponent path).run s).1 =
      if (firstMisuse 0 (Individual.loadOrDefault s.env.disk "opponent" path).1.programs).isSome then
        .default "opponent"
      else (Individual.loadOrDefault s.env.disk "opponent" path).1 := by
  have hget : (get : StateM Session Session).run s = (s, s) := rfl
  unfold loadOpponent
  rw [run_bind_state, hget]
  rcases Individual.loadOrDefault s.env.disk "opponent" path with ⟨opponent, entries⟩
  dsimp only
  rw [run_bind_state]
  cases firstMisuse 0 opponent.programs with
  | none => rfl
  | some misuse => rfl

/-- The programs that play for the opponent: those of the strategy at the path, if it can be read and they all pass the
check, and otherwise the one that does nothing. -/
inductive Opposes (d : Disk) (path : String) : List Expr → Prop
  | loaded {ind : Individual} : Individual.load d "opponent" path = .ok ind → (∀ e ∈ ind.programs, check e = .ok ()) →
      Opposes d path ind.programs
  | empty : path = "" → Opposes d path [.idle]
  | unreadable {x : Breeding.LoadError} : Individual.load d "opponent" path = .error x → Opposes d path [.idle]
  | invalid {ind : Individual} {e : Expr} : Individual.load d "opponent" path = .ok ind → e ∈ ind.programs →
      check e ≠ .ok () → Opposes d path [.idle]

namespace Opposes

variable {d : Disk} {path : String} {programs : List Expr}

theorem sound (h : Opposes d path programs) : programs ≠ [] ∧ ∀ e ∈ programs, Sound e := by
  have hidle : [Expr.idle] ≠ [] ∧ ∀ e ∈ [Expr.idle], Sound e :=
    ⟨List.cons_ne_nil _ _, List.forall_mem_singleton.mpr .idle⟩
  cases h with
  | loaded hload hcheck =>
    obtain ⟨-, hne, hparsed⟩ := Breeding.load_parsed hload
    exact ⟨hne, fun e he => Breeding.sound_of_parsed ⟨hparsed e he, hcheck e he⟩⟩
  | empty _ => exact hidle
  | unreadable _ => exact hidle
  | invalid _ _ _ => exact hidle

theorem loadOpponent {s : Session} (h : Opposes s.env.disk path programs) :
    ((Session.loadOpponent path).run s).1.programs = programs := by
  have hdefault : (Individual.loadOrDefault s.env.disk "opponent" path).1 = .default "opponent" →
      ((Session.loadOpponent path).run s).1.programs = [.idle] := by
    intro hdefault
    rw [Session.loadOpponent_fst, hdefault]
    rfl
  cases h with
  | loaded hload hcheck =>
    rw [Session.loadOpponent_fst, Breeding.loadOrDefault_of_ok hload, (Session.firstMisuse_eq_none_iff 0 _).mpr hcheck]
    rfl
  | empty hpath => exact hdefault (Breeding.loadOrDefault_of_empty hpath)
  | unreadable hload => exact hdefault (Breeding.loadOrDefault_of_error hload)
  | @invalid ind e hload he hcheck =>
    rw [Session.loadOpponent_fst, Breeding.loadOrDefault_of_ok hload]
    cases hmisuse : Session.firstMisuse 0 ind.programs with
    | none => exact absurd ((Session.firstMisuse_eq_none_iff 0 _).mp hmisuse e he) hcheck
    | some x => rfl

end Opposes

/-! ## Playing and evaluating -/

theorem evaluate_outcomes {x : Fixture} {ind ind' : Individual} (hteam : ind.programs = x.team) {repeats : Int}
    {p p' : Playing} (h : ind.evaluate (Arena.forage x.config) x.opponent repeats x.seed p = (.ok ind', p')) :
    ∃ outcomes, outcomes.length = repeats.toNat ∧ x.Outcomes 0 outcomes ∧
      ind'.fitness = Fixture.total 0 outcomes / Float.ofInt repeats := by
  unfold Individual.evaluate at h
  rw [hteam] at h
  split at h
  · cases h
  · split at h
    · cases h
    · rename_i totals _ hplay
      cases h
      obtain ⟨outcomes, hlength, houtcomes, hsum⟩ := playSeries_ok hplay
      exact ⟨outcomes, hlength, houtcomes, congrArg (· / Float.ofInt repeats) hsum⟩

def PlayRequest.fixture (req : PlayRequest) (team opponent : List Expr) : Fixture :=
  ⟨req.arena, team, opponent, req.seed⟩

namespace Session

section

variable {s : Session} {req : PlayRequest} {team : Individual} {opponent : List Expr}
  (hload : Individual.load s.env.disk "team" req.team = .ok team) (hcheck : ∀ e ∈ team.programs, check e = .ok ())
  (hopponent : Opposes s.env.disk req.opponent opponent)

include hload hcheck hopponent

theorem fixture_sound : (req.fixture team.programs opponent).Sound := by
  obtain ⟨-, hne, hparsed⟩ := Breeding.load_parsed hload
  obtain ⟨hopponent_ne, hsound⟩ := hopponent.sound
  exact ⟨hne, hopponent_ne, fun e he => Breeding.sound_of_parsed ⟨hparsed e he, hcheck e he⟩, hsound⟩

theorem play_run (hrepeats : 1 ≤ req.repeats) (deadline : Deadline) :
    ∃ s₁, (play req deadline).run s =
      (do
        let (sum, reports) ← playMatches (Arena.forage req.arena) team.programs opponent req.seed
          req.repeats.toInt.toNat 0 deadline 0 []
        return ⟨sum / Float.ofInt req.repeats.toInt, reports⟩ : Acts PlayResult).run s₁ := by
  have hnot : ¬req.repeats ≤ 0 := by
    rw [Int64.le_iff_toInt_le] at hrepeats ⊢
    exact fun hle => absurd (hrepeats.trans hle) (by decide)
  have hteam : (settle (.load "team") (Individual.load s.env.disk "team" req.team)).run s = (.ok team, s) := by
    rw [hload]
    rfl
  have hchecked : (requireChecked req.team team).run s = (.ok (), s) := by
    unfold requireChecked
    rw [(firstMisuse_eq_none_iff 0 _).mpr hcheck]
    rfl
  have hopponent' := Opposes.loadOpponent (s := ((note (deprecations req.team 0 team.programs)).run s).2) hopponent
  unfold play
  rw [if_neg (Breeding.load_parsed hload).1, if_neg hnot]
  dsimp only
  rw [run_get_bind, run_bind_of_ok hteam, run_bind_of_ok hchecked, run_liftM_bind, run_liftM_bind, hopponent']
  exact ⟨_, rfl⟩

theorem play_outcomes (hrepeats : 1 ≤ req.repeats) {deadline : Deadline} {result : PlayResult} {s' : Session}
    (h : (play req deadline).run s = (.ok result, s')) :
    ∃ outcomes, outcomes.length = req.repeats.toInt.toNat ∧
      (req.fixture team.programs opponent).Outcomes 0 outcomes ∧
      result = ⟨Fixture.total 0 outcomes / Float.ofInt req.repeats.toInt,
        (req.fixture team.programs opponent).reports 0 outcomes⟩ := by
  obtain ⟨s₁, hs₁⟩ := play_run hload hcheck hopponent hrepeats deadline
  rw [hs₁] at h
  obtain ⟨⟨sum, reports⟩, s₂, hplay, hreturn⟩ := run_bind_ok h
  obtain ⟨outcomes, hlength, houtcomes, rfl, rfl⟩ :=
    playMatches_ok (x := req.fixture team.programs opponent) hplay
  cases hreturn
  exact ⟨outcomes, hlength, houtcomes, rfl⟩

end

/-- **Playing and evaluating agree.** Whenever matches are played to their end, their mean fitness is the fitness of
the team after an evaluation against the same programs, and each report is that of the match with the derived seed, none
of them cut short. Without a deadline both come to their end, unless the treats of a match find no room: then both fail
with that. An opponent that cannot be read or fails its check is the one that does nothing. -/
theorem play_evaluates {s : Session} {req : PlayRequest} {team : Individual} {opponent : List Expr}
    (hload : Individual.load s.env.disk "team" req.team = .ok team) (hcheck : ∀ e ∈ team.programs, check e = .ok ())
    (hopponent : Opposes s.env.disk req.opponent opponent) (hrepeats : 1 ≤ req.repeats) :
    (∀ deadline result s', (play req deadline).run s = (.ok result, s') →
      (∀ p ind p', team.evaluate (Arena.forage req.arena) opponent req.repeats.toInt req.seed p = (.ok ind, p') →
        ind.evaluated = true ∧ ind.aborted = 0 ∧ result.fitness = ind.fitness) ∧
      (result.played.length : Int) = req.repeats.toInt ∧
      ∀ (r : Nat) report, result.played[r]? = some report → ∃ outcome run,
        ((Arena.forage req.arena).play r .never
          ⟨team.programs, opponent, Chance.derive req.seed (.ofNat r)⟩).result = .ok outcome ∧
        outcome.report = some run ∧
        report = ⟨Chance.derive req.seed (.ofNat r), outcome.fitness, run.score, run.opponentScore, run.steps,
          run.penalty, false, ""⟩) ∧
    ∀ before journal,
      (∃ result s' ind p', (play req .never).run s = (.ok result, s') ∧
        team.evaluate (Arena.forage req.arena) opponent req.repeats.toInt req.seed ⟨before, .never, journal⟩ =
          (.ok ind, p')) ∨
      ∃ (r : Nat) (s' : Session) (p' : Playing), (r : Int) < req.repeats.toInt ∧
        (req.fixture team.programs opponent).NoRoom r ∧
        (play req .never).run s = (.error (.matchFailed r (.noRoom req.arena.withDefaults.treats)), s') ∧
        team.evaluate (Arena.forage req.arena) opponent req.repeats.toInt req.seed ⟨before, .never, journal⟩ =
          (.error (.failed team.id (.noRoom req.arena.withDefaults.treats)), p') := by
  have hsound := fixture_sound hload hcheck hopponent
  have hpositive : 1 ≤ req.repeats.toInt := Int64.le_iff_toInt_le.mp hrepeats
  refine ⟨fun deadline result s' hplay => ?_, fun before journal => ?_⟩
  · obtain ⟨outcomes, hlength, houtcomes, rfl⟩ := play_outcomes hload hcheck hopponent hrepeats hplay
    refine ⟨fun p ind p' heval => ?_, ?_, fun r report hreport => ?_⟩
    · obtain ⟨others, hlength', houtcomes', hfitness⟩ :=
        evaluate_outcomes (x := req.fixture team.programs opponent) rfl heval
      obtain ⟨_, _, rfl⟩ := Breeding.evaluate_ok heval
      refine ⟨rfl, Breeding.evaluate_aborted (Breeding.finishes_forage _) hsound.opponent hsound.team heval, ?_⟩
      rw [hfitness, houtcomes.unique houtcomes' (hlength.trans hlength'.symm)]
    · rw [Fixture.length_reports, hlength]
      omega
    · obtain ⟨outcome, houtcome, rfl⟩ := houtcomes.report hreport
      rw [Nat.zero_add] at houtcome ⊢
      obtain ⟨run, hrun, heq⟩ := hsound.report houtcome
      exact ⟨outcome, run, houtcome, hrun, heq⟩
  · obtain ⟨s₁, hs₁⟩ := play_run hload hcheck hopponent hrepeats .never
    have hnot : ¬req.repeats.toInt < 1 := by omega
    unfold Individual.evaluate
    rw [hs₁, if_neg hnot]
    rcases hsound.matches_never team.id req.repeats.toInt.toNat 0 0 [] s₁ {} before journal with
      ⟨sum, reports, s', totals, p', hplay, hseries⟩ | ⟨r, s', p', hr, hroom, hplay, hseries⟩
    · dsimp only [PlayRequest.fixture] at hplay hseries
      rw [hseries]
      exact .inl ⟨_, s', _, p', run_bind_of_ok hplay, rfl⟩
    · rw [Nat.zero_add] at hroom hplay
      dsimp only [PlayRequest.fixture] at hplay hseries
      refine .inr ⟨r, s', p', by omega, hroom, ?_, ?_⟩
      · rw [run_bind_eq, hplay]
      · rw [hseries]

/-- A program that drives in circles and picks up what it comes upon. -/
def circler : Expr := .node .step [.leaf (.setSpeed 1 1.5), .leaf .pickUp]

def training : Session where
  env :=
    { disk := ⟨[(Disk.Place.ofPath "gatherer.sexp", .file Arena.gatherer.print.toUTF8),
        (Disk.Place.ofPath "circler.sexp", .file circler.print.toUTF8)]⟩
      clock := fun _ => ⟨⟨2026, 3, 1⟩, 12, 0, 5, 0, 0⟩
      ids := fun _ => "first" }
  store := Archive.Store.init {}
  artifactsDir := "a"

/-- Three matches over one treat. -/
def challenge (opponent : String) : PlayRequest where
  team := "gatherer.sexp"
  opponent := opponent
  repeats := 3
  seed := 7
  arena := Arena.contested

theorem load_training (id : String) :
    Individual.load training.env.disk id "gatherer.sexp" = .ok { id, programs := [Arena.gatherer] } ∧
      Individual.load training.env.disk id "circler.sexp" = .ok { id, programs := [circler] } := by
  have hparse {e : Expr} (hroot : e.kind = .step) (he : e.WellFormed) : Program.parseProgram e.print = .ok e :=
    Program.parseProgram_iff.mpr ⟨Program.parse_print he (Expr.isLiteral_of_root hroot), hroot⟩
  exact ⟨Breeding.load_of_parse (hparse rfl (by decide +kernel)) rfl id,
    Breeding.load_of_parse (hparse rfl (by decide +kernel)) rfl id⟩

def gatherers : Individual := { id := "team", programs := [Arena.gatherer] }

-- Against an opponent from a file, and against one that is not there.
theorem play_evaluates_training :
    (∃ result s' ind p', (play (challenge "circler.sexp") .never).run training = (.ok result, s') ∧
      gatherers.evaluate (Arena.forage Arena.contested) [circler] 3 7 ⟨0, .never, []⟩ = (.ok ind, p') ∧
      result.fitness = ind.fitness ∧ result.played.length = 3 ∧ ∀ report ∈ result.played, report.aborted = false) ∧
    ∃ result s' ind p', (play (challenge "none.sexp") .never).run training = (.ok result, s') ∧
      gatherers.evaluate (Arena.forage Arena.contested) [.idle] 3 7 ⟨0, .never, []⟩ = (.ok ind, p') ∧
      result.fitness = ind.fitness ∧ result.played.length = 3 ∧ ∀ report ∈ result.played, report.aborted = false := by
  have hchecked : ∀ e ∈ gatherers.programs ++ [circler], check e = .ok () := by decide +kernel
  have hagree (path : String) (opponent : List Expr) (hopponent : Opposes training.env.disk path opponent) :
      ∃ result s' ind p', (play (challenge path) .never).run training = (.ok result, s') ∧
        gatherers.evaluate (Arena.forage Arena.contested) opponent 3 7 ⟨0, .never, []⟩ = (.ok ind, p') ∧
        result.fitness = ind.fitness ∧ result.played.length = 3 ∧ ∀ report ∈ result.played, report.aborted = false := by
    have hload : Individual.load training.env.disk "team" (challenge path).team = .ok gatherers :=
      (load_training "team").1
    have hrepeats : 1 ≤ (challenge path).repeats := show (1 : Int64) ≤ 3 by decide
    obtain ⟨hagree, hends⟩ :=
      play_evaluates hload (fun e he => hchecked e (List.mem_append_left _ he)) hopponent hrepeats
    rcases hends 0 [] with ⟨result, s', ind, p', hplay, heval⟩ | ⟨r, s', p', hr, hroom, -, -⟩
    · obtain ⟨hfitness, hlength, hreports⟩ := hagree .never result s' hplay
      refine ⟨result, s', ind, p', hplay, heval, (hfitness _ ind p' heval).2.2, Int.ofNat.inj hlength, ?_⟩
      intro report hreport
      obtain ⟨r, hr⟩ := List.mem_iff_getElem?.mp hreport
      obtain ⟨_, _, -, -, rfl⟩ := hreports r report hr
      rfl
    · -- One treat always finds room.
      obtain ⟨w, hw⟩ := Arena.new_single (c := Arena.contested.withDefaults) rfl gatherers.programs opponent
        (.ofSeed (Chance.derive 7 (.ofNat r)))
      exact absurd (hw.symm.trans hroom) (by simp)
  exact ⟨hagree _ _ (.loaded (load_training "opponent").2 fun e he => hchecked e (List.mem_append_right _ he)),
    hagree _ _ (.unreadable rfl)⟩

end Session

end Forager
