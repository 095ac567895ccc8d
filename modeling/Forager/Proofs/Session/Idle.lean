import Forager.Proofs.Archive.Upkeep
import Forager.Proofs.Arena.Idle
import Forager.Proofs.Breeding.Idle
import Forager.Proofs.Breeding.Lineup
import Forager.Proofs.Breeding.Strategies
import Forager.Proofs.Session.Course

/-!
# Idle runs

In an arena with one treat and one step, individuals that do nothing have fitness 0, so all that a run of them reports
is known, whatever is drawn.

* `IsStill sim` : idle teams have fitness 0, after one look at the deadline; `isStill_forage`;
* `Still p` : two idle individuals in such an arena; `Still.advance` : they complete their generation, which takes four
  looks, with figures that are known, and so do those who come of them;
* `Session.Quiet s` : idle individuals can be evolved; `Session.Quiet.evolve` : their run succeeds, and the next can be
  made.
-/

namespace Forager

set_option autoImplicit false

open Disk (Place)
open Breeding (Individual Population Generation evaluateAll IsIdle)
open Program (Expr Sound)

/-! ## Generations -/

/-- Whether a team that does nothing against one that does nothing has fitness 0, after one look at the deadline. -/
def IsStill (sim : Simulator) : Prop :=
  ∀ before m, m.team ≠ [] → (∀ e ∈ m.team, e = .idle) → (∀ e ∈ m.opponent, e = .idle) →
    ∃ outcome, (∀ d : Deadline, sim.play before (d.later 1) m = ⟨.ok outcome, d, []⟩) ∧ outcome.fitness = 0 ∧
      outcome.aborted = false

theorem isStill_forage {c : Arena.Config} (htreats : c.treats = 1) (hsteps : c.maxSteps = 1) :
    IsStill (Arena.forage c) := by
  intro before m hne hteam hopponent
  have htreats' := (Arena.Config.withDefaults_treats (by omega : 0 < c.treats)).trans htreats
  have hsteps' := (Arena.Config.withDefaults_maxSteps (by omega : 0 < c.maxSteps)).trans hsteps
  have hsound : ∀ {es : List Expr}, (∀ e ∈ es, e = .idle) → ∀ e ∈ es, Sound e := fun h e he => h e he ▸ .idle
  obtain ⟨outcome, hplay⟩ := Arena.playMatch_never hne (hsound hteam) (hsound hopponent)
    (Arena.new_single htreats')
  have hresult := congrArg Reply.result hplay
  obtain ⟨steps, hfirst, hlast, penalty, hpenalty, hfitness⟩ :=
    Arena.fitness_idle (by omega) (by omega) hteam hopponent hresult
  have hone : steps = 1 := by omega
  have hzero : ∀ penalty ∈ [1, Arena.idlePenalty], Arena.fitness 0 0 1 1 penalty = (0 : Float) := by decide +kernel
  refine ⟨outcome, Arena.playMatch_later (by omega) hsteps' hplay, ?_, ?_⟩
  · rw [hfitness, hone, htreats']
    exact hzero penalty hpenalty
  · exact (Arena.playMatch_sound _ _ _ (hsound hteam) (hsound hopponent)).1 outcome hresult

/-- The individual after an evaluation in which nothing happened. -/
def unmoved (ind : Individual) : Individual := { ind with fitness := 0, evaluated := true, aborted := 0 }

section

variable {sim : Simulator} (hsim : IsStill sim) {opponent : List Expr} (hopponent : ∀ e ∈ opponent, e = .idle)
include hsim hopponent

theorem evaluate_idle {ind : Individual} {n : Nat} (hn : 0 < n) (hidle : IsIdle n ind) (seed : Int64) (before : Nat)
    (d : Deadline) (journal : Journal) : ind.evaluate sim opponent 1 seed ⟨before, d.later 2, journal⟩ =
      (.ok (unmoved ind), ⟨before + 1, d, journal⟩) := by
  have hne : ind.programs ≠ [] := List.ne_nil_of_length_pos (by rw [hidle.length]; exact hn)
  obtain ⟨outcome, hplay, hfitness, haborted⟩ := hsim before ⟨ind.programs, opponent, Chance.derive seed (.ofNat 0)⟩ hne
    hidle.programs hopponent
  have hseries : Breeding.playSeries sim ind.id ind.programs opponent seed 1 0 {} ⟨before, d.later 2, journal⟩ =
      (.ok ⟨0 + 0, 0⟩, ⟨before + 1, d, journal⟩) := by
    simp only [Breeding.playSeries, Deadline.look_later, hplay, haborted, hfitness, List.append_nil]
    rfl
  have hmean : (0 + 0 : Float) / Float.ofInt 1 = 0 := by decide +kernel
  have hone : (1 : Int).toNat = 1 := rfl
  unfold Individual.evaluate
  rw [if_neg (by decide), hone, hseries]
  dsimp only
  rw [hmean]
  rfl

theorem evaluateAll_idle {n : Nat} (hn : 0 < n) (seed : Int64) (individuals : List Individual)
    (hidle : ∀ ind ∈ individuals, IsIdle n ind) (before : Nat) (d : Deadline) (journal : Journal) :
    evaluateAll sim opponent 1 seed individuals ⟨before, d.later (2 * individuals.length), journal⟩ =
      (none, individuals.map unmoved, ⟨before + individuals.length, d, journal⟩) := by
  induction individuals generalizing before with
  | nil =>
    rw [List.length_nil, Nat.mul_zero, Deadline.later_zero]
    rfl
  | cons ind rest ih =>
    rw [List.forall_mem_cons] at hidle
    have hlater : d.later (2 * (ind :: rest).length) = (d.later (2 * rest.length)).later 2 := by
      cases d <;> rfl
    rw [evaluateAll, hlater, evaluate_idle hsim hopponent hn hidle.1]
    dsimp only
    rw [ih hidle.2, List.length_cons]
    dsimp only
    rw [List.map_cons, Nat.add_assoc, Nat.add_comm 1]

end

/-- The figures of a generation of two idle individuals. -/
def stillProgress (index : Nat) : Progress := { index := .ofNat index, diversity := 1, evaluations := 2 }

theorem improve_cases {P : Individual → Prop} {best : Option Individual} {fittest : Individual} (hfittest : P fittest)
    (hbest : ∀ b ∈ best, P b) : P (Population.improve best fittest) := by
  cases best with
  | none => exact hfittest
  | some b =>
    unfold Population.improve
    dsimp only
    split
    · exact hfittest
    · exact hbest b rfl

theorem fittestFrom_unmoved (first second : Individual) :
    Breeding.fittestFrom (unmoved first) [unmoved second] = unmoved first := by
  have hzero : ¬(0 : Float) > 0 := by decide +kernel
  exact if_neg hzero

/-- Two idle individuals that play one match each in an arena where nothing happens. Nobody was better before. -/
structure Still (p : Population) : Prop where
  sim : IsStill p.simulator
  responds : Breeding.Responds p.simulator
  selector : p.selector.Sure
  opponent : ∀ e ∈ p.opponent, e = .idle
  repeats : p.repeats = 1
  length : p.individuals.length = 2
  idle : ∀ ind ∈ p.individuals, IsIdle 1 ind
  best : ∀ b ∈ p.best, b.fitness = 0 ∧ b.programs = [.idle]

namespace Still

variable {p : Population}

theorem programs (h : Still p) : ∀ ind ∈ p.individuals, ind.programs = [.idle] := fun ind hind =>
  List.eq_replicate_iff.mpr ⟨(h.idle ind hind).length, (h.idle ind hind).programs⟩

theorem evaluateAll (h : Still p) {first second : Individual} (hboth : p.individuals = [first, second]) (d : Deadline) :
    evaluateAll p.simulator p.opponent p.repeats p.matchSeed p.individuals ⟨p.played, d.later 4, []⟩ =
      (none, [unmoved first, unmoved second], ⟨p.played + 2, d, []⟩) := by
  have heval := evaluateAll_idle h.sim h.opponent Nat.one_pos p.matchSeed p.individuals h.idle p.played d []
  rw [h.repeats]
  rw [hboth] at heval ⊢
  exact heval

/-- Whether there is a next generation does not depend on the deadline. -/
theorem exists_offspring (h : Still p) {first second : Individual} (hboth : p.individuals = [first, second]) :
    ∃ next, p.offspring (unmoved first) [unmoved second] = .ok next := by
  obtain ⟨g, hg, -⟩ := Breeding.advance_idle Nat.one_pos h.responds h.selector (fun e he => h.opponent e he ▸ .idle)
    (by rw [h.repeats]) (by simp [hboth]) h.idle
  obtain ⟨a, others, playing, next, hnever, hnext, -, -⟩ := Breeding.advance_ok hg
  cases (h.evaluateAll hboth .never).symm.trans hnever
  exact ⟨next, hnext⟩

/-- The figures of two individuals without programs of their own. -/
theorem figures (h : Still p) {first second : Individual} (hboth : p.individuals = [first, second]) :
    Progress.ofGeneration (Breeding.summarize p.generation p.repeats (unmoved first) [unmoved second]) =
      stillProgress p.generation := by
  obtain ⟨hfirst, hsecond⟩ : first.programs = [.idle] ∧ second.programs = [.idle] := by
    have hprograms := h.programs
    rw [hboth] at hprograms
    simpa using hprograms
  have hzero : ¬(0 : Float) > 0 := by decide +kernel
  have hfittest := fittestFrom_unmoved first second
  have hmean : (0 + 0 + 0 : Float) / Float.ofNat 2 = 0 := by decide +kernel
  have hleast : Breeding.leastFitnessFrom 0 [unmoved second] = 0 := if_neg hzero
  have hdiversity : Breeding.diversity [unmoved first, unmoved second] = 1 := by
    have hsame : (unmoved second).fingerprint = (unmoved first).fingerprint := by
      unfold Individual.fingerprint unmoved
      rw [hfirst, hsecond]
    unfold Breeding.diversity
    simp [hsame, List.eraseDups_cons]
  unfold Breeding.summarize Progress.ofGeneration
  dsimp only
  rw [h.repeats, hfittest, hdiversity]
  change (⟨.ofNat p.generation, (0 + 0 + 0) / Float.ofNat 2, 0, Breeding.leastFitnessFrom 0 [unmoved second], 1,
    .ofInt (2 * 1), 0⟩ : Progress) = _
  rw [hmean, hleast]
  rfl

/-- **They complete their generation**, and what comes of them is still. -/
theorem advance (h : Still p) (d : Deadline) :
    ∃ g, (p.advance (d.later 4)).result = .ok g ∧ (p.advance (d.later 4)).deadline = d ∧
      Progress.ofGeneration g = stillProgress p.generation ∧ Still (p.advance (d.later 4)).population ∧
      (p.advance (d.later 4)).population.generation = p.generation + 1 := by
  obtain ⟨first, second, hboth⟩ := List.length_eq_two.mp h.length
  obtain ⟨next, hnext⟩ := h.exists_offspring hboth
  have hidle : ∀ ind ∈ [unmoved first, unmoved second], IsIdle 1 ind := by
    have hidle := h.idle
    rw [hboth] at hidle
    simp only [List.forall_mem_cons] at hidle ⊢
    exact ⟨⟨hidle.1.length, hidle.1.programs⟩, ⟨hidle.2.1.length, hidle.2.1.programs⟩, hidle.2.2⟩
  have hbest : ∀ b ∈ some (Population.improve p.best (Breeding.fittestFrom (unmoved first) [unmoved second])),
      b.fitness = 0 ∧ b.programs = [.idle] := by
    have hunmoved : (unmoved first).fitness = 0 ∧ (unmoved first).programs = [.idle] :=
      ⟨rfl, h.programs first (by simp [hboth])⟩
    rintro _ ⟨⟩
    rw [fittestFrom_unmoved]
    exact improve_cases (P := fun b => b.fitness = 0 ∧ b.programs = [.idle]) hunmoved h.best
  unfold Population.advance
  rw [h.evaluateAll hboth]
  dsimp only
  rw [hnext]
  refine ⟨_, rfl, rfl, h.figures hboth, ?_, rfl⟩
  exact
    { h with
      length := (Breeding.offspring_numbered p (by simp) hnext).length
      idle := (Breeding.offspring_carry (F := fun _ => True) p (Breeding.heritable_idle p.rate) Nat.one_pos
        (fun _ _ _ _ => trivial) (.any _) hidle).2 next hnext
      best := hbest }

end Still

/-! ## Runs -/

/-- A request for `n` generations of two individuals, in an arena with one treat and one step. -/
def idleRequest (n : Int64) : RunRequest where
  baseline := "idle.sexp"
  progenitor := "idle.sexp"
  population := 2
  repeats := 1
  generations := n
  arena := { treats := 1, maxSteps := 1 }

def idleSetup (n : Int64) : Breeding.Setup where
  simulator := some (Arena.forage (idleRequest n).arena)
  baseline := some (.default "baseline")
  progenitor := some (.default "progenitor")
  size := (idleRequest n).population.toInt
  rate := (idleRequest n).mutationRate
  repeats := (idleRequest n).repeats.toInt
  seed := (idleRequest n).seed

def idleSummary (id : String) (n : Int64) : RunSummary where
  runId := id
  generations := (List.range n.toInt.toNat).map stillProgress
  bestFitness := 0
  bestPrograms := ["(step)"]

theorem load_idle {d : Disk} {path : String} (h : d.readFile path = .ok "(step)".toUTF8) (id : String) :
    Individual.load d id path = .ok (.default id) := by
  have hparse : Program.parseProgram "(step)" = .ok .idle := rfl
  exact Breeding.load_of_parse hparse h id

theorem notify_ok (id : String) (g : Generation) {w : Watch} {held : Archive.Holdings} (hstore : w.store = ⟨some held⟩)
    (hmetrics : w.metrics = none) : ∃ w', (Breeding.notify g (observers id)).run w = (.ok (), w') ∧
      w'.generations = w.generations ++ [.ofGeneration g] ∧ (∃ held', w'.store = ⟨some held'⟩) ∧ w'.metrics = none := by
  obtain ⟨store, metrics, generations, reported⟩ := w
  cases hstore
  cases hmetrics
  exact ⟨_, rfl, rfl, ⟨_, rfl⟩, rfl⟩

theorem evolve_of_notify {p : Population} {id : String} {deadline : Deadline} {g : Generation} {w w' : Watch}
    (hg : (p.advance deadline).result = .ok g) (h : (Breeding.notify g (observers id)).run w = (.ok (), w')) :
    p.evolve (observers id) deadline w = (p.advance deadline, w') := by
  unfold Population.evolve
  dsimp only
  rw [hg]
  dsimp only
  rw [h]

/-- Any number of generations is completed, all with the same figures. -/
theorem Still.evolveFor {p : Population} (h : Still p) (id : String) (n : Nat) {w : Watch} {held : Archive.Holdings}
    (hstore : w.store = ⟨some held⟩) (hmetrics : w.metrics = none) (journal : Journal) :
    ∃ c, Forager.evolveFor id n .never p w journal = c ∧ c.failure = none ∧
      c.watch.generations = w.generations ++ (List.range' p.generation n).map stillProgress ∧
      (∃ held', c.watch.store = ⟨some held'⟩) ∧ c.watch.metrics = none ∧ Still c.population := by
  induction n generalizing p w held journal with
  | zero => exact ⟨_, rfl, rfl, by simp [Forager.evolveFor], ⟨held, hstore⟩, hmetrics, h⟩
  | succ n ih =>
    obtain ⟨g, hg, hdeadline, hfigures, hstill, hgeneration⟩ := h.advance .never
    change (p.advance .never).result = _ at hg
    obtain ⟨w', hnotify, hgenerations, ⟨held', hheld⟩, hnone⟩ := notify_ok id g hstore hmetrics
    obtain ⟨c, hc, hfailure, hall, hrest⟩ := ih hstill hheld hnone (journal ++ (p.advance .never).journal)
    refine ⟨c, ?_, hfailure, ?_, hrest⟩
    · rw [Forager.evolveFor, evolve_of_notify hg hnotify]
      dsimp only
      rw [hg]
      dsimp only
      rw [← hc]
      rw [show (p.advance .never).deadline = .never from hdeadline]
      rfl
    · rw [hall, hgenerations, hfigures, hgeneration, List.range'_succ, List.map_cons, List.append_assoc]
      rfl

namespace Session

def idleRecord (s : Session) (n : Int64) : Archive.Run where
  version := .current
  id := s.env.ids s.env.taken
  createdAt := (s.env.clock s.env.readings).utc
  simulator := "forage"
  baseline := "idle.sexp"
  progenitor := "idle.sexp"
  population := 2
  mutationRate := 0
  repeats := 1
  generations := n
  selection := "roulette"
  seed := 0
  workers := 0

theorem loadRole_idle {s : Session} {path : String} (h : s.env.disk.readFile path = .ok "(step)".toUTF8)
    (role : String) : (loadRole role path).run s = (.ok (.default role), s) := by
  rw [loadRole, run_get_bind, load_idle h]
  rfl

theorem prepare_idle {s : Session} (h : s.env.disk.readFile "idle.sexp" = .ok "(step)".toUTF8) {n : Int64}
    (hn : 0 < n) :
    ∃ p s', (prepare (idleRequest n)).run s = (.ok ⟨s.idleRecord n, p⟩, s') ∧ Still p := by
  have hrate : (0 ≤ (0 : Float) && (0 : Float) ≤ 1) = true := by decide +kernel
  obtain ⟨p, hnew, hsim, hopponent, hrepeats, -, hidle⟩ := Breeding.new_of_idle (s := idleSetup n) Nat.one_pos rfl rfl
    rfl (by simp [idleSetup, idleRequest]) hrate (by simp [idleSetup, idleRequest])
    ⟨rfl, List.forall_mem_singleton.mpr rfl⟩
  obtain ⟨-, -, -, -, hstanding⟩ := Breeding.new_standing (s := idleSetup n) rfl hnew
  have hbaseline : (loadRole "baseline" (idleRequest n).baseline).run s = _ := loadRole_idle h _
  have hprogenitor : (loadRole "progenitor" (idleRequest n).progenitor).run s = _ := loadRole_idle h _
  have hselector : ∀ {t : Session}, (settle .selection (Breeding.Selector.ofName (idleRequest n).selection
      (idleRequest n).tournamentSize.toInt)).run t = (.ok .roulette, t) := rfl
  have hpopulation : ∀ {t : Session}, (settle .setup (Population.new (idleSetup n))).run t = (.ok p, t) := by
    rw [hnew]
    exact rfl
  unfold idleSetup at hpopulation
  have hrun : ((prepare (idleRequest n)).run s).1 = .ok ⟨s.idleRecord n, p⟩ := by
    have hbase : (idleRequest n).baseline ≠ "" := by simp [idleRequest]
    have hsource : (idleRequest n).progenitor ≠ "" := by simp [idleRequest]
    have hmany : ¬(idleRequest n).generations ≤ 0 := Int64.not_le.mpr hn
    unfold prepare
    dsimp only
    rw [if_neg hbase, if_neg hsource, if_neg hmany, run_bind_of_ok hbaseline,
      run_bind_of_ok hprogenitor, run_liftM_bind, run_liftM_bind, run_bind_of_ok hselector, run_liftM_bind,
      run_liftM_bind, run_bind_of_ok hpopulation]
    rfl
  obtain ⟨s', hs'⟩ := exists_run hrun
  obtain ⟨-, -, -, -, hbest, hselector, -, -⟩ := prepare_ok hs'
  exact ⟨p, s', hs',
    { sim := hsim ▸ isStill_forage rfl rfl
      responds := hsim ▸ Breeding.responds_forage rfl
      selector := hselector
      opponent := hopponent ▸ List.forall_mem_singleton.mpr rfl
      repeats := hrepeats
      length := hstanding.numbered.length
      idle := hidle
      best := fun b hb => by
        rw [hbest] at hb
        cases hb }⟩

theorem saveRun_run (run : Archive.Run) {s : Session} {held : Archive.Holdings} (h : s.store = ⟨some held⟩) :
    ∃ held', (saveRun run).run s = (.ok (), { s with store := ⟨some held'⟩ }) := by
  rw [saveRun, run_get_bind, h]
  exact ⟨_, rfl⟩

theorem conclude_run (run : Archive.Run) (req : RunRequest) (best : Individual) (summary : RunSummary) {s : Session}
    {held : Archive.Holdings} {path : String} {disk : Disk} (hstore : s.store = ⟨some held⟩) (hout : req.outDir = "")
    (hdir : s.artifactsDir ≠ "")
    (hwrite : (Archive.writeRun s.artifactsDir (runArtifacts run req summary) (s.env.wall s.env.taken)).run s.env.disk =
      (.ok path, disk)) :
    ∃ held', (conclude run req best summary).run s =
      (.ok (Disk.clean path), { s with store := ⟨some held'⟩, env := { s.env with disk } }) := by
  obtain ⟨held', hsave⟩ := saveRun_run (summary.complete run) hstore
  have hwritten : (onFiles .writeArtifacts
      (Archive.writeRun s.artifactsDir (runArtifacts run req summary) (s.env.wall s.env.taken))).run
      { s with store := ⟨some held'⟩ } = (.ok path, { s with store := ⟨some held'⟩, env := { s.env with disk } }) := by
    rw [onFiles, run_get_bind]
    dsimp only
    rw [hwrite]
    rfl
  unfold RunSummary.complete at hsave
  unfold conclude
  rw [run_bind_of_ok hsave, hout, if_neg (not_not.mpr rfl), run_get_bind, if_neg hdir]
  dsimp only
  rw [run_bind_of_ok hwritten]
  exact ⟨_, rfl⟩

theorem isWritable_idle (run : Archive.Run) (hrate : run.mutationRate = 0) (id : String) (n : Int64) :
    (runArtifacts run (idleRequest n) (idleSummary id n)).isWritable = true := by
  have hzero : Number.isFinite (0 : Float) = true := by decide +kernel
  unfold Archive.Artifacts.isWritable runArtifacts idleSummary
  simp [hrate, hzero, Archive.HistoryLine.isWritable, stillProgress]

/-- Idle individuals can be evolved: their program can be read, and artifacts can be written. -/
structure Quiet (s : Session) : Prop where
  load : s.env.disk.readFile "idle.sexp" = .ok "(step)".toUTF8
  store : ∃ held, s.store = ⟨some held⟩
  metrics : s.metrics = none
  kept : ∃ runs, Archive.Kept s.artifactsDir runs s.env.disk

theorem not_among_idle {base : String} (hbase : base ≠ "") (id : String) :
    ¬Archive.Among base id Archive.runFiles (Place.ofPath "idle.sexp") := by
  have hname : Place.ofPath "idle.sexp" = (Place.ofPath "").child "idle.sexp" := by decide +kernel
  rw [hname]
  rintro (hindex | ⟨f, hf, hfile⟩)
  · rw [Archive.indexPlace_eq hbase] at hindex
    exact absurd (Place.child_inj.mp hindex).2 (by decide)
  · have hne : "idle.sexp" ∉ Archive.runFiles := by decide
    exact hne ((Place.child_inj.mp hfile).2 ▸ hf)

/-- **The idle run succeeds**, and another one can follow. -/
theorem Quiet.evolve {s : Session} (h : Quiet s) {n : Int64} (hn : 0 < n)
    (hid : Archive.IsRunId (s.env.ids s.env.taken)) :
    ∃ ev s', (evolve (idleRequest n) .never).run s = (ev, s') ∧ ev.failure = none ∧
      ev.summary.generations = (List.range n.toInt.toNat).map stillProgress ∧
      Quiet s' ∧ s'.artifactsDir = s.artifactsDir ∧ s'.env.ids = s.env.ids ∧ s'.env.taken = s.env.taken + 1 := by
  obtain ⟨held, hstore⟩ := h.store
  obtain ⟨runs, hkept⟩ := h.kept
  obtain ⟨p, s₀, hprepare, hstill⟩ := prepare_idle h.load hn
  obtain ⟨-, -, -, hgeneration, -, -, ⟨hids, htaken⟩, hsame⟩ := prepare_ok hprepare
  obtain ⟨held₁, hsave⟩ := saveRun_run (s.idleRecord n) (hsame.store.trans hstore)
  have hready : (ready (idleRequest n)).run s = (.ok ⟨s.idleRecord n, p⟩, { s₀ with store := ⟨some held₁⟩ }) := by
    unfold ready
    rw [run_bind_of_ok hprepare, run_bind_of_ok hsave]
    rfl
  obtain ⟨s₂, hrun, henv, hsamedir, hstore₂, hmetrics₂⟩ := evolve_of_ready .never hready
  have hpositive : 0 < n.toInt.toNat := by
    have hlt : 0 < n.toInt := Int64.lt_iff_toInt_lt.mp hn
    omega
  obtain ⟨c, hc, hfailure, hgenerations, ⟨held₂, hheld⟩, hnone, hstill'⟩ := hstill.evolveFor (s.idleRecord n).id
    n.toInt.toNat (w := ⟨⟨some held₁⟩, s₀.metrics, [], []⟩) rfl (hsame.metrics.trans h.metrics) []
  have hcourse : course ⟨s.idleRecord n, p⟩ (idleRequest n) .never { s₀ with store := ⟨some held₁⟩ } = c := hc
  obtain ⟨best, hsome⟩ : ∃ best, c.population.best = some best := by
    obtain ⟨_, -, -, hbest⟩ := evolveFor_ok (hc ▸ hfailure)
    exact Option.ne_none_iff_exists'.mp (hc ▸ hbest (.inr hpositive))
  obtain ⟨hfitness, hprograms⟩ := hstill'.best best (by simp [hsome])
  rw [hcourse] at hrun hstore₂ hmetrics₂
  have hsummary : fittestSummary ⟨s.idleRecord n, p⟩ c best = idleSummary (s.idleRecord n).id n := by
    unfold fittestSummary
    rw [hgenerations, hfitness, hprograms, hgeneration, ← List.range_eq_range']
    rfl
  have hdir₂ : s₂.artifactsDir = s.artifactsDir := hsamedir.trans hsame.artifactsDir
  have hdisk₂ : s₂.env.disk = s.env.disk := by
    rw [henv]
    exact hsame.disk
  obtain ⟨disk, hwrite, hattempt, hkept'⟩ := hkept.write
    (a := (runArtifacts (s.idleRecord n) (idleRequest n) (idleSummary (s.idleRecord n).id n)).dated
      (s₂.env.wall s₂.env.taken)) (by rw [Archive.Artifacts.config_dated]; exact hid)
  rw [if_pos (by simpa using isWritable_idle _ rfl _ n)] at hwrite
  obtain ⟨held₃, hconclude⟩ := conclude_run (s.idleRecord n) (idleRequest n) best
    (fittestSummary ⟨s.idleRecord n, p⟩ c best) (hstore₂.trans hheld) rfl (hdir₂ ▸ hkept.tidy.base_ne)
    (by rw [hdir₂, hdisk₂, hsummary]; exact hwrite)
  obtain ⟨s', hfinish, henv', hdir', hstore', hmetrics'⟩ := finish_run ⟨s.idleRecord n, p⟩ hfailure hsome hconclude
  refine ⟨_, s', hrun.trans hfinish, rfl, congrArg RunSummary.generations hsummary, ?_, hdir'.trans hdir₂, ?_, ?_⟩
  · refine ⟨?_, ⟨held₃, hstore'⟩, hmetrics'.trans (hmetrics₂.trans hnone), ?_⟩
    · rw [henv']
      exact hattempt.grows.toExtends.readFile (not_among_idle hkept.tidy.base_ne _) h.load
    · rw [hdir'.trans hdir₂, henv']
      exact ⟨_, hkept'⟩
  · rw [henv']
    exact (congrArg Environment.ids henv).trans hids
  · rw [henv']
    exact (congrArg Environment.taken henv).trans htaken

end Session

end Forager
