import Forager.Proofs.Archive.Writing
import Forager.Proofs.Breeding.Best
import Forager.Session.Evolve

/-!
# A successful run

* `Told id gs w w'` : the observers of a run were told of the generations `gs`, one after another;
* `evolveFor_ok` : a course without a failure completes all its generations and tells of each;
* `ready`, `course`, `finish` : the parts of a run; `evolve_of_ready`;
* `Evolved req s ev s' run gs` : all that a successful run does to a session with an artifacts directory;
* `evolve_evolved` : it does that.
-/

namespace Forager

set_option autoImplicit false

open Breeding (Generation Individual Population)
open Archive (Store)

/-! ## Generations -/

theorem countGeneration_watch {g : Generation} {w w' : Watch} {r : Except String Unit}
    (h : (countGeneration g).run w = (r, w')) :
    w'.store = w.store ∧ w'.generations = w.generations ∧ w'.reported = w.reported := by
  rw [countGeneration, run_get_bind] at h
  cases hm : w.metrics with
  | none =>
    rw [hm] at h
    cases h
    exact ⟨rfl, rfl, rfl⟩
  | some m =>
    rw [hm] at h
    dsimp only at h
    rcases hrun : (Metrics.observe (.ofGeneration g)).run m with ⟨r, m'⟩
    rw [hrun] at h
    cases r with
    | ok u =>
      cases h
      exact ⟨rfl, rfl, rfl⟩
    | error e =>
      cases h
      exact ⟨rfl, rfl, rfl⟩

theorem keepRecord_run {id : String} {g : Generation} {w : Watch} {store : Store}
    (h : w.store.saveGeneration (generationRecord id g) = .ok store) :
    (keepRecord id g).run w = (.ok (), { w with store }) := by
  rw [keepRecord, run_get_bind, h]
  rfl

theorem reportGeneration_run (g : Generation) (w : Watch) : (reportGeneration g).run w = (.ok (), { w with
    generations := w.generations ++ [.ofGeneration g], reported := w.reported ++ [.ofGeneration g] }) := rfl

/-- The observers were told of generations, which are in the store, in the summary and in the report. -/
structure Told (id : String) (gs : List Generation) (w w' : Watch) : Prop where
  store : (gs.map (generationRecord id)).foldlM Store.saveGeneration w.store = .ok w'.store
  generations : w'.generations = w.generations ++ gs.map .ofGeneration
  reported : w'.reported = w.reported ++ gs.map .ofGeneration

/-- The observers are told of a generation whose record can be kept, even if one of them objects. -/
theorem notify_told {id : String} {g : Generation} {w w' : Watch} {store : Store} {r : Except String Unit}
    (hsave : w.store.saveGeneration (generationRecord id g) = .ok store)
    (h : (Breeding.notify g (observers id)).run w = (r, w')) : Told id [g] w w' := by
  unfold observers at h
  rw [Breeding.notify, run_bind_of_ok (keepRecord_run hsave), Breeding.notify,
    run_bind_of_ok (reportGeneration_run g _), Breeding.notify, run_bind_eq] at h
  rcases hcount : (countGeneration g).run _ with ⟨q, w₁⟩
  rw [hcount] at h
  obtain ⟨hstore, hgenerations, hreported⟩ := countGeneration_watch hcount
  obtain rfl : w₁ = w' := by
    cases q with
    | ok u =>
      cases h
      rfl
    | error e =>
      cases h
      rfl
  refine ⟨?_, hgenerations, hreported⟩
  rw [List.map_singleton, List.foldlM_cons, hsave, hstore]
  rfl

theorem notify_saved {id : String} {g : Generation} {w w' : Watch}
    (h : (Breeding.notify g (observers id)).run w = (.ok (), w')) :
    ∃ store, w.store.saveGeneration (generationRecord id g) = .ok store := by
  obtain ⟨_, w₁, hkeep, -⟩ := run_bind_ok h
  rw [keepRecord, run_get_bind] at hkeep
  cases hsave : w.store.saveGeneration (generationRecord id g) with
  | ok store => exact ⟨store, rfl⟩
  | error e =>
    rw [hsave] at hkeep
    cases hkeep

theorem Told.trans {id : String} {gs hs : List Generation} {w w' w'' : Watch} (h : Told id gs w w')
    (h' : Told id hs w' w'') : Told id (gs ++ hs) w w'' := by
  refine ⟨?_, ?_, ?_⟩
  · rw [List.map_append, List.foldlM_append, h.store]
    exact h'.store
  · rw [h'.generations, h.generations, List.append_assoc, List.map_append]
  · rw [h'.reported, h.reported, List.append_assoc, List.map_append]

theorem evolve_told {id : String} {p : Population} {deadline : Deadline} {w : Watch} {g : Generation}
    (h : (p.evolve (observers id) deadline w).1.result = .ok g) :
    Told id [g] w (p.evolve (observers id) deadline w).2 := by
  have hadvance := (Breeding.evolve_ok h).1
  unfold Population.evolve at h ⊢
  dsimp only at h ⊢
  rw [hadvance] at h ⊢
  dsimp only at h ⊢
  rcases hrun : (Breeding.notify g (observers id)).run w with ⟨r, w'⟩
  rw [hrun] at h
  cases r with
  | ok u =>
    obtain ⟨store, hsave⟩ := notify_saved hrun
    exact notify_told hsave hrun
  | error e => cases h

theorem evolveFor_ok {id : String} {count : Nat} {deadline : Deadline} {p : Population} {w : Watch} {journal : Journal}
    (h : (evolveFor id count deadline p w journal).failure = none) :
    ∃ gs, gs.map (·.index) = List.range' p.generation count ∧
      Told id gs w (evolveFor id count deadline p w journal).watch ∧
      (p.best ≠ none ∨ 0 < count → (evolveFor id count deadline p w journal).population.best ≠ none) := by
  induction count generalizing deadline p w journal with
  | zero => exact ⟨[], rfl, ⟨rfl, by simp [evolveFor], by simp [evolveFor]⟩,
    fun hbest => by simpa [evolveFor] using hbest⟩
  | succ count ih =>
    unfold evolveFor at h ⊢
    dsimp only at h ⊢
    cases hresult : (p.evolve (observers id) deadline w).1.result with
    | error e =>
      rw [hresult] at h
      cases h
    | ok g =>
      rw [hresult] at h
      dsimp only at h ⊢
      obtain ⟨hadvance, hpopulation⟩ := Breeding.evolve_ok hresult
      obtain ⟨first, others, playing, next, -, -, rfl, hnext⟩ := Breeding.advance_ok hadvance
      obtain ⟨gs, hindices, htold, hbest⟩ := ih h
      rw [hpopulation, hnext] at hindices hbest
      refine ⟨_ :: gs, ?_, (evolve_told hresult).trans htold, fun _ => ?_⟩
      · rw [List.map_cons, hindices, List.range'_succ]
        rfl
      · rw [hpopulation, hnext]
        exact hbest (.inl (by simp))

/-! ## Sessions -/

def RunSummary.complete (summary : RunSummary) (run : Archive.Run) : Archive.Run :=
  { run with completed := true, bestFitness := summary.bestFitness, bestPrograms := summary.bestPrograms }

namespace Session

/-- What does not change while a run is made ready. -/
structure Same (s s' : Session) : Prop where
  disk : s'.env.disk = s.env.disk
  store : s'.store = s.store
  metrics : s'.metrics = s.metrics
  artifactsDir : s'.artifactsDir = s.artifactsDir

theorem settle_ok {ε α : Type} {wrap : ε → SessionError} {r : Except ε α} {a : α} {s s' : Session}
    (h : (settle wrap r).run s = (.ok a, s')) : r = .ok a ∧ s' = s := by
  cases r with
  | ok b =>
    cases h
    exact ⟨rfl, rfl⟩
  | error e => cases h

theorem loadRole_same {role path : String} {ind : Individual} {s s' : Session}
    (h : (loadRole role path).run s = (.ok ind, s')) : s' = s := by
  rw [loadRole, run_get_bind] at h
  exact (settle_ok h).2

theorem prepare_ok {req : RunRequest} {s s' : Session} {plan : Plan} (h : (prepare req).run s = (.ok plan, s')) :
    0 < req.generations ∧ plan.record.id = s.env.ids s.env.taken ∧
      (plan.record.completed = false ∧ plan.record.bestPrograms = []) ∧ plan.population.generation = 0 ∧
      plan.population.best = none ∧ plan.population.selector.Sure ∧
      (s'.env.ids = s.env.ids ∧ s'.env.taken = s.env.taken + 1) ∧ Same s s' := by
  unfold prepare at h
  dsimp only at h
  split at h
  · cases h
  split at h
  · cases h
  split at h
  · cases h
  rename_i hgenerations
  obtain ⟨baseline, s₁, hbaseline, h₁⟩ := run_bind_ok h
  obtain ⟨progenitor, s₂, hprogenitor, h₂⟩ := run_bind_ok h₁
  obtain ⟨_, s₃, hnote, h₃⟩ := run_bind_ok h₂
  obtain ⟨_, s₄, hnote', h₄⟩ := run_bind_ok h₃
  obtain ⟨selector, s₅, hselector, h₅⟩ := run_bind_ok h₄
  obtain ⟨id, s₆, hid, h₆⟩ := run_bind_ok h₅
  obtain ⟨createdAt, s₇, hclock, h₇⟩ := run_bind_ok h₆
  obtain ⟨population, s₈, hnew, h₈⟩ := run_bind_ok h₇
  clear h h₁ h₂ h₃ h₄ h₅ h₆ h₇
  have hs₁ := loadRole_same hbaseline
  have hs₂ := loadRole_same hprogenitor
  obtain ⟨hnamed, hs₅⟩ := settle_ok hselector
  obtain ⟨hpopulation, hs₈⟩ := settle_ok hnew
  cases hnote
  cases hnote'
  cases hid
  cases hclock
  cases h₈
  subst hs₈ hs₅ hs₂ hs₁
  refine ⟨?_, rfl, ⟨rfl, rfl⟩, ?_, Breeding.new_best hpopulation, ?_, ⟨rfl, rfl⟩, ⟨rfl, rfl, rfl, rfl⟩⟩
  · exact Int64.not_le.mp hgenerations
  · exact Breeding.new_generation hpopulation
  · exact Breeding.new_selector hpopulation ▸ Breeding.Selector.sure_of_ofName hnamed

theorem saveRun_ok {run : Archive.Run} {s s' : Session} (h : (saveRun run).run s = (.ok (), s')) :
    ∃ store, s.store.saveRun run = .ok store ∧ s' = { s with store } := by
  rw [saveRun, run_get_bind] at h
  obtain ⟨store, s₁, hsave, hset⟩ := run_bind_ok h
  obtain ⟨hstore, rfl⟩ := settle_ok hsave
  cases hset
  exact ⟨store, hstore, rfl⟩

theorem onFiles_ok {ε α : Type} {wrap : ε → SessionError} {m : ExceptT ε (StateM Disk) α} {a : α} {s s' : Session}
    (h : (onFiles wrap m).run s = (.ok a, s')) :
    ∃ disk, m.run s.env.disk = (.ok a, disk) ∧ s' = { s with env := { s.env with disk } } := by
  rw [onFiles, run_get_bind] at h
  rcases hm : m.run s.env.disk with ⟨r, disk⟩
  rw [hm] at h
  obtain ⟨_, s₁, hset, hsettle⟩ := run_bind_ok h
  obtain ⟨rfl, rfl⟩ := settle_ok hsettle
  cases hset
  exact ⟨disk, rfl, rfl⟩

theorem conclude_ok {run : Archive.Run} {req : RunRequest} {best : Individual} {summary : RunSummary} {path : String}
    {s s' : Session} (hdir : s.artifactsDir ≠ "") (h : (conclude run req best summary).run s = (.ok path, s')) :
    ∃ disk now, s.store.saveRun (summary.complete run) = .ok s'.store ∧ s'.artifactsDir = s.artifactsDir ∧
      (disk = s.env.disk ∨ req.outDir ≠ "" ∧ (best.write req.outDir).run s.env.disk = (.ok (), disk)) ∧
      Archive.Wrote s.artifactsDir ((runArtifacts run req summary).dated now) disk s'.env.disk := by
  unfold conclude at h
  obtain ⟨_, s₁, hsave, h₁⟩ := run_bind_ok h
  obtain ⟨store, hstore, rfl⟩ := saveRun_ok hsave
  have hfinish : ∀ {t : Session}, t.store = store → t.artifactsDir = s.artifactsDir →
      (do
        let t ← get
        if t.artifactsDir = "" then return ""
        let now := t.env.wall t.env.taken
        let path ← onFiles .writeArtifacts (Archive.writeRun t.artifactsDir (runArtifacts run req summary) now)
        return Disk.clean path : Acts String).run t = (.ok path, s') →
      ∃ now, s.store.saveRun (summary.complete run) = .ok s'.store ∧ s'.artifactsDir = s.artifactsDir ∧
        Archive.Wrote s.artifactsDir ((runArtifacts run req summary).dated now) t.env.disk s'.env.disk := by
    intro t ht hartifacts hrun
    rw [run_get_bind, hartifacts, if_neg hdir] at hrun
    obtain ⟨_, t₁, hwrite, hend⟩ := run_bind_ok hrun
    obtain ⟨disk, hdisk, rfl⟩ := onFiles_ok hwrite
    cases hend
    exact ⟨_, ht ▸ hstore, hartifacts, (Archive.recordRun_ok hdisk).2⟩
  split at h₁
  · rename_i hne
    obtain ⟨_, s₂, hout, h₂⟩ := run_bind_ok h₁
    obtain ⟨disk, hdisk, rfl⟩ := onFiles_ok hout
    obtain ⟨now, hsaved, hsame, hwrote⟩ := hfinish (by rfl) (by rfl) h₂
    exact ⟨disk, now, hsaved, hsame, .inr ⟨hne, hdisk⟩, hwrote⟩
  · obtain ⟨now, hsaved, hsame, hwrote⟩ := hfinish (by rfl) (by rfl) h₁
    exact ⟨s.env.disk, now, hsaved, hsame, .inl rfl, hwrote⟩

/-! ## The parts of a run -/

/-- What comes before the generations: the run is made ready and saved. -/
def ready (req : RunRequest) : Acts Plan := do
  let plan ← prepare req
  saveRun plan.record
  return plan

def course (plan : Plan) (req : RunRequest) (deadline : Deadline) (s : Session) : Course :=
  evolveFor plan.record.id req.generations.toInt.toNat deadline plan.population ⟨s.store, s.metrics, [], []⟩ []

/-- What is known of a run after its generations. -/
def fittestSummary (plan : Plan) (c : Course) (best : Individual) : RunSummary where
  runId := plan.record.id
  generations := c.watch.generations
  bestFitness := best.fitness
  bestPrograms := best.programs.map (·.print)

/-- What comes after the generations. -/
def finish (plan : Plan) (req : RunRequest) (c : Course) : StateM Session Evolution := do
  let summary : RunSummary := { runId := plan.record.id, generations := c.watch.generations }
  match c.failure, c.population.best with
  | some e, _ => return ⟨summary, c.watch.reported, some (.generation c.population.generation e)⟩
  | none, none => return ⟨summary, c.watch.reported, none⟩
  | none, some best =>
    let summary := fittestSummary plan c best
    match ← (conclude plan.record req best summary).run with
    | .error e => return ⟨summary, c.watch.reported, some e⟩
    | .ok artifactsDir =>
      noteRun plan.record.id [⟨.info, "run completed", [("best_fitness", .real summary.bestFitness)]⟩]
      return ⟨{ summary with artifactsDir }, c.watch.reported, none⟩

/-- A run that was made ready goes on with its generations. -/
theorem evolve_of_ready {req : RunRequest} {s s₁ : Session} {plan : Plan} (deadline : Deadline)
    (h : (ready req).run s = (.ok plan, s₁)) :
    ∃ s₂, (evolve req deadline).run s = (finish plan req (course plan req deadline s₁)).run s₂ ∧
      s₂.env = s₁.env ∧ s₂.artifactsDir = s₁.artifactsDir ∧
      s₂.store = (course plan req deadline s₁).watch.store ∧
      s₂.metrics = (course plan req deadline s₁).watch.metrics := by
  have hstart : StateT.run (ready req).run s = _ := h
  unfold evolve
  change ∃ s₂, StateT.run ((ready req).run >>= _) s = _ ∧ _
  rw [run_bind_state, hstart]
  exact ⟨_, rfl, rfl, rfl, rfl, rfl⟩

theorem evolve_of_not_ready {req : RunRequest} {s s₁ : Session} {e : SessionError} (deadline : Deadline)
    (h : (ready req).run s = (.error e, s₁)) : (evolve req deadline).run s = ({ failure := some e }, s₁) := by
  have hstart : StateT.run (ready req).run s = _ := h
  unfold evolve
  change StateT.run ((ready req).run >>= _) s = _
  rw [run_bind_state, hstart]
  rfl

/-- A run that was made ready was prepared and then saved. -/
theorem ready_inv {req : RunRequest} {s s₁ : Session} {plan : Plan} (h : (ready req).run s = (.ok plan, s₁)) :
    ∃ s₀, (prepare req).run s = (.ok plan, s₀) ∧ ∃ store, s.store.saveRun plan.record = .ok store ∧
      s₁ = { s₀ with store } := by
  obtain ⟨plan, s₀, hprepare, hrest⟩ := run_bind_ok h
  obtain ⟨_, _, hsave, hreturn⟩ := run_bind_ok hrest
  cases hreturn
  obtain ⟨-, -, -, -, -, -, -, hsame⟩ := prepare_ok hprepare
  obtain ⟨store, hstore, rfl⟩ := saveRun_ok hsave
  exact ⟨s₀, hprepare, store, hsame.store ▸ hstore, rfl⟩

theorem ready_ok {req : RunRequest} {s s₁ : Session} {plan : Plan} (h : (ready req).run s = (.ok plan, s₁)) :
    0 < req.generations ∧ plan.record.id = s.env.ids s.env.taken ∧ plan.population.generation = 0 ∧
      s₁.env.disk = s.env.disk ∧ s₁.artifactsDir = s.artifactsDir ∧ s.store.saveRun plan.record = .ok s₁.store := by
  obtain ⟨s₀, hprepare, store, hstore, rfl⟩ := ready_inv h
  obtain ⟨hpositive, hid, -, hgeneration, -, -, -, hsame⟩ := prepare_ok hprepare
  exact ⟨hpositive, hid, hgeneration, hsame.disk, hsame.artifactsDir, hstore⟩

theorem finish_run (plan : Plan) {req : RunRequest} {c : Course} {s t : Session} {best : Individual} {path : String}
    (hfailure : c.failure = none) (hbest : c.population.best = some best)
    (h : (conclude plan.record req best (fittestSummary plan c best)).run s = (.ok path, t)) :
    ∃ s', (finish plan req c).run s =
        (⟨{ fittestSummary plan c best with artifactsDir := path }, c.watch.reported, none⟩, s') ∧
      s'.env = t.env ∧ s'.artifactsDir = t.artifactsDir ∧ s'.store = t.store ∧ s'.metrics = t.metrics := by
  have hconclude : StateT.run (conclude plan.record req best (fittestSummary plan c best)).run s = _ := h
  unfold finish
  rw [hfailure, hbest]
  dsimp only
  rw [run_bind_state, hconclude]
  exact ⟨_, rfl, rfl, rfl, rfl, rfl⟩

theorem finish_ok {plan : Plan} {req : RunRequest} {c : Course} {s s' : Session} {ev : Evolution}
    (h : (finish plan req c).run s = (ev, s')) (hok : ev.failure = none)
    (hbest : c.failure = none → c.population.best ≠ none) :
    c.failure = none ∧ ∃ best path t,
      (conclude plan.record req best (fittestSummary plan c best)).run s = (.ok path, t) ∧
      ev = ⟨{ fittestSummary plan c best with artifactsDir := path }, c.watch.reported, none⟩ ∧
      s'.env = t.env ∧ s'.artifactsDir = t.artifactsDir ∧ s'.store = t.store ∧ s'.metrics = t.metrics := by
  cases hfailure : c.failure with
  | some e =>
    unfold finish at h
    rw [hfailure] at h
    cases h
    cases hok
  | none =>
    obtain ⟨best, hsome⟩ := Option.ne_none_iff_exists'.mp (hbest hfailure)
    rcases hconclude : (conclude plan.record req best (fittestSummary plan c best)).run s with ⟨r, t⟩
    cases r with
    | error e =>
      have hrun : StateT.run (conclude plan.record req best (fittestSummary plan c best)).run s = _ := hconclude
      unfold finish at h
      rw [hfailure, hsome] at h
      dsimp only at h
      rw [run_bind_state, hrun] at h
      cases h
      cases hok
    | ok path =>
      obtain ⟨s'', hrun, hkept⟩ := finish_run plan hfailure hsome hconclude
      rw [hrun] at h
      cases h
      exact ⟨rfl, best, path, t, hconclude, rfl, hkept⟩

/-- What a successful run does to a session with an artifacts directory. -/
structure Evolved (req : RunRequest) (s : Session) (ev : Evolution) (s' : Session) (run : Archive.Run)
    (gs : List Generation) : Prop where
  positive : 0 < req.generations
  id : run.id = s.env.ids s.env.taken
  indices : gs.map (·.index) = List.range req.generations.toInt.toNat
  summary : ev.summary.runId = run.id ∧ ev.summary.generations = gs.map .ofGeneration
  reported : ev.reported = gs.map .ofGeneration
  store : ∃ store₁ store₂, s.store.saveRun run = .ok store₁ ∧
    (gs.map (generationRecord run.id)).foldlM Store.saveGeneration store₁ = .ok store₂ ∧
    store₂.saveRun (ev.summary.complete run) = .ok s'.store
  disk : ∃ (best : Individual) (disk : Disk) (now : Timestamp),
    (disk = s.env.disk ∨ req.outDir ≠ "" ∧ (best.write req.outDir).run s.env.disk = (.ok (), disk)) ∧
    Archive.Wrote s.artifactsDir ((runArtifacts run req ev.summary).dated now) disk s'.env.disk
  artifactsDir : s'.artifactsDir = s.artifactsDir

theorem evolve_evolved {req : RunRequest} {deadline : Deadline} {s s' : Session} {ev : Evolution}
    (hdir : s.artifactsDir ≠ "") (h : (evolve req deadline).run s = (ev, s')) (hok : ev.failure = none) :
    ∃ run gs, Evolved req s ev s' run gs := by
  rcases hready : (ready req).run s with ⟨r, s₁⟩
  cases r with
  | error e =>
    rw [evolve_of_not_ready deadline hready] at h
    cases h
    cases hok
  | ok plan =>
    obtain ⟨hpositive, hid, hgeneration, hdisk₁, hdir₁, hstore₁⟩ := ready_ok hready
    obtain ⟨s₂, hrun, henv₂, hdir₂, hstore₂, -⟩ := evolve_of_ready deadline hready
    rw [hrun] at h
    have hpos : 0 < req.generations.toInt.toNat := by
      have hlt : 0 < req.generations.toInt := Int64.lt_iff_toInt_lt.mp hpositive
      omega
    have hbest : (course plan req deadline s₁).failure = none →
        (course plan req deadline s₁).population.best ≠ none := by
      intro hfailure
      obtain ⟨_, -, -, hbest⟩ := evolveFor_ok hfailure
      exact hbest (.inr hpos)
    obtain ⟨hfailure, best, path, t, hconclude, rfl, henv, hartifacts, hstore, -⟩ := finish_ok h hok hbest
    obtain ⟨gs, hindices, htold, -⟩ := evolveFor_ok hfailure
    have hsamedir : s₂.artifactsDir = s.artifactsDir := hdir₂.trans hdir₁
    obtain ⟨disk, now, hsaved, hkept, hout, hwrote⟩ := conclude_ok (hsamedir ▸ hdir) hconclude
    rw [henv₂, hdisk₁] at hout
    rw [hsamedir] at hkept hwrote
    rw [hstore₂, ← hstore] at hsaved
    rw [← henv] at hwrote
    refine ⟨plan.record, gs, hpositive, hid, ?_, ⟨rfl, ?_⟩, ?_, ⟨s₁.store, _, hstore₁, htold.store, hsaved⟩,
      ⟨best, disk, now, hout, hwrote⟩, hartifacts.trans hkept⟩
    · rw [hindices, hgeneration, List.range_eq_range']
    · exact htold.generations.trans (List.nil_append _)
    · exact htold.reported.trans (List.nil_append _)

end Session

end Forager
