import Forager.Proofs.Session.Agreement

/-!
# A run that fails

A run that fails in one of its generations leaves the records of those that were completed, and nothing else. One that
fails earlier leaves nothing at all.

* `SessionError.isEarly`, `SessionError.isLate` : the errors of a run that was not saved yet, and of one that has
  completed all its generations;
* `prepare_early`, `ready_error` : what fails early changes neither store nor files;
* `evolveFor_error` : a course that fails has told of all generations that it completed;
* `failed_run_prefix` : what a run leaves that fails.
-/

namespace Forager

set_option autoImplicit false

open Breeding (Completed Generation Individual Population)
open Archive (Store)

/-- Whether a run failed before it was saved. -/
def SessionError.isEarly : SessionError → Bool
  | .noBaseline | .noProgenitor | .noGenerations | .load _ _ | .selection _ | .setup _ | .saveRun _ => true
  | _ => false

/-- Whether a run failed after its generations. -/
def SessionError.isLate : SessionError → Bool
  | .writeFittest _ | .writeArtifacts _ => true
  | _ => false

theorem SessionError.not_isEarly {e : SessionError} (h : e.isLate = true) : e.isEarly = false := by
  cases e <;> first | rfl | cases h

/-! ## Stores -/

theorem saveGeneration_run {store : Store} {held : Archive.Holdings} (h : store.holdings = some held)
    (g : Archive.GenerationRecord) : ∃ store', store.saveGeneration g = .ok store' := by
  unfold Store.saveGeneration Store.contents
  rw [h]
  exact ⟨_, rfl⟩

theorem saveGenerations_holdings {gs : List Archive.GenerationRecord} {store store' : Store}
    (h : gs.foldlM Store.saveGeneration store = .ok store') (hstore : ∃ held, store.holdings = some held) :
    ∃ held, store'.holdings = some held := by
  induction gs generalizing store with
  | nil =>
    cases h
    exact hstore
  | cons g gs ih =>
    obtain ⟨store₁, hfirst, hrest⟩ := Store.foldlM_cons_ok h
    obtain ⟨_, -, hheld⟩ := Store.saveGeneration_eq hfirst
    exact ih hrest ⟨_, hheld⟩

theorem saveRun_holdings {store store' : Store} {run : Archive.Run} (h : store.saveRun run = .ok store') :
    ∃ held, store'.holdings = some held := by
  unfold Store.saveRun Store.contents at h
  cases hs : store.holdings with
  | none =>
    rw [hs] at h
    cases h
  | some held =>
    rw [hs] at h
    cases h
    exact ⟨_, rfl⟩

/-! ## Generations -/

theorem advance_error {p : Population} {deadline : Deadline} {e : Breeding.EvolveError}
    (h : (p.advance deadline).result = .error e) : (p.advance deadline).population.generation = p.generation := by
  unfold Population.advance at h ⊢
  generalize Breeding.evaluateAll p.simulator p.opponent p.repeats p.matchSeed p.individuals ⟨p.played, deadline, []⟩ =
    evaluated at h ⊢
  obtain ⟨failure, individuals, playing⟩ := evaluated
  cases failure with
  | some e => rfl
  | none => cases individuals with
    | nil => rfl
    | cons first others =>
      dsimp only at h ⊢
      cases hnext : p.offspring first others with
      | error e => rfl
      | ok next =>
        rw [hnext] at h
        cases h

/-- What was completed of a course that failed: the generations `gs`, which the observers were told of. -/
structure Stopped (id : String) (p : Population) (w : Watch) (gs : List Generation) (p' : Population) (w' : Watch) :
    Prop where
  completed : ∃ q, Completed p gs q
  indices : gs.map (·.index) = List.range' p.generation gs.length
  generation : p'.generation = p.generation + gs.length
  told : Told id gs w w'

/-- A generation that fails was not completed, or one of the observers objected. -/
theorem evolve_error {id : String} {p : Population} {deadline : Deadline} {w : Watch} {e : Breeding.EvolveError}
    (hstore : ∃ held, w.store.holdings = some held)
    (h : (p.evolve (observers id) deadline w).1.result = .error e) :
    ∃ gs, gs.length ≤ 1 ∧
      Stopped id p w gs (p.evolve (observers id) deadline w).1.population (p.evolve (observers id) deadline w).2 := by
  unfold Population.evolve at h ⊢
  dsimp only at h ⊢
  cases hadvance : (p.advance deadline).result with
  | error e =>
    exact ⟨[], Nat.zero_le 1, ⟨p, .start⟩, rfl, advance_error hadvance, rfl, by simp, by simp⟩
  | ok g =>
    obtain ⟨held, hheld⟩ := hstore
    obtain ⟨store, hsave⟩ := saveGeneration_run hheld (generationRecord id g)
    rw [hadvance] at h
    dsimp only at h ⊢
    rcases hrun : (Breeding.notify g (observers id)).run w with ⟨r, w'⟩
    rw [hrun] at h
    obtain ⟨_, _, _, _, -, -, rfl, hpopulation⟩ := Breeding.advance_ok hadvance
    cases r with
    | ok u =>
      dsimp only at h
      rw [hadvance] at h
      cases h
    | error message =>
      have hcompleted : Completed p [_] _ := .evolve .start
        (show (p.evolve ([] : List (Breeding.Observer Unit)) deadline ()).1.result = .ok _ by
          rw [Breeding.evolve_nil]
          exact hadvance)
      refine ⟨[_], Nat.le_refl 1, ⟨_, hcompleted⟩, rfl, ?_, notify_told hsave hrun⟩
      dsimp only
      rw [hpopulation]
      rfl

/-- **A course that fails** has told of every generation that it completed. -/
theorem evolveFor_error {id : String} {count : Nat} {deadline : Deadline} {p : Population} {w : Watch}
    {journal : Journal} {e : Breeding.EvolveError} (hstore : ∃ held, w.store.holdings = some held)
    (h : (evolveFor id count deadline p w journal).failure = some e) :
    ∃ gs, gs.length ≤ count ∧ Stopped id p w gs (evolveFor id count deadline p w journal).population
      (evolveFor id count deadline p w journal).watch := by
  induction count generalizing deadline p w journal with
  | zero => cases h
  | succ count ih =>
    unfold evolveFor at h ⊢
    dsimp only at h ⊢
    cases hresult : (p.evolve (observers id) deadline w).1.result with
    | error e =>
      obtain ⟨gs, hlength, hstopped⟩ := evolve_error hstore hresult
      exact ⟨gs, by omega, hstopped⟩
    | ok g =>
      rw [hresult] at h
      dsimp only at h ⊢
      have htold := evolve_told hresult
      obtain ⟨gs, hlength, hstopped⟩ := ih (saveGenerations_holdings htold.store hstore) h
      obtain ⟨hadvance, hpopulation⟩ := Breeding.evolve_ok hresult
      obtain ⟨_, _, _, _, -, -, rfl, hnext⟩ := Breeding.advance_ok hadvance
      have hgeneration : (p.evolve (observers id) deadline w).1.population.generation = p.generation + 1 := by
        rw [hpopulation, hnext]
      obtain ⟨q, hcompleted⟩ := hstopped.completed
      refine ⟨_ :: gs, Nat.succ_le_succ hlength, ⟨q, (Completed.evolve .start hresult).trans hcompleted⟩, ?_, ?_,
        htold.trans hstopped.told⟩
      · rw [List.map_cons, hstopped.indices, hgeneration, List.length_cons, List.range'_succ]
        rfl
      · rw [hstopped.generation, hgeneration, List.length_cons]
        omega

theorem advance_passed {p : Population} (h : p.repeats = 1) : ∃ e, (p.advance .passed).result = .error e := by
  unfold Population.advance
  cases hinds : p.individuals with
  | nil => exact ⟨_, rfl⟩
  | cons ind rest =>
    rw [h]
    exact ⟨_, rfl⟩

/-- A course of two generations that is called off after the first. -/
theorem evolveFor_calledOff {p : Population} (h : Still p) (id : String) {w : Watch} {held : Archive.Holdings}
    (hstore : w.store = ⟨some held⟩) (hmetrics : w.metrics = none) (journal : Journal) :
    ∃ x, (evolveFor id 2 (some 4) p w journal).failure = some x ∧
      (evolveFor id 2 (some 4) p w journal).watch.generations = w.generations ++ [stillProgress p.generation] ∧
      (evolveFor id 2 (some 4) p w journal).population.generation = p.generation + 1 := by
  obtain ⟨g, hg, hdeadline, hfigures, hstill, hgeneration⟩ := h.advance .passed
  change (p.advance (some 4)).result = _ at hg
  change (p.advance (some 4)).deadline = some 0 at hdeadline
  change (p.advance (some 4)).population.generation = _ at hgeneration
  obtain ⟨w', hnotify, hgenerations, -⟩ := notify_ok id g hstore hmetrics
  obtain ⟨x, hx⟩ := advance_passed hstill.repeats
  change ((p.advance (some 4)).population.advance .passed).result = _ at hx
  have hstop : (p.advance (some 4)).population.evolve (observers id) (some 0) w' =
      ((p.advance (some 4)).population.advance .passed, w') := by
    change (p.advance (some 4)).population.evolve (observers id) .passed w' = _
    unfold Population.evolve
    dsimp only
    rw [hx]
  rw [evolveFor, evolve_of_notify hg hnotify]
  dsimp only
  rw [hg]
  dsimp only
  rw [hdeadline, evolveFor, hstop]
  dsimp only
  rw [hx]
  exact ⟨x, rfl, hfigures ▸ hgenerations, (advance_error hx).trans hgeneration⟩

namespace Session

/-! ## Before and after the generations -/

theorem Same.refl (s : Session) : Same s s := ⟨rfl, rfl, rfl, rfl⟩

section

variable {α : Type} {I : Session → Prop} {kind : SessionError → Bool}

theorem settle_safe {ε : Type} {wrap : ε → SessionError} (h : ∀ x, kind (wrap x) = true) (r : Except ε α) :
    Safe I (kind · = true) (settle wrap r) := by
  cases r with
  | ok a => exact .pure trivial
  | error x => exact .throw (h x)

theorem get_safe {f : Session → Acts α} (h : ∀ s, Safe I (kind · = true) (f s)) :
    Safe I (kind · = true) ((get : Acts Session) >>= f) :=
  fun s r s' hs hr => h s s r s' hs hr

theorem onFiles_safe {ε : Type} {wrap : ε → SessionError} (h : ∀ x, kind (wrap x) = true)
    (m : ExceptT ε (StateM Disk) α) : Safe (fun _ => True) (kind · = true) (onFiles wrap m) :=
  get_safe fun _ => .bind (.lift (fun _ _ => trivial) (.any _)) fun _ _ => settle_safe h _

end

/-- What is done before the run is saved fails early, and changes neither store nor files. -/
theorem prepare_early (req : RunRequest) (s : Session) : Safe (Same s) (·.isEarly = true) (prepare req) := by
  have hload : ∀ role path, Safe (Same s) (·.isEarly = true) (loadRole role path) := fun role path =>
    get_safe fun t => settle_safe (fun _ => rfl) _
  have hlift : ∀ {α : Type} (x : StateM Session α), (∀ t, Same s t → Same s (x.run t).2) →
      Safe (Same s) (·.isEarly = true) (x : Acts α) := fun x hx => .lift hx (.any x)
  unfold prepare
  dsimp only
  split
  · exact .throw rfl
  split
  · exact .throw rfl
  split
  · exact .throw rfl
  refine .bind (hload _ _) fun baseline _ => .bind (hload _ _) fun progenitor _ => ?_
  refine .bind (hlift _ fun t ht => ⟨ht.disk, ht.store, ht.metrics, ht.artifactsDir⟩) fun _ _ => ?_
  refine .bind (hlift _ fun t ht => ⟨ht.disk, ht.store, ht.metrics, ht.artifactsDir⟩) fun _ _ => ?_
  refine .bind (settle_safe (fun _ => rfl) _) fun selector _ => ?_
  refine .bind (hlift _ fun t ht => ⟨ht.disk, ht.store, ht.metrics, ht.artifactsDir⟩) fun id _ => ?_
  refine .bind (hlift _ fun t ht => ⟨ht.disk, ht.store, ht.metrics, ht.artifactsDir⟩) fun createdAt _ => ?_
  exact .bind (settle_safe (fun _ => rfl) _) fun population _ => .pure trivial

theorem ready_error {req : RunRequest} {s s₁ : Session} {e : SessionError} (h : (ready req).run s = (.error e, s₁)) :
    e.isEarly = true ∧ Same s s₁ := by
  unfold ready at h
  rw [run_bind_eq] at h
  rcases hprepare : (prepare req).run s with ⟨r, s₀⟩
  obtain ⟨hsame, hearly, -⟩ := prepare_early req s s r s₀ (.refl s) hprepare
  rw [hprepare] at h
  cases r with
  | error x =>
    cases h
    exact ⟨hearly e rfl, hsame⟩
  | ok plan =>
    dsimp only at h
    rw [run_bind_eq, saveRun, run_get_bind] at h
    cases hsave : s₀.store.saveRun plan.record with
    | ok store =>
      rw [hsave] at h
      cases h
    | error x =>
      rw [hsave] at h
      cases h
      exact ⟨rfl, hsame⟩

/-- What is done after the generations fails late, in a store that was initialized. -/
theorem conclude_late {run : Archive.Run} {req : RunRequest} {best : Individual} {summary : RunSummary} {s s' : Session}
    {e : SessionError} (hstore : ∃ held, s.store.holdings = some held)
    (h : (conclude run req best summary).run s = (.error e, s')) : e.isLate = true := by
  obtain ⟨held, hheld⟩ := hstore
  have hinitialized : s.store = ⟨some held⟩ := congrArg Store.mk hheld
  obtain ⟨held', hsave⟩ := saveRun_run (summary.complete run) hinitialized
  unfold RunSummary.complete at hsave
  unfold conclude at h
  rw [run_bind_of_ok hsave] at h
  have hrest : Safe (fun _ => True) (·.isLate = true) (do
      let t ← get
      if t.artifactsDir = "" then return ""
      let now := t.env.wall t.env.taken
      let path ← onFiles .writeArtifacts (Archive.writeRun t.artifactsDir (runArtifacts run req summary) now)
      return Disk.clean path : Acts String) := by
    refine get_safe fun t => ?_
    dsimp only
    split
    · exact .pure trivial
    · exact .bind (onFiles_safe (fun _ => rfl) _) fun _ _ => .pure trivial
  split at h
  · have hwrite : Safe (fun _ => True) (·.isLate = true) (onFiles .writeFittest (best.write req.outDir)) :=
      onFiles_safe (fun _ => rfl) _
    exact ((hwrite.bind fun _ _ => hrest) _ _ _ trivial h).2.1 e rfl
  · exact (hrest _ _ _ trivial h).2.1 e rfl

theorem finish_failed (plan : Plan) (req : RunRequest) {c : Course} {x : Breeding.EvolveError} (h : c.failure = some x)
    (s : Session) : (finish plan req c).run s =
      (⟨{ runId := plan.record.id, generations := c.watch.generations }, c.watch.reported,
        some (.generation c.population.generation x)⟩, s) := by
  unfold finish
  rw [h]
  rfl

theorem finish_late {plan : Plan} {req : RunRequest} {c : Course} {s s' : Session} {ev : Evolution} {e : SessionError}
    (hfailure : c.failure = none) (hstore : ∃ held, s.store.holdings = some held)
    (h : (finish plan req c).run s = (ev, s')) (hfailed : ev.failure = some e) : e.isLate = true := by
  unfold finish at h
  rw [hfailure] at h
  cases hbest : c.population.best with
  | none =>
    rw [hbest] at h
    cases h
    cases hfailed
  | some best =>
    rcases hconclude : (conclude plan.record req best (fittestSummary plan c best)).run s with ⟨r, t⟩
    have hrun : StateT.run (conclude plan.record req best (fittestSummary plan c best)).run s = _ := hconclude
    rw [hbest] at h
    dsimp only at h
    rw [run_bind_state, hrun] at h
    cases r with
    | ok path =>
      cases h
      cases hfailed
    | error x =>
      cases h
      cases hfailed
      exact conclude_late hstore hconclude

/-! ## Runs -/

/-- What a run leaves that fails after the generations `gs`. -/
structure Abandoned (req : RunRequest) (s : Session) (ev : Evolution) (s' : Session) (plan : Plan)
    (gs : List Generation) : Prop where
  prepared : ∃ t, (prepare req).run s = (.ok plan, t)
  completed : ∃ q, Completed plan.population gs q
  length : gs.length ≤ req.generations.toInt.toNat
  indices : gs.map (·.index) = List.range gs.length
  summary : ev.summary = { runId := plan.record.id, generations := gs.map .ofGeneration }
  reported : ev.reported = gs.map .ofGeneration
  store : ∃ store, s.store.saveRun plan.record = .ok store ∧
    (gs.map (generationRecord plan.record.id)).foldlM Store.saveGeneration store = .ok s'.store
  disk : s'.env.disk = s.env.disk
  artifactsDir : s'.artifactsDir = s.artifactsDir

/-- **How a run fails**: early, in one of its generations, or late. -/
theorem evolve_failed {req : RunRequest} {deadline : Deadline} {s s' : Session} {ev : Evolution} {e : SessionError}
    (h : (evolve req deadline).run s = (ev, s')) (hfailed : ev.failure = some e) :
    (∃ t, (ready req).run s = (.error e, t)) ∧ ev = { failure := some e } ∧ Same s s' ∨
      (∃ plan gs x, e = .generation gs.length x ∧ Abandoned req s ev s' plan gs) ∨ e.isLate = true := by
  rcases hready : (ready req).run s with ⟨r, s₁⟩
  cases r with
  | error x =>
    rw [evolve_of_not_ready deadline hready] at h
    cases h
    cases hfailed
    exact .inl ⟨⟨_, rfl⟩, rfl, (ready_error hready).2⟩
  | ok plan =>
    obtain ⟨s₀, hprepare, store, hsave, rfl⟩ := ready_inv hready
    obtain ⟨-, -, -, hgeneration, -, -, -, hsame⟩ := prepare_ok hprepare
    obtain ⟨s₂, hrun, henv, hdir, hstore₂, -⟩ := evolve_of_ready deadline hready
    rw [hrun] at h
    have hheld := saveRun_holdings hsave
    cases hfailure : (course plan req deadline { s₀ with store }).failure with
    | none =>
      obtain ⟨gs, -, htold, -⟩ := evolveFor_ok hfailure
      have hheld₂ := saveGenerations_holdings htold.store hheld
      exact .inr (.inr (finish_late hfailure (hstore₂ ▸ hheld₂) h hfailed))
    | some x =>
      obtain ⟨gs, hlength, hstopped⟩ := evolveFor_error hheld hfailure
      have hindex : (course plan req deadline { s₀ with store }).population.generation = gs.length :=
        hstopped.generation.trans (by rw [hgeneration, Nat.zero_add])
      rw [finish_failed plan req hfailure] at h
      cases h
      cases hfailed
      refine .inr (.inl ⟨plan, gs, x, congrArg (SessionError.generation · x) hindex, ?_⟩)
      exact
        { prepared := ⟨s₀, hprepare⟩
          completed := hstopped.completed
          length := hlength
          indices := by rw [hstopped.indices, hgeneration, List.range_eq_range']
          summary := congrArg (RunSummary.mk plan.record.id · 0 [] "")
            (hstopped.told.generations.trans (List.nil_append _))
          reported := hstopped.told.reported.trans (List.nil_append _)
          store := ⟨store, hsave, hstore₂ ▸ hstopped.told.store⟩
          disk := (congrArg Environment.disk henv).trans hsame.disk
          artifactsDir := hdir.trans hsame.artifactsDir }

section

variable {req : RunRequest} {s s' : Session} {ev : Evolution} {plan : Plan} {gs : List Generation}

theorem Abandoned.keeps (h : Abandoned req s ev s' plan gs) {id : String} (hne : id ≠ plan.record.id) :
    Store.Keeps id s.store s'.store := by
  obtain ⟨store, hsave, hgenerations⟩ := h.store
  refine ((Store.saveRun_ok hsave).2.2 id hne).trans (Store.saveGenerations_keeps hgenerations fun g hg => ?_)
  obtain ⟨g, -, rfl⟩ := List.mem_map.mp hg
  exact hne

/-- The run is found as it was planned, with the generations that were completed. -/
theorem Abandoned.found (h : Abandoned req s ev s' plan gs) (hnew : s.store.Lacks plan.record.id) :
    s'.store.getRun plan.record.id = .ok (some plan.record) ∧ s'.store.getGenerations plan.record.id =
      .ok (if gs.length = 0 then none else some (gs.map fun g => (generationRecord plan.record.id g).kept)) := by
  obtain ⟨store, hsave, hgenerations⟩ := h.store
  obtain ⟨hrun, hbefore, -⟩ := Store.saveRun_ok hsave
  have hbound := req.generations.toInt_lt
  have hlength := h.length
  obtain ⟨hsame, hfound⟩ := getGenerations_saved (by omega) h.indices (hbefore.trans hnew.2) hgenerations
  exact ⟨hsame.trans hrun, hfound⟩

theorem Abandoned.artifactHistory (h : Abandoned req s ev s' plan gs) (id : String) :
    s'.artifactHistory id = s.artifactHistory id := by
  unfold Session.artifactHistory
  rw [h.disk, h.artifactsDir]

theorem Abandoned.history (h : Abandoned req s ev s' plan gs) (hid : plan.record.id ≠ "")
    (hnew : s.store.Lacks plan.record.id) : s'.history plan.record.id =
      if gs.length = 0 then s.artifactHistory plan.record.id else .ok (gs.map .ofGeneration) := by
  unfold Session.history
  rw [if_neg hid, (h.found hnew).2]
  split
  · exact h.artifactHistory _
  · change Except.ok _ = _
    rw [List.map_map]
    rfl

end

theorem artifactHistory_none {s : Session} {id : String}
    (h : s.artifactsDir = "" ∨ Archive.readHistory s.env.disk s.artifactsDir id = .ok none) :
    s.artifactHistory id = .error (.noHistory id) := by
  unfold artifactHistory
  by_cases hdir : s.artifactsDir = ""
  · rw [if_pos hdir]
    rfl
  · rw [if_neg hdir, h.resolve_left hdir]
    rfl

/-- **A run that fails leaves what it completed.** A run fails early, in one of its generations, or late. It fails
early exactly if it was not saved yet, and then neither store nor files have changed. If it fails after `j`
generations, these are the generations of the summary and of the report, and the store has their records and no
others. The run is found there, not completed and without best programs. Its history is found there too; without any
generations, it is looked up in the artifacts. Neither files nor what the store knows of other runs have changed. -/
theorem failed_run_prefix {req : RunRequest} {deadline : Deadline} {s s' : Session} {ev : Evolution} {e : SessionError}
    (h : (evolve req deadline).run s = (ev, s')) (hfailed : ev.failure = some e) :
    (e.isEarly = true ∨ (∃ j x, e = .generation j x) ∨ e.isLate = true) ∧
    (e.isEarly = true ↔ ∃ t, (ready req).run s = (.error e, t)) ∧
    (e.isEarly = true → ev = { failure := some e } ∧ s'.store = s.store ∧ s'.env.disk = s.env.disk) ∧
    ∀ j x id, e = .generation j x → id = s.env.ids s.env.taken → id ≠ "" → s.store.Lacks id →
      ∃ plan t gs q, (prepare req).run s = (.ok plan, t) ∧ Completed plan.population gs q ∧
        gs.map (·.index) = List.range j ∧
        ev.summary = { runId := id, generations := gs.map .ofGeneration } ∧ ev.reported = ev.summary.generations ∧
        s'.store.getRun id = .ok (some plan.record) ∧ plan.record.completed = false ∧ plan.record.bestPrograms = [] ∧
        s'.store.getGenerations id =
          .ok (if j = 0 then none else some (gs.map fun g => (generationRecord id g).kept)) ∧
        s'.history id = (if j = 0 then s.artifactHistory id else .ok ev.summary.generations) ∧
        (j = 0 → s.artifactsDir = "" ∨ Archive.readHistory s.env.disk s.artifactsDir id = .ok none →
          s'.history id = .error (.noHistory id)) ∧
        (∀ other, other ≠ id → Store.Keeps other s.store s'.store) ∧
        s'.env.disk = s.env.disk ∧ s'.artifactsDir = s.artifactsDir := by
  have hready : (∃ t, (ready req).run s = (.error e, t)) → e.isEarly = true := fun ⟨_, ht⟩ => (ready_error ht).1
  rcases evolve_failed h hfailed with ⟨hunsaved, hev, hsame⟩ | ⟨plan, gs, x, rfl, habandoned⟩ | hlate
  · have hearly := hready hunsaved
    refine ⟨.inl hearly, ⟨fun _ => hunsaved, hready⟩, fun _ => ⟨hev, hsame.store, hsame.disk⟩, ?_⟩
    rintro j x id rfl
    cases hearly
  · refine ⟨.inr (.inl ⟨_, x, rfl⟩), ⟨fun hearly => (by cases hearly), hready⟩, fun hearly => (by cases hearly), ?_⟩
    rintro j y id ⟨⟩ rfl hid hnew
    obtain ⟨t, hprepare⟩ := habandoned.prepared
    obtain ⟨-, hplan, ⟨hcompleted, hprograms⟩, -⟩ := prepare_ok hprepare
    obtain ⟨q, hq⟩ := habandoned.completed
    rw [← hplan] at hid hnew ⊢
    obtain ⟨hrun, hgenerations⟩ := habandoned.found hnew
    have hsummary := congrArg RunSummary.generations habandoned.summary
    have hhistory := habandoned.history hid hnew
    refine ⟨plan, t, gs, q, hprepare, hq, habandoned.indices, habandoned.summary, ?_, hrun, hcompleted, hprograms,
      hgenerations, ?_, fun hzero hnone => ?_, fun other hne => habandoned.keeps hne, habandoned.disk,
      habandoned.artifactsDir⟩
    · rw [hsummary]
      exact habandoned.reported
    · rw [hsummary]
      exact hhistory
    · rw [hhistory, if_pos hzero]
      exact artifactHistory_none hnone
  · have hnot := SessionError.not_isEarly hlate
    refine ⟨.inr (.inr hlate), ⟨fun hearly => ?_, hready⟩, fun hearly => ?_, ?_⟩
    · cases hnot.symm.trans hearly
    · cases hnot.symm.trans hearly
    · rintro j x id rfl
      cases hlate

theorem failed_run_prefix_calledOff : ∃ ev s' x,
    (evolve (idleRequest 2) (some 4)).run idleSession = (ev, s') ∧
      ev.failure = some (.generation 1 x) ∧ ev.summary.generations = [stillProgress 0] ∧
      s'.history "first" = .ok [stillProgress 0] ∧ s'.env.disk = idleSession.env.disk := by
  obtain ⟨p, s₀, hprepare, hstill⟩ := prepare_idle (s := idleSession) (n := 2) (by decide +kernel) (by decide)
  obtain ⟨-, -, -, hgeneration, -, -, -, hsame⟩ := prepare_ok hprepare
  obtain ⟨held, hsave⟩ := saveRun_run (idleSession.idleRecord 2) hsame.store
  have hready : (ready (idleRequest 2)).run idleSession =
      (.ok ⟨idleSession.idleRecord 2, p⟩, { s₀ with store := ⟨some held⟩ }) := by
    unfold ready
    rw [run_bind_of_ok hprepare, run_bind_of_ok hsave]
    rfl
  obtain ⟨s₂, hrun, -⟩ := evolve_of_ready (some 4) hready
  obtain ⟨x, hfailure, hgenerations, hindex⟩ := evolveFor_calledOff hstill (idleSession.idleRecord 2).id
    (w := ⟨⟨some held⟩, s₀.metrics, [], []⟩) rfl hsame.metrics []
  have hcourse : course ⟨idleSession.idleRecord 2, p⟩ (idleRequest 2) (some 4) { s₀ with store := ⟨some held⟩ } =
      evolveFor (idleSession.idleRecord 2).id 2 (some 4) p ⟨⟨some held⟩, s₀.metrics, [], []⟩ [] := rfl
  rw [hcourse, finish_failed _ _ hfailure] at hrun
  have hzero : p.generation = 0 := hgeneration
  rw [hindex, hgenerations, hzero] at hrun
  obtain ⟨-, -, -, hprefix⟩ := failed_run_prefix hrun rfl
  obtain ⟨-, -, gs, -, -, -, -, hsummary, -, -, -, -, -, hhistory, -, -, hdisk, -⟩ :=
    hprefix _ x "first" rfl rfl (by decide)
    (Store.init_lacks {} _)
  exact ⟨_, s₂, x, hrun, rfl, rfl, hhistory, hdisk⟩

end Session

end Forager
