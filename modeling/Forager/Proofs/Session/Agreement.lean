import Forager.Proofs.Archive.Store
import Forager.Proofs.Breeding.Strategies
import Forager.Proofs.Session.Idle
import Forager.Session.Lookup

/-!
# Two views of a run

A run is found in the store of the session that made it, and in the files it left.

* `Foreign base id` : the places of all files that a run with this id writes;
* `Evolved.frame`, `Evolved.keeps` : it changes no other file, and nothing that the store knows of other runs;
* `Evolved.found` : how the store finds the run; `Evolved.archived` : its files read back;
* `Step id p q` : one of two sessions that share their files completes a run with another id;
* `Views a run records s t` : the first session finds the run in its store, the second in the files; `Views.step`;
* `views_agree` : both find the same.
-/

namespace Forager

set_option autoImplicit false

open Archive (Store Artifacts Archived runFiles runPlace runFile indexPlace)
open Breeding (Generation Individual)
open Disk (Place Extends Touches IsPlain)

/-! ## Files -/

/-- The place of a program file, in whatever directory. -/
def IsProgramPlace (r : Place) : Prop := ∃ (p : Place) (n : Nat), r = p.child s!"{n}.sexp"

theorem programName_ne {f : String} (hf : f ∈ runFiles) (n : Nat) : f ≠ s!"{n}.sexp" := by
  have hlast : ∀ f ∈ runFiles, f.toList.getLast? ≠ some 'p' := by decide
  rintro rfl
  exact hlast _ hf (Breeding.programName_last n)

theorem touches_programs (best : Individual) {dir : String} (hdir : dir ≠ "") :
    Touches IsProgramPlace (best.write dir) := by
  refine (Breeding.touches_write best hdir).mono ?_
  rintro r ⟨name, hname, rfl⟩
  obtain ⟨n, -, rfl⟩ := Breeding.mem_slotNames.mp hname
  exact ⟨Place.ofPath dir, n, rfl⟩

/-- The places of the files that a run with this id writes. -/
def Foreign (base id : String) (r : Place) : Prop := Archive.Among base id runFiles r ∨ IsProgramPlace r

theorem not_foreign {base id other f : String} (hbase : base ≠ "") (hid : IsPlain id) (hother : IsPlain other)
    (hne : id ≠ other) (hf : f ∈ runFiles) : ¬Foreign base other (Place.ofPath (runFile base id f)) := by
  rintro (hamong | ⟨p, n, heq⟩)
  · exact Archive.not_among_other hbase hid hother hne hf hamong
  · rw [Archive.ofPath_runFile base hid.1 (Archive.runFiles_plain f hf)] at heq
    exact programName_ne hf n (Place.child_inj.mp heq).2

/-! ## One run -/

theorem ofNat_sorted {n : Nat} (h : n ≤ 2 ^ 63) : ((List.range n).map Int64.ofNat).Pairwise (· < ·) := by
  refine List.pairwise_map.mpr (List.pairwise_lt_range.imp_of_mem fun {a b} ha hb hlt => ?_)
  rw [List.mem_range] at ha hb
  rw [Int64.lt_iff_toInt_lt, Int64.toInt_ofNat_of_lt (by omega), Int64.toInt_ofNat_of_lt (by omega)]
  omega

/-- The generations of a new run are found in order, once they were saved one after another. -/
theorem getGenerations_saved {store store' : Store} {id : String} {gs : List Generation} {n : Nat} (hn : n ≤ 2 ^ 63)
    (hindices : gs.map (·.index) = List.range n) (hnew : store.getGenerations id = .ok none)
    (h : (gs.map (generationRecord id)).foldlM Store.saveGeneration store = .ok store') :
    store'.getRun id = store.getRun id ∧ store'.getGenerations id =
      .ok (if n = 0 then none else some (gs.map fun g => (generationRecord id g).kept)) := by
  have hempty : store.records id = [] := Store.records_eq_nil hnew
  have hsorted : ((gs.map (generationRecord id)).map (·.index)).Pairwise (· < ·) := by
    have hrecords : (gs.map (generationRecord id)).map (·.index) = (List.range n).map .ofNat := by
      rw [← hindices, List.map_map, List.map_map]
      rfl
    rw [hrecords]
    exact ofNat_sorted hn
  have hids : ∀ g ∈ gs.map (generationRecord id), g.runId = id := by simp [generationRecord]
  obtain ⟨hrecords, hrun⟩ := Store.saveGenerations_records h hids (by rwa [hempty, List.nil_append])
  rw [hempty, List.nil_append, List.map_map] at hrecords
  have hlength := congrArg List.length hindices
  rw [List.length_map, List.length_range] at hlength
  refine ⟨hrun, ?_⟩
  split
  · rename_i hzero
    obtain rfl : gs = [] := List.length_eq_zero_iff.mp (hlength.trans hzero)
    cases h
    exact hnew
  · rename_i hpositive
    have hne : store'.records id ≠ [] := by
      rw [hrecords, ne_eq, List.map_eq_nil_iff]
      rintro rfl
      exact hpositive hlength.symm
    have hfound := Store.getGenerations_of_sorted hne (by
      rw [List.map_map] at hsorted
      rw [hrecords, List.map_map]
      exact hsorted)
    rwa [hrecords] at hfound

namespace Session

section

variable {req : RunRequest} {s s' : Session} {ev : Evolution} {run : Archive.Run} {gs : List Generation}

theorem Evolved.frame (h : Evolved req s ev s' run gs) :
    Extends (Foreign s.artifactsDir run.id) s.env.disk s'.env.disk := by
  obtain ⟨best, disk, now, hout, hwrote⟩ := h.disk
  have hprograms : Extends (Foreign s.artifactsDir run.id) s.env.disk disk := by
    rcases hout with rfl | ⟨hne, hrun⟩
    · exact .refl _ _
    · exact ((touches_programs best hne).run hrun).mono fun _ => .inr
  have hothers := hwrote.others
  rw [Archive.Artifacts.config_dated] at hothers
  exact hprograms.trans (hothers.mono fun _ => .inl)

theorem Evolved.keeps (h : Evolved req s ev s' run gs) {id : String} (hne : id ≠ run.id) :
    Store.Keeps id s.store s'.store := by
  obtain ⟨store₁, store₂, hfirst, hgenerations, hlast⟩ := h.store
  refine ((Store.saveRun_ok hfirst).2.2 id hne).trans (.trans (Store.saveGenerations_keeps hgenerations ?_) ?_)
  · intro g hg
    obtain ⟨g, -, rfl⟩ := List.mem_map.mp hg
    exact hne
  · exact (Store.saveRun_ok hlast).2.2 id hne

theorem Evolved.archived (h : Evolved req s ev s' run gs) :
    Archived s'.env.disk s.artifactsDir (runArtifacts run req ev.summary) := by
  obtain ⟨_, _, _, -, hwrote⟩ := h.disk
  exact Archive.archived_dated.mp hwrote.archived

/-- A new run is found completed, with its generations in order. -/
theorem Evolved.found (h : Evolved req s ev s' run gs) (hnew : s.store.Lacks run.id) :
    s'.store.getRun run.id = .ok (some (ev.summary.complete run)) ∧
      s'.store.getGenerations run.id = .ok (some (gs.map fun g => (generationRecord run.id g).kept)) := by
  obtain ⟨store₁, store₂, hfirst, hgenerations, hlast⟩ := h.store
  obtain ⟨-, hbefore, -⟩ := Store.saveRun_ok hfirst
  obtain ⟨hrun, hafter, -⟩ := Store.saveRun_ok hlast
  have hpositive : 0 < req.generations.toInt := Int64.lt_iff_toInt_lt.mp h.positive
  have hbound := req.generations.toInt_lt
  obtain ⟨-, hfound⟩ := getGenerations_saved (by omega) h.indices (hbefore.trans hnew.2) hgenerations
  rw [if_neg (by omega)] at hfound
  exact ⟨hrun, hafter.trans hfound⟩

end

/-! ## Two sessions -/

def onDisk (s : Session) (disk : Disk) : Session := { s with env := { s.env with disk } }

/-- The session completes a run. Its id is a plain name, and not `id`. -/
def CompletesOther (id : String) (s s' : Session) : Prop :=
  IsPlain (s.env.ids s.env.taken) ∧ s.env.ids s.env.taken ≠ id ∧
    ∃ req deadline ev, (evolve req deadline).run s = (ev, s') ∧ ev.failure = none

/-- One of two sessions that share their files completes another run. -/
inductive Step (id : String) : Session × Session → Session × Session → Prop where
  | first {s s' t : Session} (h : CompletesOther id s s') : Step id (s, t) (s', t.onDisk s'.env.disk)
  | second {s t t' : Session} (h : CompletesOther id t t') : Step id (s, t) (s.onDisk t'.env.disk, t')

theorem CompletesOther.effect {id : String} {s s' : Session} (h : CompletesOther id s s') (hdir : s.artifactsDir ≠ "")
    (hid : IsPlain id) : Store.Keeps id s.store s'.store ∧ s'.artifactsDir = s.artifactsDir ∧
      ∃ F, Extends F s.env.disk s'.env.disk ∧
        ∀ f ∈ runFiles, ¬F (Place.ofPath (runFile s.artifactsDir id f)) := by
  obtain ⟨hplain, hne, req, deadline, ev, hrun, hok⟩ := h
  obtain ⟨run, gs, hevolved⟩ := evolve_evolved hdir hrun hok
  rw [← hevolved.id] at hplain hne
  exact ⟨hevolved.keeps hne.symm, hevolved.artifactsDir, _, hevolved.frame, fun f hf =>
    not_foreign hdir hid hplain hne.symm hf⟩

/-- The first session finds the run in its store, and the second, whose store lacks it, in the files. -/
structure Views (a : Artifacts) (run : Archive.Run) (records : List Archive.GenerationRecord)
    (s t : Session) : Prop where
  id : IsPlain a.config.runId
  run : s.store.getRun a.config.runId = .ok (some run)
  generations : s.store.getGenerations a.config.runId = .ok (some records)
  lacks : t.store.Lacks a.config.runId
  disk : t.env.disk = s.env.disk
  archived : Archived t.env.disk t.artifactsDir a
  first_dir : s.artifactsDir ≠ ""
  second_dir : t.artifactsDir ≠ ""
  files : ∀ f, runFile t.artifactsDir a.config.runId f = runFile s.artifactsDir a.config.runId f

namespace Views

variable {a : Artifacts} {run : Archive.Run} {records : List Archive.GenerationRecord} {s s' t t' : Session}

theorem step (h : Views a run records s t) (hstep : Step a.config.runId (s, t) (s', t')) :
    Views a run records s' t' := by
  cases hstep with
  | first hother =>
    obtain ⟨hkeeps, hdir, F, hextends, hF⟩ := hother.effect h.first_dir h.id
    rw [← h.disk] at hextends
    have harchived := h.archived.extends hextends fun f hf => h.files f ▸ hF f hf
    exact { h with
      run := hkeeps.1.trans h.run
      generations := hkeeps.2.trans h.generations
      disk := rfl
      archived := harchived
      first_dir := hdir ▸ h.first_dir
      files := hdir ▸ h.files }
  | second hother =>
    obtain ⟨hkeeps, hdir, F, hextends, hF⟩ := hother.effect h.second_dir h.id
    exact { h with
      lacks := hkeeps.lacks h.lacks
      disk := rfl
      archived := hdir ▸ h.archived.extends hextends hF
      second_dir := hdir ▸ h.second_dir
      files := hdir ▸ h.files }

theorem steps (h : Views a run records s t) {p : Session × Session}
    (hsteps : Relation.ReflTransGen (Step a.config.runId) (s, t) p) : Views a run records p.1 p.2 := by
  induction hsteps with
  | refl => exact h
  | tail _ hstep ih => exact ih.step hstep

theorem first_history (h : Views a run records s t) : s.history a.config.runId = .ok (records.map .ofRecord) := by
  unfold Session.history
  rw [if_neg h.id.1, h.generations]
  rfl

theorem second_history (h : Views a run records s t) : t.history a.config.runId = .ok (a.history.map .ofLine) := by
  unfold Session.history
  rw [if_neg h.id.1, h.lacks.2]
  change t.artifactHistory _ = _
  unfold Session.artifactHistory
  rw [if_neg h.second_dir, h.archived.history]
  rfl

theorem first_run (h : Views a run records s t) :
    s.run a.config.runId = .ok ⟨.ofRun run, run.bestPrograms⟩ := by
  unfold Session.run
  rw [if_neg h.id.1, h.run]
  rfl

theorem second_run (h : Views a run records s t) : t.run a.config.runId = .ok
    { item :=
        { runId := a.config.runId
          simulator := a.config.simulator
          population := a.config.population
          generations := a.config.generations
          seed := a.config.seed
          completed := true
          bestFitness := a.finalBestFitness }
      bestPrograms := a.bestPrograms } := by
  unfold Session.run
  rw [if_neg h.id.1, h.lacks.1]
  change t.artifactRun _ = _
  unfold Session.artifactRun
  rw [if_neg h.second_dir, h.archived.config, h.archived.history, h.archived.programs]
  rfl

end Views

/-- **Store and files agree.** A successful run of a session with an artifacts directory has as many generations as were
wanted, numbered from 0 on, and reports all of them. The session finds them in its store. Another session over the same
artifacts directory, whose store lacks the run, finds them in the files, except for the number of matches, and finds the
same run, except for the time. It stays so as long as the two sessions complete runs with other ids. -/
theorem views_agree {req : RunRequest} {deadline : Deadline} {s s' : Session} {ev : Evolution}
    (hdir : s.artifactsDir ≠ "") (hid : IsPlain (s.env.ids s.env.taken))
    (hnew : s.store.Lacks (s.env.ids s.env.taken)) (h : (evolve req deadline).run s = (ev, s'))
    (hok : ev.failure = none) :
    ev.summary.runId = s.env.ids s.env.taken ∧
    ev.summary.generations.map (·.index) = (List.range req.generations.toInt.toNat).map .ofNat ∧
    ev.reported = ev.summary.generations ∧
    ∀ t : Session, t.env.disk = s'.env.disk → t.artifactsDir ≠ "" →
      Place.ofPath t.artifactsDir = Place.ofPath s.artifactsDir → t.store.Lacks ev.summary.runId →
      ∀ u v : Session, Relation.ReflTransGen (Step ev.summary.runId) (s', t) (u, v) →
        u.history ev.summary.runId = .ok ev.summary.generations ∧
        v.history ev.summary.runId = .ok (ev.summary.generations.map fun p => { p with evaluations := 0 }) ∧
        ∃ run : RunDetail, u.run ev.summary.runId = .ok run ∧
          v.run ev.summary.runId = .ok { run with item := { run.item with createdAt := .zero } } ∧
          run.item.completed = true ∧ run.item.bestFitness = ev.summary.bestFitness ∧
          run.bestPrograms = ev.summary.bestPrograms := by
  obtain ⟨run, gs, hevolved⟩ := evolve_evolved hdir h hok
  obtain ⟨hrunId, hgenerations⟩ := hevolved.summary
  rw [← hevolved.id] at hid hnew ⊢
  refine ⟨hrunId, ?_, hevolved.reported.trans hgenerations.symm, fun t hdisk htdir hplace hlacks u v hsteps => ?_⟩
  · rw [hgenerations, ← hevolved.indices, List.map_map, List.map_map]
    rfl
  · rw [hrunId] at hlacks hsteps ⊢
    obtain ⟨hrun, hrecords⟩ := hevolved.found hnew
    have hfiles : ∀ f, runFile t.artifactsDir run.id f = runFile s.artifactsDir run.id f := by
      intro f
      unfold runFile
      rw [Disk.join_congr htdir hdir hid.1 hplace]
    have hstart : Views (runArtifacts run req ev.summary) (ev.summary.complete run)
        (gs.map fun g => (generationRecord run.id g).kept) s' t :=
      { id := hid
        run := hrun
        generations := hrecords
        lacks := hlacks
        disk := hdisk
        archived := hdisk ▸ hevolved.archived.congr hfiles
        first_dir := hevolved.artifactsDir ▸ hdir
        second_dir := htdir
        files := hevolved.artifactsDir ▸ hfiles }
    have hviews := hstart.steps hsteps
    refine ⟨hviews.first_history.trans ?_, hviews.second_history.trans ?_, _, hviews.first_run, hviews.second_run,
      rfl, rfl, rfl⟩
    · rw [hgenerations, List.map_map]
      rfl
    · unfold runArtifacts
      rw [List.map_map]
      rfl

def idleSession : Session where
  env :=
    { disk := ⟨[(Place.ofPath "idle.sexp", .file "(step)".toUTF8)]⟩
      clock := fun _ => ⟨⟨2026, 3, 1⟩, 12, 0, 5, 0, 0⟩
      ids := fun n => if n = 0 then "first" else "third" }
  store := Store.init {}
  artifactsDir := "a"

/-- Another session over the same directory, which knows none of its runs. -/
def otherSession (disk : Disk) : Session where
  env := { disk, clock := idleSession.env.clock, ids := fun _ => "second" }
  store := Store.init {}
  artifactsDir := "a"

theorem quiet_idleSession : idleSession.Quiet :=
  ⟨by decide +kernel, ⟨_, rfl⟩, rfl, [], (Archive.vacant_of_entries (by decide +kernel) (by decide +kernel)).kept⟩

theorem Quiet.onDisk {s t : Session} (hs : s.Quiet) (ht : t.Quiet) (hdir : t.artifactsDir = s.artifactsDir) :
    (s.onDisk t.env.disk).Quiet :=
  ⟨ht.load, hs.store, hs.metrics, by
    obtain ⟨runs, hkept⟩ := ht.kept
    exact ⟨runs, hdir ▸ hkept⟩⟩

/-- Two sessions go on with runs of their own; both still find the first run. -/
theorem views_agree_idle : ∃ ev s' u v, (evolve (idleRequest 2) .never).run idleSession = (ev, s') ∧
    ev.failure = none ∧ Relation.ReflTransGen (Step "first") (s', otherSession s'.env.disk) (u, v) ∧
    (u.env.taken = 2 ∧ v.env.taken = 1) ∧
    u.history "first" = .ok [stillProgress 0, stillProgress 1] ∧
    v.history "first" = .ok [{ stillProgress 0 with evaluations := 0 }, { stillProgress 1 with evaluations := 0 }] := by
  obtain ⟨ev, s', hrun, hok, hgenerations, hquiet, hdir, hids, htaken⟩ :=
    quiet_idleSession.evolve (n := 2) (by decide) (by decide)
  have hother : (otherSession s'.env.disk).Quiet :=
    Quiet.onDisk (s := otherSession s'.env.disk) ⟨hquiet.load, ⟨_, rfl⟩, rfl, hdir ▸ hquiet.kept⟩ hquiet hdir
  have hid₂ : Archive.IsRunId "second" ∧ IsPlain "second" ∧ "second" ≠ "first" := by decide
  obtain ⟨ev₂, v, hsecond, hok₂, -, hquiet₂, hdir₂, -, htaken₂⟩ := hother.evolve (n := 1) (by decide) hid₂.1
  have hid₃ : (s'.onDisk v.env.disk).env.ids (s'.onDisk v.env.disk).env.taken = "third" := by
    change s'.env.ids s'.env.taken = _
    rw [hids, htaken]
    rfl
  obtain ⟨ev₃, u, hthird, hok₃, -, -, -, -, htaken₃⟩ := (hquiet.onDisk hquiet₂ (hdir₂.trans hdir.symm)).evolve (n := 3)
    (by decide) (by rw [hid₃]; decide)
  have hsteps : Relation.ReflTransGen (Step "first") (s', otherSession s'.env.disk) (u, v.onDisk u.env.disk) := by
    refine .tail (.tail .refl (.second ⟨hid₂.2.1, hid₂.2.2, _, _, ev₂, hsecond, hok₂⟩)) (.first ?_)
    exact ⟨by rw [hid₃]; decide, by rw [hid₃]; decide, _, _, ev₃, hthird, hok₃⟩
  obtain ⟨hid, -, -, hviews⟩ := views_agree (by decide) (by decide) (Store.init_lacks {} _) hrun hok
  have hfirst : ev.summary.runId = "first" := hid
  rw [hfirst, hgenerations] at hviews
  have hbase : "a" ≠ "" := by decide
  obtain ⟨hhistory, hhistory', -⟩ := hviews (otherSession s'.env.disk) rfl hbase rfl (Store.init_lacks {} _) _ _ hsteps
  exact ⟨ev, s', u, v.onDisk u.env.disk, hrun, hok, hsteps, ⟨htaken₃.trans (congrArg (· + 1) htaken), htaken₂⟩,
    hhistory, hhistory'⟩

end Session

end Forager
