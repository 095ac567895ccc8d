import Forager.Proofs.Archive.Room

/-!
# Attempts to write a run

* `Artifacts.isWritable` : all numbers of a run are finite; `isWritable_of_recordRun` : no other run is written;
* `Tidy d base` : runs can be written into the artifacts directory; `Tidy.grows` : it stays so;
* `recordRun_noConfig`, `recordRun_noHistory`, `recordRun_whole` : what becomes of a write, by the first number that
  is not finite;
* `Attempt base a d d'` : what every attempt does; `recordRun_run` : every write into a tidy directory is one.
-/

namespace Forager.Archive

set_option autoImplicit false

open Disk (Place Extends Grows Accessible IsPlain)
open Number (isFinite)

/-! ## What cannot be written -/

/-- Whether all numbers of a line are finite. -/
def HistoryLine.isWritable (line : HistoryLine) : Bool := isFinite line.mean && isFinite line.max && isFinite line.min

/-- Whether all numbers of a run are finite. -/
def Artifacts.isWritable (a : Artifacts) : Bool :=
  isFinite a.config.mutationRate && a.history.all HistoryLine.isWritable && isFinite a.finalBestFitness

@[simp] theorem Artifacts.isWritable_dated (a : Artifacts) (now : Timestamp) :
    (a.dated now).isWritable = a.isWritable := by
  simp [isWritable]

theorem mapM_eq_none {α β : Type} {write : α → Option β} {xs : List α} :
    xs.mapM write = none ↔ ∃ x ∈ xs, write x = none := by
  induction xs with
  | nil => simp
  | cons x xs ih =>
    simp only [List.mapM_cons, List.mem_cons, exists_eq_or_imp, ← ih]
    cases write x <;> cases xs.mapM write <;> simp

theorem RunConfig.json?_eq_none {c : RunConfig} : c.json? = none ↔ isFinite c.mutationRate = false := by
  rw [← ofFloat?_eq_none]
  unfold RunConfig.json?
  cases Json.ofFloat? c.mutationRate <;> simp

theorem HistoryLine.json?_eq_none {line : HistoryLine} : line.json? = none ↔ line.isWritable = false := by
  simp only [HistoryLine.isWritable, Bool.and_eq_false_iff, ← ofFloat?_eq_none]
  unfold HistoryLine.json?
  cases Json.ofFloat? line.mean <;> cases Json.ofFloat? line.max <;> cases Json.ofFloat? line.min <;> simp

theorem IndexEntry.json?_eq_none {e : IndexEntry} : e.json? = none ↔ isFinite e.finalBestFitness = false := by
  rw [← ofFloat?_eq_none]
  unfold IndexEntry.json?
  cases Json.ofFloat? e.finalBestFitness <;> simp

theorem FitnessHistory.json?_eq_none {lines : List HistoryLine} {best : Float} :
    FitnessHistory.json? ⟨some lines, best⟩ = none ↔
      lines.all HistoryLine.isWritable = false ∨ isFinite best = false := by
  have hlines : lines.all HistoryLine.isWritable = false ↔ lines.mapM HistoryLine.json? = none := by
    rw [mapM_eq_none]
    simp [HistoryLine.json?_eq_none]
  rw [← ofFloat?_eq_none, hlines]
  unfold FitnessHistory.json?
  dsimp only
  cases lines.mapM HistoryLine.json? <;> cases Json.ofFloat? best <;> simp

theorem indexJson?_ne_none {index : List IndexEntry} (h : ∀ e ∈ index, isFinite e.finalBestFitness = true) :
    indexJson? index ≠ none := by
  rw [indexJson?, ne_eq, Option.map_eq_none_iff, mapM_eq_none]
  rintro ⟨e, he, hnone⟩
  rw [IndexEntry.json?_eq_none, h e he] at hnone
  cases hnone

/-- A run that cannot be written is given up at its configuration or at its history. -/
theorem Artifacts.isWritable_iff {a : Artifacts} : a.isWritable = true ↔
    isFinite a.config.mutationRate = true ∧ FitnessHistory.json? ⟨some a.history, a.finalBestFitness⟩ ≠ none := by
  rw [ne_eq, FitnessHistory.json?_eq_none, Artifacts.isWritable]
  simp only [Bool.and_eq_true, not_or, Bool.not_eq_false, and_assoc]

theorem writeValue_ne_none {path : String} {write : Option Json} {d d' : Disk}
    (h : (writeValue path write).run d = (.ok (), d')) : write ≠ none := by
  rintro rfl
  cases h

/-- Nothing else is written as a whole. -/
theorem isWritable_of_recordRun {base path : String} {a : Artifacts} {d d' : Disk}
    (h : (recordRun base a).run d = (.ok path, d')) : a.isWritable = true := by
  unfold recordRun at h
  dsimp only at h
  split at h
  · cases h
  obtain ⟨_, d₁, -, h⟩ := run_bind_ok h
  obtain ⟨_, d₂, hconfig, h⟩ := run_bind_ok h
  obtain ⟨_, d₃, hhistory, -⟩ := run_bind_ok h
  have hrate : isFinite a.config.mutationRate = true := by
    rw [← Bool.not_eq_false, ← RunConfig.json?_eq_none]
    exact writeValue_ne_none hconfig
  exact Artifacts.isWritable_iff.mpr ⟨hrate, writeValue_ne_none hhistory⟩

/-! ## Writing into a tidy directory -/

/-- A name that a run may have: a plain one that is not the name of the index. -/
def IsRunId (id : String) : Prop := IsPlain id ∧ id ≠ indexFile

instance (id : String) : Decidable (IsRunId id) := inferInstanceAs (Decidable (_ ∧ _))

/-- The artifacts directory is there or is made by its first run, and there is room for all runs and the index. -/
structure Tidy (d : Disk) (base : String) : Prop where
  here : d.find base = .ok .directory ∨ Disk.clean base = base
  room : ∀ id, IsRunId id → Room d (runPlace base id)
  index : d.at? (indexPlace base) ≠ some .directory

section

variable {d d' : Disk} {base : String}

theorem base_ne_empty (h : d.find base = .ok .directory ∨ Disk.clean base = base) : base ≠ "" := by
  rintro rfl
  rcases h with hfind | hclean
  · cases hfind
  · exact absurd hclean (by decide)

theorem Tidy.base_ne (h : Tidy d base) : base ≠ "" := base_ne_empty h.here

/-- The index is not on the way to a run. -/
theorem indexPlace_not_above {id : String} (hbase : base ≠ "") (hid : IsRunId id) :
    ¬(indexPlace base).Above (runPlace base id) := by
  rw [indexPlace_eq hbase, runPlace_eq base hid.1, Place.above_child]
  rintro (habove | heq)
  · exact not_above_child _ _ habove
  · exact hid.2 (Place.child_inj.mp heq).2.symm

/-- A file of one run is deeper than the directory of any. -/
theorem child_not_above {id other : String} (hid : IsPlain id) (hother : IsPlain other) (f : String) :
    ¬((runPlace base id).child f).Above (runPlace base other) := by
  intro habove
  have hlength := habove.length_le
  rw [runPlace_eq base hid, runPlace_eq base hother] at hlength
  simp [Place.child] at hlength

/-- The directory stays tidy when the files of a run are written. -/
theorem Tidy.grows (h : Tidy d base) {id : String} (hid : IsRunId id)
    (hgrows : Grows (Place.Above · (runPlace base id)) (Among base id runFiles) d d') : Tidy d' base := by
  have hextends := hgrows.toExtends
  refine ⟨h.here.imp_left fun hfind => ?_,
    fun other hother => ⟨fun r hr bytes hat => ?_, fun f hf hat => ?_⟩, fun hat => ?_⟩
  · obtain ⟨hlocate, hat⟩ := Disk.find_eq_ok.mp hfind
    exact Disk.find_eq_ok.mpr ⟨hextends.locate hlocate, hextends.directory _ hat⟩
  · rcases hgrows.file hat with hbefore | rfl | ⟨f, -, rfl⟩
    · exact (h.room other hother).clear r hr bytes hbefore
    · exact indexPlace_not_above h.base_ne hother hr
    · exact child_not_above hid.1 hother.1 f hr
  · rcases hgrows.directory hat with hbefore | habove
    · exact (h.room other hother).files f hf hbefore
    · exact child_not_above hother.1 hid.1 f habove
  · exact (hgrows.directory hat).elim h.index (indexPlace_not_above h.base_ne hid)

/-- An entry with a finite number can be added to an index of such entries. -/
theorem appendIndex_run {index : List IndexEntry} (entry : IndexEntry) (hid : entry.runId ≠ "")
    (hfind : d.find base = .ok .directory) (hfile : d.at? (indexPlace base) ≠ some .directory)
    (hindex : Indexed d base index)
    (hfinite : ∀ e ∈ replaceEntry entry index, isFinite e.finalBestFitness = true) :
    ∃ d', (appendIndex base entry).run d = (.ok (), d') ∧ Grows (fun _ => False) (· = indexPlace base) d d' := by
  have hbase := base_ne_empty (.inl hfind)
  have hlocate := (Disk.locate_join_iff hbase (by decide : IsPlain indexFile)).mpr (Disk.accessible_of_find hfind)
  obtain ⟨j, hj⟩ := Option.ne_none_iff_exists'.mp (indexJson?_ne_none hfinite)
  obtain ⟨d', hrun, hgrows⟩ := Disk.writeFile_grows hlocate hfile j.pretty.toUTF8
  refine ⟨d', ?_, hgrows⟩
  rw [appendIndex, if_neg hid]
  rw [run_bind_of_ok (perform_ok (Disk.mkdirAll_there hfind)), run_get_bind, hindex.readIndex_eq hlocate hfile]
  dsimp only
  rw [hj]
  exact perform_ok hrun

theorem Tidy.find (h : Tidy d base) (hhere : Accessible d (Place.ofPath base)) : d.find base = .ok .directory := by
  rcases h.here with hfind | hclean
  · exact hfind
  · have hfind := hhere.find_path (Place.normal_ofPath base)
    change d.find (Disk.clean base) = _ at hfind
    rwa [hclean] at hfind

/-- The place of a file in the directory of a run. -/
def OfRun (q r : Place) : Prop := ∃ f ∈ runFiles, r = q.child f

theorem grows_ofRun {q : Place} {f : String} (hf : f ∈ runFiles)
    (h : Grows (fun _ => False) (· = q.child f) d d') : Grows (Place.Above · q) (OfRun q) d d' :=
  h.mono (fun _ => False.elim) fun _ hr => ⟨f, hf, hr⟩

theorem accessible_base {id : String} (hid : IsPlain id) (h : Accessible d (runPlace base id)) :
    Accessible d (Place.ofPath base) := by
  rw [runPlace_eq base hid] at h
  exact fun r hr => h r (Place.above_child.mpr (.inl hr))

section

variable {a : Artifacts} (h : Tidy d base) (hid : IsRunId a.config.runId)

include h hid

/-- A run whose configuration cannot be written leaves a directory at most. -/
theorem recordRun_noConfig (hconfig : a.config.json? = none) :
    ∃ d', (recordRun base a).run d = (.error .encoding, d') ∧ Accessible d' (runPlace base a.config.runId) ∧
      Grows (Place.Above · (runPlace base a.config.runId)) (fun _ => False) d d' := by
  obtain ⟨d₁, hmkdir, hready₁, hgrows₁⟩ := (h.room _ hid).mkdirAll hid.1
  refine ⟨d₁, ?_, hready₁.here, hgrows₁⟩
  rw [recordRun]
  dsimp only
  rw [if_neg hid.1.1, run_bind_of_ok (perform_ok hmkdir), hconfig]
  rfl

/-- A run whose history cannot be written leaves its configuration. -/
theorem recordRun_noHistory {j : Json} (hconfig : a.config.json? = some j)
    (hhistory : FitnessHistory.json? ⟨some a.history, a.finalBestFitness⟩ = none) :
    ∃ d', (recordRun base a).run d = (.error .encoding, d') ∧ Accessible d' (runPlace base a.config.runId) ∧
      Grows (Place.Above · (runPlace base a.config.runId)) (· = (runPlace base a.config.runId).child configFile) d d' ∧
      readConfig d' base a.config.runId = .ok (some a.config) := by
  have hdir := Disk.join_ne_empty base hid.1.1
  obtain ⟨d₁, hmkdir, hready₁, hgrows₁⟩ := (h.room _ hid).mkdirAll hid.1
  obtain ⟨d₂, hwrite, hgrows₂, hready₂⟩ := hready₁.writeValue hdir (f := configFile) (by decide) hconfig
  refine ⟨d₂, ?_, hready₂.here, (hgrows₁.mono (fun _ => id) fun _ => False.elim).trans
    (hgrows₂.mono (fun _ => False.elim) fun _ => id), ?_⟩
  · rw [recordRun]
    dsimp only
    rw [if_neg hid.1.1, run_bind_of_ok (perform_ok hmkdir), run_bind_of_ok hwrite, hhistory]
    rfl
  · exact (writeValue_ok hwrite (fun j hj => RunConfig.readsBack hj) (by decide)).2.2

/-- Any other run is written. -/
theorem recordRun_whole {j k : Json} (hconfig : a.config.json? = some j)
    (hhistory : FitnessHistory.json? ⟨some a.history, a.finalBestFitness⟩ = some k) {index : List IndexEntry}
    (hindex : Indexed d base index) (hfinite : ∀ e ∈ replaceEntry a.entry index, isFinite e.finalBestFitness = true) :
    ∃ d', (recordRun base a).run d = (.ok (Disk.join base a.config.runId), d') ∧
      Grows (Place.Above · (runPlace base a.config.runId)) (Among base a.config.runId runFiles) d d' := by
  have hdir := Disk.join_ne_empty base hid.1.1
  obtain ⟨d₁, hmkdir, hready₁, hgrows₁⟩ := (h.room _ hid).mkdirAll hid.1
  obtain ⟨d₂, hwrite₂, hgrows₂, hready₂⟩ := hready₁.writeValue hdir (f := configFile) (by decide) hconfig
  obtain ⟨d₃, hwrite₃, hgrows₃, hready₃⟩ := hready₂.writeValue hdir (f := historyFile) (by decide) hhistory
  obtain ⟨d₄, hwrite₄, hgrows₄, hready₄⟩ := hready₃.writeFile hdir (f := seriesFile) (by decide)
    (seriesText a.history).toUTF8
  obtain ⟨d₅, hwrite₅, hgrows₅, hready₅⟩ := hready₄.writeValue hdir (f := programsFile) (by decide)
    (j := Json.ofTexts a.bestPrograms) rfl
  have hfiles : Grows (Place.Above · (runPlace base a.config.runId)) (OfRun (runPlace base a.config.runId)) d d₅ :=
    ((((hgrows₁.mono (fun _ => id) fun _ => False.elim).trans (grows_ofRun (by decide) hgrows₂)).trans
      (grows_ofRun (by decide) hgrows₃)).trans (grows_ofRun (by decide) hgrows₄)).trans
      (grows_ofRun (by decide) hgrows₅)
  have hgrows : Grows (Place.Above · (runPlace base a.config.runId)) (Among base a.config.runId runFiles) d d₅ :=
    hfiles.mono (fun _ => id) fun _ => .inr
  -- The directory is still tidy, and its index is as it was.
  have htidy := h.grows hid hgrows
  have hindex₅ := hindex.extends hfiles.toExtends fun ⟨f, hf, heq⟩ => indexPlace_ne h.base_ne _ hf heq
  obtain ⟨d₆, hwrite₆, hgrows₆⟩ := appendIndex_run a.entry hid.1.1
    (htidy.find (accessible_base hid.1 hready₅.here)) htidy.index hindex₅ hfinite
  refine ⟨d₆, ?_, hgrows.trans (hgrows₆.mono (fun _ => False.elim) fun _ => .inl)⟩
  rw [recordRun]
  dsimp only
  rw [if_neg hid.1.1, run_bind_of_ok (perform_ok hmkdir), run_bind_of_ok hwrite₂, run_bind_of_ok hwrite₃,
    run_bind_of_ok (perform_ok hwrite₄), run_bind_of_ok hwrite₅, run_bind_of_ok hwrite₆]
  rfl

end

/-- A run was written, or it was given up: then no file has changed but its configuration, if that could be written. -/
structure Attempt (base : String) (a : Artifacts) (d d' : Disk) : Prop where
  grows : Grows (Place.Above · (runPlace base a.config.runId)) (Among base a.config.runId runFiles) d d'
  here : Accessible d' (runPlace base a.config.runId)
  config : isFinite a.config.mutationRate = true → readConfig d' base a.config.runId = .ok (some a.config)
  written : a.isWritable = true → Wrote base a d d'
  others : a.isWritable = false →
    Extends (fun r => isFinite a.config.mutationRate = true ∧ r = (runPlace base a.config.runId).child configFile) d d'

theorem accessible_of_readFile {id f : String} (hid : IsPlain id) (hf : f ∈ runFiles) {bytes : ByteArray}
    (h : d.readFile (runFile base id f) = .ok bytes) : Accessible d (runPlace base id) :=
  (Disk.locate_join_iff (Disk.join_ne_empty base hid.1) (runFiles_plain f hf)).mp (Disk.readFile_ok.mp h).1

/-- **Writing a run** into a tidy directory fails only if one of its numbers is not finite. -/
theorem recordRun_run {a : Artifacts} {index : List IndexEntry} (h : Tidy d base) (hid : IsRunId a.config.runId)
    (hindex : Indexed d base index)
    (hfinite : a.isWritable = true → ∀ e ∈ replaceEntry a.entry index, isFinite e.finalBestFitness = true) :
    ∃ d', (recordRun base a).run d =
        (if a.isWritable then .ok (Disk.join base a.config.runId) else .error .encoding, d') ∧
      Attempt base a d d' := by
  cases hconfig : a.config.json? with
  | none =>
    have hrate := RunConfig.json?_eq_none.mp hconfig
    have hnot : a.isWritable = false := by simp [Artifacts.isWritable, hrate]
    obtain ⟨d', hrun, hhere, hgrows⟩ := recordRun_noConfig h hid hconfig
    exact ⟨d', by rw [hrun, hnot]; rfl,
      { grows := hgrows.mono (fun _ => id) fun _ => False.elim
        here := hhere
        config := by simp [hrate]
        written := by simp [hnot]
        others := fun _ => hgrows.toExtends.mono fun _ => False.elim }⟩
  | some j =>
    have hrate : isFinite a.config.mutationRate = true := by
      rw [← Bool.not_eq_false, ← RunConfig.json?_eq_none, hconfig]
      simp
    cases hhistory : FitnessHistory.json? ⟨some a.history, a.finalBestFitness⟩ with
    | none =>
      have hnot : a.isWritable = false := by
        rw [← Bool.not_eq_true, Artifacts.isWritable_iff]
        exact fun hwritable => hwritable.2 hhistory
      obtain ⟨d', hrun, hhere, hgrows, hread⟩ := recordRun_noHistory h hid hconfig hhistory
      exact ⟨d', by rw [hrun, hnot]; rfl,
        { grows := hgrows.mono (fun _ => id) fun _ hr => .inr ⟨configFile, by decide, hr⟩
          here := hhere
          config := fun _ => hread
          written := by simp [hnot]
          others := fun _ => hgrows.toExtends.mono fun _ hr => ⟨hrate, hr⟩ }⟩
    | some k =>
      have hyes : a.isWritable = true := Artifacts.isWritable_iff.mpr ⟨hrate, by rw [hhistory]; simp⟩
      obtain ⟨d', hrun, hgrows⟩ := recordRun_whole h hid hconfig hhistory hindex (hfinite hyes)
      have hwrote := (recordRun_ok hrun).2
      obtain ⟨bytes, hread, -⟩ := readValue_ok.mp hwrote.archived.config
      exact ⟨d', by rw [hrun, hyes]; rfl,
        { grows := hgrows
          here := accessible_of_readFile hid.1 (by decide) hread
          config := fun _ => hwrote.archived.config
          written := fun _ => hwrote
          others := by simp [hyes] }⟩

end

end Forager.Archive
