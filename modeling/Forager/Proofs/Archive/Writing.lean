import Forager.Proofs.Archive.Encoding
import Forager.Proofs.Disk.Frame

/-!
# Writing a run

* `Indexed d base index` : what the index of an artifacts directory holds, whether the directory is there yet or not;
* `Archived d base a` : the files of a run read back;
* `touches_recordRun` : a run that is written touches its own files and the index, whether it succeeds or not;
* `Wrote base a d d'` : the files of the run read back, the run is in the index, and no other file has changed;
* `recordRun_ok` : so it is after a run was written.
-/

namespace Forager.Archive

set_option autoImplicit false

open Disk (Place Extends Touches IsPlain)

def runFiles : List String := [configFile, historyFile, programsFile, seriesFile]

theorem runFiles_plain : ∀ f ∈ runFiles, IsPlain f := by decide

def runPlace (base runId : String) : Place := Place.ofPath (Disk.join base runId)

def indexPlace (base : String) : Place := Place.ofPath (Disk.join base indexFile)

theorem ofPath_runFile {runId f : String} (base : String) (hid : runId ≠ "") (hf : IsPlain f) :
    Place.ofPath (runFile base runId f) = (runPlace base runId).child f :=
  Disk.ofPath_join_plain (Disk.join_ne_empty base hid) hf

theorem indexPlace_eq {base : String} (hbase : base ≠ "") : indexPlace base = (Place.ofPath base).child indexFile :=
  Disk.ofPath_join_plain hbase (by decide)

/-- No file of a run is the index. -/
theorem indexPlace_ne {base f : String} (hbase : base ≠ "") (p : Place) (hf : f ∈ runFiles) :
    indexPlace base ≠ p.child f := by
  rw [indexPlace_eq hbase]
  intro heq
  rw [← (Place.child_inj.mp heq).2] at hf
  exact absurd hf (by decide)

/-! ## Values in files -/

section

variable {α : Type} {fill : Json.Fill α} {blank x : α} {d d' : Disk} {path : String}

theorem readValue_ok : readValue fill blank d path = .ok (some x) ↔
    ∃ bytes, d.readFile path = .ok bytes ∧ fill.read? blank (Text.decode bytes) = some x := by
  unfold readValue Disk.readFile?
  cases hread : d.readFile path with
  | error e =>
    dsimp only
    by_cases hmissing : e.reason = .missing
    · simp [hmissing]
    · simp [hmissing]
  | ok bytes =>
    dsimp only
    cases hfill : fill.read? blank (Text.decode bytes) with
    | none => simp [hfill]
    | some y => simp [hfill]

/-- A value can be read as long as its file is left alone. -/
theorem readValue_extends {F : Place → Prop} (hextends : Extends F d d') (hF : ¬F (Place.ofPath path))
    (h : readValue fill blank d path = .ok (some x)) : readValue fill blank d' path = .ok (some x) := by
  obtain ⟨bytes, hread, hfill⟩ := readValue_ok.mp h
  exact readValue_ok.mpr ⟨bytes, hextends.readFile hF hread, hfill⟩

/-- A value that was written is read. -/
theorem writeValue_ok {write : Option Json} {n : Nat} (h : (writeValue path write).run d = (.ok (), d'))
    (hreads : ∀ j, write = some j → ReadsBack fill blank n x j) (hn : n ≤ Json.nestingLimit) :
    d.locate path = .ok (Place.ofPath path) ∧ Extends (· = Place.ofPath path) d d' ∧
      readValue fill blank d' path = .ok (some x) := by
  cases write with
  | none => cases h
  | some j =>
    have hrun := Disk.adapt_ok h
    obtain ⟨hlocate, hat⟩ := Disk.writeFile_ok hrun
    have hextends := (Disk.touches_writeFile path _).run hrun
    refine ⟨hlocate, hextends, readValue_ok.mpr ⟨_, Disk.readFile_ok.mpr ⟨hextends.locate hlocate, hat⟩, ?_⟩⟩
    rw [Text.decode_toUTF8]
    exact (hreads j rfl).read? hn

end

/-! ## The index -/

/-- What the index holds. Without a file it is empty. -/
inductive Indexed (d : Disk) (base : String) : List IndexEntry → Prop where
  | absent (h : ∀ bytes, d.at? (indexPlace base) ≠ some (.file bytes)) : Indexed d base []
  | present {bytes : ByteArray} {index : List IndexEntry} (hat : d.at? (indexPlace base) = some (.file bytes))
      (hread : Json.Fill.read? (.listOrEmpty {} (.record IndexEntry.fields)) [] (Text.decode bytes) = some index) :
      Indexed d base index

theorem Indexed.extends {F : Place → Prop} {d d' : Disk} {base : String} {index : List IndexEntry}
    (h : Indexed d base index) (hextends : Extends F d d') (hF : ¬F (indexPlace base)) : Indexed d' base index := by
  cases h with
  | absent hnone => exact .absent fun bytes hat => hnone bytes ((hextends.file _ hF bytes).mp hat)
  | present hat hread => exact .present ((hextends.file _ hF _).mpr hat) hread

/-- The index is read where it can be reached, unless a directory is in its place. -/
theorem Indexed.readIndex_eq {d : Disk} {base : String} {index : List IndexEntry} (h : Indexed d base index)
    (hlocate : d.locate (Disk.join base indexFile) = .ok (indexPlace base))
    (hfile : d.at? (indexPlace base) ≠ some .directory) : readIndex d base = .ok index := by
  cases h with
  | present hat hread =>
    rw [readIndex, readValue_ok.mpr ⟨_, Disk.readFile_ok.mpr ⟨hlocate, hat⟩, hread⟩]
    rfl
  | absent hnone =>
    unfold readIndex readValue Disk.readFile? Disk.readFile Disk.find
    rw [hlocate]
    cases hat : d.at? (indexPlace base) with
    | none =>
      simp only [Bind.bind, Except.bind, hat]
      rfl
    | some e =>
      cases e with
      | file bytes => exact absurd hat (hnone bytes)
      | directory => exact absurd hat hfile

/-- If the index can be read where it would be, then it holds what it should. -/
theorem Indexed.eq_of_readIndex {d : Disk} {base : String} {index read : List IndexEntry} (h : Indexed d base index)
    (hlocate : d.locate (Disk.join base indexFile) = .ok (indexPlace base)) (hread : readIndex d base = .ok read) :
    read = index := by
  have hfile : d.at? (indexPlace base) ≠ some .directory := by
    intro hat
    unfold readIndex readValue Disk.readFile? Disk.readFile Disk.find at hread
    simp only [hlocate, hat, Bind.bind, Except.bind] at hread
    cases hread
  exact Except.ok.inj (hread.symm.trans (h.readIndex_eq hlocate hfile))

theorem appendIndex_ok {base : String} {entry : IndexEntry} {d d' : Disk}
    (h : (appendIndex base entry).run d = (.ok (), d')) :
    base ≠ "" ∧ Extends (· = indexPlace base) d d' ∧ ∀ {index}, Indexed d base index →
      Indexed d' base (replaceEntry entry index) ∧ readIndex d' base = .ok (replaceEntry entry index) := by
  unfold appendIndex at h
  split at h
  · cases h
  obtain ⟨_, d₁, hmkdir, hrest⟩ := run_bind_ok h
  have hmkdir := Disk.adapt_ok hmkdir
  have hbase : base ≠ "" := by
    rintro rfl
    cases hmkdir
  have hsame := (Disk.touches_mkdirAll base).run hmkdir
  rw [run_get_bind] at hrest
  cases hread : readIndex d₁ base with
  | error e =>
    rw [hread] at hrest
    cases hrest
  | ok read =>
    rw [hread] at hrest
    obtain ⟨hlocate, hextends, hvalue⟩ := writeValue_ok hrest (fun j hj => readsBack_index hj) (by decide)
    refine ⟨hbase, (hsame.mono fun _ => False.elim).trans hextends, fun {index} hindex => ?_⟩
    obtain rfl := (hindex.extends hsame id).eq_of_readIndex hlocate hread
    obtain ⟨bytes, hfile, hfill⟩ := readValue_ok.mp hvalue
    refine ⟨.present (Disk.readFile_ok.mp hfile).2 hfill, ?_⟩
    rw [readIndex, hvalue]
    rfl

/-! ## Runs -/

/-- The place of the index, and those of some files of a run. -/
def Among (base runId : String) (files : List String) (r : Place) : Prop :=
  r = indexPlace base ∨ ∃ f ∈ files, r = (runPlace base runId).child f

theorem not_among {base runId f : String} {files : List String} (hbase : base ≠ "") (hid : runId ≠ "")
    (hf : f ∈ runFiles) (hnew : f ∉ files) : ¬Among base runId files (Place.ofPath (runFile base runId f)) := by
  rw [ofPath_runFile base hid (runFiles_plain f hf)]
  rintro (heq | ⟨g, hg, heq⟩)
  · exact indexPlace_ne hbase _ hf heq.symm
  · exact hnew ((Place.child_inj.mp heq).2 ▸ hg)

/-- The files of one run are not among those of another. -/
theorem not_among_other {base runId other f : String} {files : List String} (hbase : base ≠ "") (hid : IsPlain runId)
    (hother : IsPlain other) (hne : runId ≠ other) (hf : f ∈ runFiles) :
    ¬Among base other files (Place.ofPath (runFile base runId f)) := by
  rw [ofPath_runFile base hid.1 (runFiles_plain f hf)]
  rintro (heq | ⟨g, -, heq⟩)
  · exact indexPlace_ne hbase _ hf heq.symm
  · have hplace := (Place.child_inj.mp heq).1
    rw [runPlace, runPlace, Disk.ofPath_join_plain hbase hid, Disk.ofPath_join_plain hbase hother] at hplace
    exact hne (Place.child_inj.mp hplace).2

theorem extends_among_cons {base runId f : String} {files : List String} {d d₁ d' : Disk} (hid : runId ≠ "")
    (hf : f ∈ runFiles) (hfile : Extends (· = Place.ofPath (runFile base runId f)) d d₁)
    (hrest : Extends (Among base runId files) d₁ d') : Extends (Among base runId (f :: files)) d d' := by
  refine (hfile.mono ?_).trans (hrest.mono ?_)
  · rintro r rfl
    exact .inr ⟨f, List.mem_cons_self, ofPath_runFile base hid (runFiles_plain f hf)⟩
  · rintro r (hr | ⟨g, hg, hr⟩)
    · exact .inl hr
    · exact .inr ⟨g, List.mem_cons_of_mem f hg, hr⟩

theorem touches_writeValue (path : String) (write : Option Json) :
    Touches (· = Place.ofPath path) (writeValue path write) := by
  cases write with
  | none => exact .throw _
  | some j => exact (Disk.touches_writeFile path _).adapt _

theorem touches_appendIndex (base : String) (entry : IndexEntry) :
    Touches (· = indexPlace base) (appendIndex base entry) := by
  unfold appendIndex
  split
  · exact .throw _
  · refine .bind (((Disk.touches_mkdirAll base).adapt _).mono fun _ => False.elim) fun _ => .bind .get fun d => ?_
    split
    · exact .throw _
    · exact touches_writeValue _ _

/-- **Writing a run** touches its own files and the index, whether it succeeds or not. -/
theorem touches_recordRun (base : String) (a : Artifacts) :
    Touches (Among base a.config.runId runFiles) (recordRun base a) := by
  unfold recordRun
  dsimp only
  split
  · exact .throw _
  · rename_i hid
    have hfile : ∀ f ∈ runFiles, ∀ r, r = Place.ofPath (runFile base a.config.runId f) →
        Among base a.config.runId runFiles r := by
      rintro f hf r rfl
      exact .inr ⟨f, hf, ofPath_runFile base hid (runFiles_plain f hf)⟩
    refine .bind (((Disk.touches_mkdirAll _).adapt _).mono fun _ => False.elim) fun _ => ?_
    refine .bind ((touches_writeValue _ _).mono (hfile configFile (by decide))) fun _ => ?_
    refine .bind ((touches_writeValue _ _).mono (hfile historyFile (by decide))) fun _ => ?_
    refine .bind (((Disk.touches_writeFile _ _).adapt _).mono (hfile seriesFile (by decide))) fun _ => ?_
    refine .bind ((touches_writeValue _ _).mono (hfile programsFile (by decide))) fun _ => ?_
    exact .bind ((touches_appendIndex base _).mono fun _ => .inl) fun _ => .pure _

/-! ## The creation time -/

section

variable (a : Artifacts) (now : Timestamp)

@[simp] theorem Artifacts.config_dated : (a.dated now).config = a.config := by
  unfold dated
  split <;> rfl

@[simp] theorem Artifacts.history_dated : (a.dated now).history = a.history := by
  unfold dated
  split <;> rfl

@[simp] theorem Artifacts.finalBestFitness_dated : (a.dated now).finalBestFitness = a.finalBestFitness := by
  unfold dated
  split <;> rfl

@[simp] theorem Artifacts.bestPrograms_dated : (a.dated now).bestPrograms = a.bestPrograms := by
  unfold dated
  split <;> rfl

end

/-! ## What was written -/

/-- The files of a run read back. -/
structure Archived (d : Disk) (base : String) (a : Artifacts) : Prop where
  config : readConfig d base a.config.runId = .ok (some a.config)
  history : readHistory d base a.config.runId = .ok (some ⟨some a.history, a.finalBestFitness⟩)
  programs : readPrograms d base a.config.runId = .ok (some (some a.bestPrograms))

theorem archived_dated {d : Disk} {base : String} {a : Artifacts} {now : Timestamp} :
    Archived d base (a.dated now) ↔ Archived d base a := by
  constructor
  · rintro ⟨hconfig, hhistory, hprograms⟩
    exact ⟨by simpa using hconfig, by simpa using hhistory, by simpa using hprograms⟩
  · rintro ⟨hconfig, hhistory, hprograms⟩
    exact ⟨by simpa using hconfig, by simpa using hhistory, by simpa using hprograms⟩

theorem Archived.extends {F : Place → Prop} {d d' : Disk} {base : String} {a : Artifacts} (h : Archived d base a)
    (hextends : Extends F d d') (hF : ∀ f ∈ runFiles, ¬F (Place.ofPath (runFile base a.config.runId f))) :
    Archived d' base a where
  config := readValue_extends hextends (hF _ (by decide)) h.config
  history := readValue_extends hextends (hF _ (by decide)) h.history
  programs := readValue_extends hextends (hF _ (by decide)) h.programs

theorem Archived.congr {d : Disk} {base other : String} {a : Artifacts} (h : Archived d base a)
    (hfiles : ∀ f, runFile other a.config.runId f = runFile base a.config.runId f) : Archived d other a := by
  obtain ⟨hconfig, hhistory, hprograms⟩ := h
  unfold readConfig at hconfig
  unfold readHistory at hhistory
  unfold readPrograms at hprograms
  rw [← hfiles] at hconfig hhistory hprograms
  exact ⟨hconfig, hhistory, hprograms⟩

/-- A run was written: its files read back, it is in the index, and no other file has changed. -/
structure Wrote (base : String) (a : Artifacts) (d d' : Disk) : Prop where
  base_ne : base ≠ ""
  id_ne : a.config.runId ≠ ""
  archived : Archived d' base a
  series : d'.at? ((runPlace base a.config.runId).child seriesFile) = some (.file (seriesText a.history).toUTF8)
  index : ∀ {index}, Indexed d base index →
    Indexed d' base (replaceEntry a.entry index) ∧ readIndex d' base = .ok (replaceEntry a.entry index)
  others : Extends (Among base a.config.runId runFiles) d d'

theorem recordRun_ok {base path : String} {a : Artifacts} {d d' : Disk}
    (h : (recordRun base a).run d = (.ok path, d')) : path = Disk.join base a.config.runId ∧ Wrote base a d d' := by
  have hothers := (touches_recordRun base a).run h
  unfold recordRun at h
  dsimp only at h
  split at h
  · cases h
  rename_i hid
  obtain ⟨_, d₁, hmkdir, h⟩ := run_bind_ok h
  obtain ⟨_, d₂, hconfig, h⟩ := run_bind_ok h
  obtain ⟨_, d₃, hhistory, h⟩ := run_bind_ok h
  obtain ⟨_, d₄, hseries, h⟩ := run_bind_ok h
  obtain ⟨_, d₅, hprograms, h⟩ := run_bind_ok h
  obtain ⟨_, d₆, hindex, h⟩ := run_bind_ok h
  cases h
  have hmkdir := (Disk.touches_mkdirAll _).run (Disk.adapt_ok hmkdir)
  obtain ⟨-, hextends₂, hconfig⟩ := writeValue_ok hconfig (fun j hj => RunConfig.readsBack hj) (by decide)
  obtain ⟨-, hextends₃, hhistory⟩ := writeValue_ok hhistory (fun j hj => FitnessHistory.readsBack hj) (by decide)
  have hextends₄ := (Disk.touches_writeFile _ _).run (Disk.adapt_ok hseries)
  have hseries := (Disk.writeFile_ok (Disk.adapt_ok hseries)).2
  obtain ⟨-, hextends₅, hprograms⟩ := writeValue_ok hprograms
    (fun j hj => Option.some.inj hj ▸ readsBack_texts a.bestPrograms) (by decide)
  obtain ⟨hbase, hextends₆, hindex⟩ := appendIndex_ok hindex
  -- The files are written one after the other, each at a place of its own.
  have hrest₅ : Extends (Among base a.config.runId []) d₅ d' := hextends₆.mono fun r hr => .inl hr
  have hrest₄ := extends_among_cons hid (by decide) hextends₅ hrest₅
  have hrest₃ := extends_among_cons hid (by decide) hextends₄ hrest₄
  have hrest₂ := extends_among_cons hid (by decide) hextends₃ hrest₃
  have hother : ∀ f ∈ runFiles, indexPlace base ≠ Place.ofPath (runFile base a.config.runId f) := fun f hf => by
    rw [ofPath_runFile base hid (runFiles_plain f hf)]
    exact indexPlace_ne hbase _ hf
  refine ⟨rfl, ⟨hbase, hid, ⟨?_, ?_, ?_⟩, ?_, fun {index} hi => hindex ?_, hothers⟩⟩
  · exact readValue_extends hrest₂ (not_among hbase hid (by decide) (by decide)) hconfig
  · exact readValue_extends hrest₃ (not_among hbase hid (by decide) (by decide)) hhistory
  · exact readValue_extends hrest₅ (not_among hbase hid (by decide) (by decide)) hprograms
  · rw [← ofPath_runFile base hid (by decide)]
    exact (hrest₄.file _ (not_among hbase hid (by decide) (by decide)) _).mpr hseries
  · exact ((((hi.extends hmkdir id).extends hextends₂ (hother _ (by decide))).extends hextends₃
      (hother _ (by decide))).extends hextends₄ (hother _ (by decide))).extends hextends₅ (hother _ (by decide))

end Forager.Archive
