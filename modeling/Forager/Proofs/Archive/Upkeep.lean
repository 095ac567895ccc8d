import Forager.Proofs.Archive.Attempts

/-!
# Upkeep of an artifacts directory

* `indexOf runs` : the index of runs that were written one after the other; `mem_indexOf` : the last write wins;
* `Kept base runs d` : what is in the directory after any number of writes; `Kept.write` : one more write keeps it so;
* `writeRuns base d writes` : runs are written, each at its own time; `kept_writeRuns` : this keeps it so;
* `indexed_runs_whole` : each run that was written is in the index once, by its last write, and its files are whole.
-/

namespace Forager.Archive

set_option autoImplicit false

open Disk (Place Extends Grows Clear IsPlain)
open Number (isFinite)

/-! ## The last write wins -/

section

variable {e : IndexEntry} {index : List IndexEntry}

theorem map_runId_replaceEntry : (replaceEntry e index).map (·.runId) =
    if e.runId ∈ index.map (·.runId) then index.map (·.runId) else index.map (·.runId) ++ [e.runId] := by
  induction index with
  | nil => rfl
  | cons first index ih =>
    rw [replaceEntry]
    by_cases heq : first.runId = e.runId
    · simp [heq]
    · rw [if_neg heq, List.map_cons, ih]
      have hmem : e.runId ∈ (first :: index).map (·.runId) ↔ e.runId ∈ index.map (·.runId) := by
        rw [List.map_cons, List.mem_cons, or_iff_right (Ne.symm heq)]
      simp only [hmem]
      split <;> rfl

theorem nodup_replaceEntry (h : (index.map (·.runId)).Nodup) : ((replaceEntry e index).map (·.runId)).Nodup := by
  rw [map_runId_replaceEntry]
  split
  · exact h
  · rename_i hnew
    rw [← List.concat_eq_append]
    exact h.concat hnew

theorem mem_replaceEntry (h : (index.map (·.runId)).Nodup) {x : IndexEntry} :
    x ∈ replaceEntry e index ↔ x = e ∨ x ∈ index ∧ x.runId ≠ e.runId := by
  induction index with
  | nil => simp [replaceEntry]
  | cons first index ih =>
    obtain ⟨hfirst, hrest⟩ := List.nodup_cons.mp h
    rw [replaceEntry]
    split
    · rename_i heq
      have hother : x ∈ index → x.runId ≠ e.runId := fun hx hsame =>
        hfirst (List.mem_map.mpr ⟨x, hx, hsame.trans heq.symm⟩)
      simp only [List.mem_cons]
      constructor
      · rintro (rfl | hx)
        · exact .inl rfl
        · exact .inr ⟨.inr hx, hother hx⟩
      · rintro (rfl | ⟨rfl | hx, hne⟩)
        · exact .inl rfl
        · exact absurd heq hne
        · exact .inr hx
    · rename_i hne
      rw [List.mem_cons, ih hrest, List.mem_cons]
      constructor
      · rintro (rfl | rfl | hx)
        · exact .inr ⟨.inl rfl, hne⟩
        · exact .inl rfl
        · exact .inr ⟨.inr hx.1, hx.2⟩
      · rintro (rfl | ⟨rfl | hx, hother⟩)
        · exact .inr (.inl rfl)
        · exact .inl rfl
        · exact .inr (.inr ⟨hx, hother⟩)

end

/-- Whether this is a run with the id whose numbers can be written. -/
def Artifacts.isWriteOf (id : String) (a : Artifacts) : Bool := a.config.runId = id && a.isWritable

/-- Whether this is a run with the id whose configuration can be written. -/
def Artifacts.isConfigOf (id : String) (a : Artifacts) : Bool := a.config.runId = id && isFinite a.config.mutationRate

section

variable {a : Artifacts} {id : String}

theorem Artifacts.isWriteOf_iff : a.isWriteOf id = true ↔ a.config.runId = id ∧ a.isWritable = true := by
  simp [isWriteOf]

theorem Artifacts.isConfigOf_iff :
    a.isConfigOf id = true ↔ a.config.runId = id ∧ isFinite a.config.mutationRate = true := by
  simp [isConfigOf]

theorem Artifacts.isWriteOf_dated (id : String) (a : Artifacts) (now : Timestamp) :
    (a.dated now).isWriteOf id = a.isWriteOf id := by
  simp [isWriteOf]

theorem Artifacts.isConfigOf_dated (id : String) (a : Artifacts) (now : Timestamp) :
    (a.dated now).isConfigOf id = a.isConfigOf id := by
  simp [isConfigOf]

theorem Artifacts.createdAtUtc_dated (a : Artifacts) (now : Timestamp) :
    (a.dated now).entry.createdAtUtc = (if a.createdAt.isZero then now else a.createdAt).utc.text := by
  unfold dated
  split <;> rfl

end

/-- The last one with a property. -/
def latest {α : Type} (p : α → Bool) (xs : List α) : Option α := xs.reverse.find? p

/-- The index of runs that were written one after the other. -/
def indexOf (runs : List Artifacts) : List IndexEntry :=
  (runs.filter Artifacts.isWritable).foldl (fun index a => replaceEntry a.entry index) []

section

variable {α : Type} {p : α → Bool} {xs : List α} {x : α}

theorem latest_concat (p : α → Bool) (xs : List α) (x : α) :
    latest p (xs ++ [x]) = if p x then some x else latest p xs := by
  rw [latest, List.reverse_append, List.reverse_singleton, List.singleton_append, List.find?_cons]
  cases p x <;> rfl

theorem latest_eq_some (h : latest p xs = some x) : x ∈ xs ∧ p x = true :=
  ⟨List.mem_reverse.mp (List.mem_of_find?_eq_some h), List.find?_some h⟩

theorem exists_latest (hx : x ∈ xs) (hp : p x = true) : ∃ y, latest p xs = some y :=
  Option.isSome_iff_exists.mp (List.find?_isSome.mpr ⟨x, List.mem_reverse.mpr hx, hp⟩)

theorem latest_map {β : Type} (f : β → α) (p : α → Bool) (ys : List β) :
    latest p (ys.map f) = (latest (fun y => p (f y)) ys).map f := by
  rw [latest, ← List.map_reverse, List.find?_map]
  rfl

end

section

variable {runs : List Artifacts} {a : Artifacts}

theorem indexOf_concat (runs : List Artifacts) (a : Artifacts) :
    indexOf (runs ++ [a]) = if a.isWritable then replaceEntry a.entry (indexOf runs) else indexOf runs := by
  unfold indexOf
  rw [List.filter_append, List.foldl_append]
  cases ha : a.isWritable <;> simp [ha]

theorem nodup_indexOf (runs : List Artifacts) : ((indexOf runs).map (·.runId)).Nodup := by
  induction runs using List.reverseRecOn with
  | nil => exact .nil
  | append_singleton runs a ih =>
    rw [indexOf_concat]
    split
    · exact nodup_replaceEntry ih
    · exact ih

/-- The index holds the last write of each run. -/
theorem mem_indexOf {e : IndexEntry} :
    e ∈ indexOf runs ↔ ∃ a, latest (·.isWriteOf e.runId) runs = some a ∧ e = a.entry := by
  induction runs using List.reverseRecOn with
  | nil => simp [indexOf, latest]
  | append_singleton runs a ih =>
    rw [indexOf_concat, latest_concat]
    cases hwritable : a.isWritable with
    | false =>
      have hnot : a.isWriteOf e.runId = false := by simp [Artifacts.isWriteOf, hwritable]
      rw [hnot]
      exact ih
    | true =>
      rw [if_pos rfl, mem_replaceEntry (nodup_indexOf runs)]
      by_cases hsame : a.config.runId = e.runId
      · have hyes : a.isWriteOf e.runId = true := by simp [Artifacts.isWriteOf, hwritable, hsame]
        have hnone : ¬(e ∈ indexOf runs ∧ e.runId ≠ a.entry.runId) := fun h => h.2 hsame.symm
        simp [hyes, hnone]
      · have hnot : a.isWriteOf e.runId = false := by simp [Artifacts.isWriteOf, hsame]
        have hne : e ≠ a.entry := fun heq => hsame (heq ▸ rfl)
        have hid : e.runId ≠ a.entry.runId := Ne.symm hsame
        simp [hnot, hne, hid, ih]

theorem finite_indexOf {e : IndexEntry} (h : e ∈ indexOf runs) : isFinite e.finalBestFitness = true := by
  obtain ⟨a, hlatest, rfl⟩ := mem_indexOf.mp h
  have hwritable := (Artifacts.isWriteOf_iff.mp (latest_eq_some hlatest).2).2
  simp only [Artifacts.isWritable, Bool.and_eq_true] at hwritable
  exact hwritable.2

end

/-! ## All writes -/

/-- The files of a run that are written after its configuration. -/
structure Filed (d : Disk) (base id : String) (a : Artifacts) : Prop where
  history : readHistory d base id = .ok (some ⟨some a.history, a.finalBestFitness⟩)
  programs : readPrograms d base id = .ok (some (some a.bestPrograms))
  series : d.readFile (runFile base id seriesFile) = .ok (seriesText a.history).toUTF8

theorem Filed.extends {F : Place → Prop} {d d' : Disk} {base id : String} {a : Artifacts} (h : Filed d base id a)
    (hextends : Extends F d d') (hF : ∀ f ∈ runFiles, f ≠ configFile → ¬F (Place.ofPath (runFile base id f))) :
    Filed d' base id a where
  history := readValue_extends hextends (hF _ (by decide) (by decide)) h.history
  programs := readValue_extends hextends (hF _ (by decide) (by decide)) h.programs
  series := hextends.readFile (hF _ (by decide) (by decide)) h.series

theorem Wrote.filed {base : String} {a : Artifacts} {d d' : Disk} (h : Wrote base a d d')
    (hid : IsPlain a.config.runId) : Filed d' base a.config.runId a := by
  obtain ⟨bytes, hread, -⟩ := readValue_ok.mp h.archived.config
  refine ⟨h.archived.history, h.archived.programs, Disk.readFile_ok.mpr ⟨?_, ?_⟩⟩
  · exact (Disk.locate_join_iff (Disk.join_ne_empty base hid.1) (by decide)).mpr
      (accessible_of_readFile hid (by decide) hread)
  · rw [ofPath_runFile base hid.1 (by decide)]
    exact h.series

/-- What is in the directory after runs were written, or given up, one after the other. -/
structure Kept (base : String) (runs : List Artifacts) (d : Disk) : Prop where
  tidy : Tidy d base
  indexed : Indexed d base (indexOf runs)
  read : readIndex d base = .ok (indexOf runs)
  config : ∀ {id c}, IsRunId id → latest (·.isConfigOf id) runs = some c → readConfig d base id = .ok (some c.config)
  filed : ∀ {id a}, IsRunId id → latest (·.isWriteOf id) runs = some a → Filed d base id a

section

variable {base : String} {runs : List Artifacts} {a : Artifacts} {d d' : Disk}

theorem finite_replaceEntry (runs : List Artifacts) (hyes : a.isWritable = true) :
    ∀ e ∈ replaceEntry a.entry (indexOf runs), isFinite e.finalBestFitness = true := by
  intro e he
  have hmem : e ∈ indexOf (runs ++ [a]) := by rwa [indexOf_concat, if_pos hyes]
  exact finite_indexOf hmem

/-- The configuration of a run is that of its last attempt that got so far. -/
theorem Attempt.config_concat {id : String} {c : Artifacts} (h : Attempt base a d d') (hbase : base ≠ "")
    (hid : IsRunId a.config.runId) (hother : IsRunId id)
    (hbefore : ∀ {c}, latest (·.isConfigOf id) runs = some c → readConfig d base id = .ok (some c.config))
    (hlatest : latest (·.isConfigOf id) (runs ++ [a]) = some c) : readConfig d' base id = .ok (some c.config) := by
  rw [latest_concat] at hlatest
  split at hlatest
  · rename_i hconfig
    obtain rfl := Option.some.inj hlatest
    obtain ⟨rfl, hrate⟩ := Artifacts.isConfigOf_iff.mp hconfig
    exact h.config hrate
  · rename_i hconfig
    by_cases hsame : a.config.runId = id
    · subst hsame
      have hrate : isFinite a.config.mutationRate = false := by simpa [Artifacts.isConfigOf] using hconfig
      have hnot : a.isWritable = false := by simp [Artifacts.isWritable, hrate]
      exact readValue_extends (h.others hnot) (by simp [hrate]) (hbefore hlatest)
    · exact readValue_extends h.grows.toExtends
        (not_among_other hbase hother.1 hid.1 (Ne.symm hsame) (by decide)) (hbefore hlatest)

/-- The other files of a run are those of its last attempt that succeeded. -/
theorem Attempt.filed_concat {id : String} {b : Artifacts} (h : Attempt base a d d') (hbase : base ≠ "")
    (hid : IsRunId a.config.runId) (hother : IsRunId id)
    (hbefore : ∀ {b}, latest (·.isWriteOf id) runs = some b → Filed d base id b)
    (hlatest : latest (·.isWriteOf id) (runs ++ [a]) = some b) : Filed d' base id b := by
  rw [latest_concat] at hlatest
  split at hlatest
  · rename_i hwrite
    obtain rfl := Option.some.inj hlatest
    obtain ⟨rfl, hyes⟩ := Artifacts.isWriteOf_iff.mp hwrite
    exact (h.written hyes).filed hid.1
  · rename_i hwrite
    by_cases hsame : a.config.runId = id
    · subst hsame
      have hnot : a.isWritable = false := by simpa [Artifacts.isWriteOf] using hwrite
      refine (hbefore hlatest).extends (h.others hnot) fun f hf hne hF => ?_
      rw [ofPath_runFile base hid.1.1 (runFiles_plain f hf)] at hF
      exact hne (Place.child_inj.mp hF.2).2
    · exact (hbefore hlatest).extends h.grows.toExtends fun f hf _ =>
        not_among_other hbase hother.1 hid.1 (Ne.symm hsame) hf

/-- What one more write does. -/
theorem Kept.write (h : Kept base runs d) (hid : IsRunId a.config.runId) :
    ∃ d', (recordRun base a).run d =
        (if a.isWritable then .ok (Disk.join base a.config.runId) else .error .encoding, d') ∧
      Attempt base a d d' ∧ Kept base (runs ++ [a]) d' := by
  have hbase := h.tidy.base_ne
  obtain ⟨d', hrun, hattempt⟩ := recordRun_run h.tidy hid h.indexed (finite_replaceEntry runs)
  have htidy := h.tidy.grows hid hattempt.grows
  have hindexed : Indexed d' base (indexOf (runs ++ [a])) := by
    rw [indexOf_concat]
    cases hwritable : a.isWritable with
    | true => exact ((hattempt.written hwritable).index h.indexed).1
    | false =>
      exact h.indexed.extends (hattempt.others hwritable) fun hF => indexPlace_ne hbase _ (by decide) hF.2
  have hlocate := (Disk.locate_join_iff hbase (by decide : IsPlain indexFile)).mpr (accessible_base hid.1 hattempt.here)
  exact ⟨d', hrun, hattempt,
    { tidy := htidy
      indexed := hindexed
      read := hindexed.readIndex_eq hlocate htidy.index
      config := fun hother hlatest => hattempt.config_concat hbase hid hother (h.config hother) hlatest
      filed := fun hother hlatest => hattempt.filed_concat hbase hid hother (h.filed hother) hlatest }⟩

end

/-- Writes runs one after the other, each at its own time, whatever comes of it. -/
def writeRuns (base : String) (d : Disk) (writes : List (Artifacts × Timestamp)) : Disk :=
  writes.foldl (fun d w => ((writeRun base w.1 w.2).run d).2) d

/-- The runs as they are written. -/
def dated (writes : List (Artifacts × Timestamp)) : List Artifacts := writes.map fun w => w.1.dated w.2

/-- The directory is empty, or it is not there and no file is in its way. -/
structure Vacant (d : Disk) (base : String) : Prop where
  here : d.find base = .ok .directory ∨ Disk.clean base = base ∧ Clear d (Place.ofPath base)
  nothing : ∀ r, (Place.ofPath base).inside r = true → d.at? r = none

section

variable {base : String} {writes : List (Artifacts × Timestamp)} {d : Disk}

theorem Vacant.kept (h : Vacant d base) : Kept base [] d := by
  have hhere := h.here.imp_right (·.1)
  have hbase := base_ne_empty hhere
  have hclear : Clear d (Place.ofPath base) := h.here.elim (fun hfind => (Disk.accessible_of_find hfind).clear) (·.2)
  have hchild : ∀ name, IsPlain name → d.at? ((Place.ofPath base).child name) = none := fun name hname =>
    h.nothing _ ((inside_child hname.2.2.1).mpr (.inl rfl))
  have hindex : d.at? (indexPlace base) = none := by
    rw [indexPlace_eq hbase]
    exact hchild indexFile (by decide)
  refine ⟨⟨hhere, fun id hid => ⟨?_, fun f hf => ?_⟩, by simp [hindex]⟩,
    .absent (by simp [hindex]), ?_, fun _ hlatest => (by cases hlatest), fun _ hlatest => by cases hlatest⟩
  · rw [runPlace_eq base hid.1]
    exact Disk.clear_child.mpr ⟨hclear, by simp [hchild id hid.1]⟩
  · rw [runPlace_eq base hid.1, h.nothing _ ((inside_child (runFiles_plain f hf).2.2.1).mpr
      (.inr ((inside_child hid.1.2.2.1).mpr (.inl rfl))))]
    simp
  · have hfind := Clear.find_path (p := indexPlace base) (Place.normal_ofPath _)
      (by rw [indexPlace_eq hbase]; exact Disk.clear_child.mpr ⟨hclear, by simp [hchild indexFile (by decide)]⟩) hindex
    rw [indexPlace, Disk.path_ofPath_join base (by decide)] at hfind
    rw [readIndex, readValue, Disk.readFile?, Disk.readFile, hfind]
    rfl

theorem writeRuns_concat (base : String) (d : Disk) (writes : List (Artifacts × Timestamp)) (a : Artifacts)
    (now : Timestamp) :
    writeRuns base d (writes ++ [(a, now)]) = ((writeRun base a now).run (writeRuns base d writes)).2 := by
  rw [writeRuns, List.foldl_append]
  rfl

/-- What the dating of runs does not change tells the last of them as before. -/
theorem latest_dated {p : Artifacts → Bool} (hp : ∀ a now, p (a.dated now) = p a) {w : Artifacts × Timestamp}
    (h : latest (fun w => p w.1) writes = some w) : latest p (dated writes) = some (w.1.dated w.2) := by
  rw [dated, latest_map]
  simp only [hp, h, Option.map_some]

theorem mem_indexOf_dated {e : IndexEntry} :
    e ∈ indexOf (dated writes) ↔
      ∃ w, latest (fun w => w.1.isWriteOf e.runId) writes = some w ∧ e = (w.1.dated w.2).entry := by
  rw [mem_indexOf]
  constructor
  · rintro ⟨b, hlatest, rfl⟩
    rw [dated, latest_map] at hlatest
    obtain ⟨w, hw, rfl⟩ := Option.map_eq_some_iff.mp hlatest
    simp only [Artifacts.isWriteOf_dated] at hw
    exact ⟨w, hw, rfl⟩
  · rintro ⟨w, hw, rfl⟩
    exact ⟨_, latest_dated (Artifacts.isWriteOf_dated _) hw, rfl⟩

theorem dated_concat (writes : List (Artifacts × Timestamp)) (a : Artifacts) (now : Timestamp) :
    dated (writes ++ [(a, now)]) = dated writes ++ [a.dated now] := by
  rw [dated, List.map_append]
  rfl

/-- What one more write does, at its time. -/
theorem Kept.writeRun (h : Kept base (dated writes) d) {a : Artifacts} (hid : IsRunId a.config.runId)
    (now : Timestamp) :
    ∃ d', (writeRun base a now).run d =
        (if a.isWritable then .ok (Disk.join base a.config.runId) else .error .encoding, d') ∧
      Attempt base (a.dated now) d d' ∧ Kept base (dated (writes ++ [(a, now)])) d' := by
  obtain ⟨d', hrun, hattempt, hkept⟩ := h.write (a := a.dated now) (by simpa using hid)
  rw [Artifacts.isWritable_dated, Artifacts.config_dated] at hrun
  exact ⟨d', hrun, hattempt, by rwa [dated_concat]⟩

theorem kept_writeRuns (hstart : Vacant d base) (hids : ∀ w ∈ writes, IsRunId w.1.config.runId) :
    Kept base (dated writes) (writeRuns base d writes) := by
  induction writes using List.reverseRecOn with
  | nil => exact hstart.kept
  | append_singleton writes w ih =>
    obtain ⟨a, now⟩ := w
    obtain ⟨hwrites, ha⟩ := List.forall_mem_append.mp hids
    obtain ⟨d', hrun, -, hkept⟩ := (ih hwrites).writeRun (ha (a, now) (by simp)) now
    rw [writeRuns_concat, hrun]
    exact hkept

/-- Files are written below the artifacts directory only, and directories are made there and on the way. -/
theorem grows_writeRuns (hstart : Vacant d base) (hids : ∀ w ∈ writes, IsRunId w.1.config.runId) :
    Grows (fun r => r.Above (Place.ofPath base) ∨ ∃ id, r = (Place.ofPath base).child id)
      (fun r => (Place.ofPath base).Above r) d (writeRuns base d writes) := by
  induction writes using List.reverseRecOn with
  | nil => exact .refl _ _ d
  | append_singleton writes w ih =>
    obtain ⟨a, now⟩ := w
    obtain ⟨hwrites, ha⟩ := List.forall_mem_append.mp hids
    have hid : IsRunId a.config.runId := ha (a, now) (by simp)
    have hkept := kept_writeRuns hstart hwrites
    obtain ⟨d', hrun, hattempt, -⟩ := hkept.writeRun hid now
    rw [writeRuns_concat, hrun]
    have hplace := runPlace_eq base hid.1
    refine (ih hwrites).trans (hattempt.grows.mono (fun r hr => ?_) ?_)
    · rw [Artifacts.config_dated, hplace] at hr
      exact (Place.above_child.mp hr).imp_right fun heq => ⟨_, heq⟩
    · rintro r (rfl | ⟨f, -, rfl⟩)
      · rw [indexPlace_eq hkept.tidy.base_ne]
        exact Place.above_self_child _ _
      · rw [Artifacts.config_dated, hplace]
        exact (Place.above_self_child _ _).trans (Place.above_self_child _ _)

/-- Neither place is on the way to the other. -/
def Apart (p q : Place) : Prop := ¬p.Above q ∧ ¬q.Above p

instance (p q : Place) : Decidable (Apart p q) := inferInstanceAs (Decidable (_ ∧ _))

/-- Where there was room apart from the artifacts directory, there still is. -/
theorem Room.writeRuns {q : Place} (h : Room d q) (hapart : Apart (Place.ofPath base) q) (hstart : Vacant d base)
    (hids : ∀ w ∈ writes, IsRunId w.1.config.runId) : Room (writeRuns base d writes) q := by
  have hgrows := grows_writeRuns hstart hids
  refine ⟨fun r hr bytes hat => ?_, fun f hf hat => ?_⟩
  · rcases hgrows.file hat with hbefore | habove
    · exact h.clear r hr bytes hbefore
    · exact hapart.1 (habove.trans hr)
  · rcases hgrows.directory hat with hbefore | habove | ⟨id, heq⟩
    · exact h.files f hf hbefore
    · exact hapart.2 ((Place.above_self_child q f).trans habove)
    · rw [← (Place.child_inj.mp heq).1] at hapart
      exact hapart.1 (Place.above_self q)

theorem Kept.readFile {runs : List Artifacts} (h : Kept base runs d) {id : String} (hid : IsRunId id) {a c : Artifacts}
    (hc : latest (·.isConfigOf id) runs = some c) (ha : latest (·.isWriteOf id) runs = some a) :
    ∀ f ∈ runFiles, ∃ bytes, d.readFile (runFile base id f) = .ok bytes := by
  obtain ⟨bytes₁, hconfig, -⟩ := readValue_ok.mp (h.config hid hc)
  obtain ⟨hhistory, hprograms, hseries⟩ := h.filed hid ha
  obtain ⟨bytes₂, hhistory, -⟩ := readValue_ok.mp hhistory
  obtain ⟨bytes₃, hprograms, -⟩ := readValue_ok.mp hprograms
  simp only [runFiles, List.forall_mem_cons, List.not_mem_nil, false_imp_iff, implies_true, and_true]
  exact ⟨⟨bytes₁, hconfig⟩, ⟨bytes₂, hhistory⟩, ⟨bytes₃, hprograms⟩, ⟨_, hseries⟩⟩

/-- **Artifacts stay whole.** Runs are written one after the other, each at its own time, into an empty directory. A
write fails only if one of the numbers is not finite. Whatever comes of the writes, the index holds each run at most
once; it holds those of which a write succeeded, by the last of these, with the time of this write if the run has no
creation time. All files of such a run can be read: its configuration is that of the last write that got so far, all
else is of the last that succeeded. And the run can be exported to wherever there is room, as there is in any other
directory where there was room before. -/
theorem indexed_runs_whole (hstart : Vacant d base) (hids : ∀ w ∈ writes, IsRunId w.1.config.runId) :
    (∀ before a now after, writes = before ++ (a, now) :: after →
      ((writeRun base a now).run (writeRuns base d before)).1 =
        if a.isWritable then .ok (Disk.join base a.config.runId) else .error .encoding) ∧
    ∃ index, readIndex (writeRuns base d writes) base = .ok index ∧ (index.map (·.runId)).Nodup ∧
      (∀ id, id ∈ index.map (·.runId) ↔ ∃ w ∈ writes, w.1.config.runId = id ∧ w.1.isWritable = true) ∧
      ∀ e ∈ index, ∃ a now c, latest (·.1.isWriteOf e.runId) writes = some (a, now) ∧ e = (a.dated now).entry ∧
        e.createdAtUtc = (if a.createdAt.isZero then now else a.createdAt).utc.text ∧
        latest (·.1.isConfigOf e.runId) writes = some c ∧
        (∀ f ∈ runFiles, ∃ bytes, (writeRuns base d writes).readFile (runFile base e.runId f) = .ok bytes) ∧
        readConfig (writeRuns base d writes) base e.runId = .ok (some c.1.config) ∧
        readHistory (writeRuns base d writes) base e.runId = .ok (some ⟨some a.history, a.finalBestFitness⟩) ∧
        readPrograms (writeRuns base d writes) base e.runId = .ok (some (some a.bestPrograms)) ∧
        ∀ out, ((∃ d', (exportRun base e.runId out).run (writeRuns base d writes) =
            (.ok (Disk.join out e.runId), d')) ↔ Room (writeRuns base d writes) (runPlace out e.runId)) ∧
          (Apart (Place.ofPath base) (runPlace out e.runId) → Room d (runPlace out e.runId) →
            Room (writeRuns base d writes) (runPlace out e.runId)) := by
  have hkept := kept_writeRuns hstart hids
  refine ⟨fun before a now after heq => ?_, indexOf (dated writes), hkept.read, nodup_indexOf _, fun id => ?_,
    fun e he => ?_⟩
  · subst heq
    obtain ⟨hbefore, ha⟩ := List.forall_mem_append.mp hids
    obtain ⟨d', hrun, -, -⟩ := (kept_writeRuns hstart hbefore).writeRun (ha (a, now) List.mem_cons_self) now
    rw [hrun]
  · rw [List.mem_map]
    constructor
    · rintro ⟨e, he, rfl⟩
      obtain ⟨w, hlatest, -⟩ := mem_indexOf_dated.mp he
      obtain ⟨hw, hwrite⟩ := latest_eq_some hlatest
      exact ⟨w, hw, Artifacts.isWriteOf_iff.mp hwrite⟩
    · rintro ⟨w, hw, rfl, hwritable⟩
      obtain ⟨v, hlatest⟩ := exists_latest (p := (·.1.isWriteOf w.1.config.runId)) hw
        (Artifacts.isWriteOf_iff.mpr ⟨rfl, hwritable⟩)
      have hid : (v.1.dated v.2).entry.runId = w.1.config.runId := by
        rw [Artifacts.entry, Artifacts.config_dated]
        exact (Artifacts.isWriteOf_iff.mp (latest_eq_some hlatest).2).1
      exact ⟨_, mem_indexOf_dated.mpr ⟨v, by rw [hid]; exact hlatest, rfl⟩, hid⟩
  · obtain ⟨⟨a, now⟩, hlatest, heq⟩ := mem_indexOf_dated.mp he
    obtain ⟨ha, hwrite⟩ := latest_eq_some hlatest
    obtain ⟨hsame, hwritable⟩ := Artifacts.isWriteOf_iff.mp hwrite
    obtain ⟨c, hconfig⟩ := exists_latest (p := (·.1.isConfigOf e.runId)) ha
      (Artifacts.isConfigOf_iff.mpr ⟨hsame, (Artifacts.isWritable_iff.mp hwritable).1⟩)
    have hid := hsame ▸ hids (a, now) ha
    have hlatest' := latest_dated (Artifacts.isWriteOf_dated e.runId) hlatest
    have hconfig' := latest_dated (Artifacts.isConfigOf_dated e.runId) hconfig
    have hfiles := hkept.readFile hid hconfig' hlatest'
    have hfiled := hkept.filed hid hlatest'
    exact ⟨a, now, c, hlatest, heq, heq ▸ a.createdAtUtc_dated now, hconfig, hfiles,
      by simpa using hkept.config hid hconfig', by simpa using hfiled.history, by simpa using hfiled.programs,
      fun out => ⟨exportRun_ok_iff hid.1 hfiles, fun hapart hroom => hroom.writeRuns hapart hstart hids⟩⟩

end

theorem clear_empty (p : Place) : Clear .empty p := by
  intro r _ bytes hat
  unfold Disk.at? at hat
  split at hat <;> cases hat

/-- Nothing is found but at the tops and at the places of the entries. -/
theorem mem_of_at? {d : Disk} {r : Place} {e : Disk.Entry} (h : d.at? r = some e) (htop : r.isTop = false) :
    r ∈ d.entries.map (·.1) := by
  rw [Disk.at?, htop] at h
  by_contra hmem
  have hnone : d.entries.lookup r = none := by
    rw [List.lookup_eq_none_iff]
    intro x hx
    have hne : r ≠ x.1 := fun heq => hmem (heq ▸ List.mem_map_of_mem hx)
    simpa using hne
  simp [hnone] at h

/-- A directory is vacant if all entries are elsewhere. -/
theorem vacant_of_entries {d : Disk} {base : String} (hbase : Disk.clean base = base)
    (h : ∀ r ∈ d.entries.map (·.1), ¬r.Above (Place.ofPath base) ∧ (Place.ofPath base).inside r = false) :
    Vacant d base := by
  refine ⟨.inr ⟨hbase, fun r hr bytes hat => ?_⟩, fun r hr => ?_⟩
  · have htop : r.isTop = false := by
      by_contra htop
      rw [Disk.at?, if_pos (by simpa using htop)] at hat
      cases hat
    exact (h r (mem_of_at? hat htop)).1 hr
  · have htop : r.isTop = false := by
      obtain ⟨-, names, hnames, hne, hup⟩ := inside_iff.mp hr
      obtain ⟨name, hname⟩ := List.exists_mem_of_ne_nil names hne
      have hnot : name ≠ ".." := fun heq => hup (heq ▸ hname)
      simp only [Place.isTop, hnames, List.all_append, Bool.and_eq_false_iff]
      exact .inl (List.all_eq_false.mpr ⟨name, hname, by simpa using hnot⟩)
    by_contra hat
    obtain ⟨e, he⟩ := Option.ne_none_iff_exists'.mp hat
    rw [(h r (mem_of_at? he htop)).2] at hr
    cases hr

/-- The tree that holds nothing has no artifacts directory yet. -/
theorem vacant_empty : Vacant .empty "a" := vacant_of_entries (by decide +kernel) (by simp [Disk.empty])

def bareRun (id : String) (nanos : Nat) : Artifacts :=
  { config := { runId := id, simulator := "forage", mutationRate := 0.25 }
    history := []
    finalBestFitness := 1.25
    bestPrograms := ["(step)"]
    createdAt := ⟨⟨2026, 3, 1⟩, 12, 0, 5, nanos, 0⟩ }

/-- The same run before it has a creation time. -/
def undatedRun : Artifacts := { bareRun "x" 0 with createdAt := .zero }

/-- A run with other settings, whose best fitness cannot be written. -/
def boundlessRun : Artifacts :=
  { bareRun "x" 1 with config := { runId := "x", mutationRate := 0.75 }, finalBestFitness := 1 / 0 }

/-- What the clock says when the runs are written. -/
def noon : Timestamp := (bareRun "x" 0).createdAt

/-- A run without a creation time that is written at noon, and again in vain: its entry has the time of the first
write, its history is as it was, but its configuration is not. It can be exported. -/
theorem indexed_runs_whole_boundless :
    ∃ d, d = writeRuns "a" .empty [(undatedRun, noon), (boundlessRun, noon)] ∧
      ((writeRun "a" boundlessRun noon).run (writeRuns "a" .empty [(undatedRun, noon)])).1 = .error .encoding ∧
      readIndex d "a" = .ok [(bareRun "x" 0).entry] ∧ readConfig d "a" "x" = .ok (some boundlessRun.config) ∧
      readHistory d "a" "x" = .ok (some ⟨some [], undatedRun.finalBestFitness⟩) ∧
      ∃ d', (exportRun "a" "x" "b").run d = (.ok (Disk.join "b" "x"), d') := by
  have hfirst : undatedRun.isWritable = true := by decide +kernel
  have hsecond : boundlessRun.isWritable = false := by decide +kernel
  have hdated : undatedRun.dated noon = bareRun "x" 0 := rfl
  have hids : ∀ w ∈ [(undatedRun, noon), (boundlessRun, noon)], IsRunId w.1.config.runId :=
    List.forall_mem_cons.mpr ⟨by decide +kernel, List.forall_mem_singleton.mpr (by decide +kernel)⟩
  obtain ⟨hresults, index, hread, hnodup, hmem, hwhole⟩ := indexed_runs_whole vacant_empty hids
  have hlast : ∀ {id w}, latest (fun w => w.1.isWriteOf id) [(undatedRun, noon), (boundlessRun, noon)] = some w →
      w = (undatedRun, noon) := by
    intro id w hlatest
    obtain ⟨hw, hwrite⟩ := latest_eq_some hlatest
    rcases List.mem_cons.mp hw with rfl | hw
    · rfl
    · rw [List.mem_singleton.mp hw, Artifacts.isWriteOf_iff, hsecond] at hwrite
      exact absurd hwrite.2 (by simp)
  have hindex : index = [(bareRun "x" 0).entry] := by
    have hentries : ∀ e ∈ index, e = (bareRun "x" 0).entry := by
      intro e he
      obtain ⟨a, now, -, hlatest, heq, -⟩ := hwhole e he
      obtain ⟨rfl, rfl⟩ := Prod.mk.inj (hlast hlatest)
      rw [heq, hdated]
    have hx : "x" ∈ index.map (·.runId) := (hmem "x").mpr ⟨(undatedRun, noon), by simp, rfl, hfirst⟩
    rw [List.eq_replicate_of_mem hentries] at hx hnodup ⊢
    have hlength : index.length = 1 := by
      rw [List.map_replicate, List.nodup_replicate] at hnodup
      rw [List.map_replicate, List.mem_replicate] at hx
      omega
    rw [hlength]
    rfl
  obtain ⟨a, now, c, hlatest, -, -, hconfig, -, hreadConfig, hreadHistory, -, hexport⟩ :=
    hwhole (bareRun "x" 0).entry (by rw [hindex]; exact List.mem_singleton_self _)
  have hc : c = (boundlessRun, noon) := by
    have hlater : boundlessRun.isConfigOf "x" = true := by decide +kernel
    have hboundless := latest_concat (fun w => w.1.isConfigOf "x") [(undatedRun, noon)] (boundlessRun, noon)
    rw [if_pos hlater] at hboundless
    exact Option.some.inj (hconfig.symm.trans hboundless)
  rw [hc] at hreadConfig
  obtain ⟨rfl, rfl⟩ := Prod.mk.inj (hlast hlatest)
  have hroom : Room .empty (runPlace "b" "x") := by
    refine ⟨clear_empty _, fun f hf hat => ?_⟩
    have hnone : ∀ f ∈ runFiles, Disk.at? .empty ((runPlace "b" "x").child f) = none := by decide +kernel
    rw [hnone f hf] at hat
    cases hat
  refine ⟨_, rfl, ?_, hindex ▸ hread, hreadConfig, hreadHistory,
    (hexport "b").1.mpr ((hexport "b").2 (by decide +kernel) hroom)⟩
  rw [hresults [(undatedRun, noon)] boundlessRun noon [] rfl, hsecond]
  rfl

end Forager.Archive
