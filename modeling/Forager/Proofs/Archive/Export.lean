import Forager.Proofs.Archive.Writing
import Forager.Proofs.Disk.Directories

/-!
# Exporting a run

* `Copied p q f d d'` : the file `f` of the directory at `p` was copied into the one at `q`;
* `exportRun_ok` : a successful export copies the files of the run and changes no other;
* `Intact p q d d'` : no file at or below `p` changed, and the files at `q` are those at `p`;
* `export_intact_iff` : this holds unless the directory is exported onto itself, or over different files inside itself.
-/

namespace Forager.Archive

set_option autoImplicit false

open Disk (Place Entry Extends Touches IsPlain)

/-- The file is copied from one directory into another. Within one directory, all that is copied is an empty file. -/
structure Copied (p q : Place) (f : String) (d d' : Disk) : Prop where
  there : ∃ bytes, d.at? (p.child f) = some (.file bytes)
  copy : d'.at? (q.child f) = if p = q then some (.file .empty) else d.at? (p.child f)

namespace Copied

variable {p q : Place} {f : String} {d d₁ d' : Disk} {F : Place → Prop}

theorem written (h : Copied p q f d d') : ∃ bytes, d'.at? (q.child f) = some (.file bytes) := by
  obtain ⟨⟨bytes, hthere⟩, hcopy⟩ := h
  split at hcopy
  · exact ⟨_, hcopy⟩
  · exact ⟨bytes, hcopy.trans hthere⟩

/-- What is done to other files later makes no difference. -/
theorem before (h : Copied p q f d d₁) (hextends : Extends F d₁ d') (hF : ¬F (q.child f)) : Copied p q f d d' := by
  obtain ⟨bytes, hbytes⟩ := h.written
  exact ⟨h.there, by rw [(hextends.file _ hF bytes).mpr hbytes, ← hbytes, h.copy]⟩

/-- Nor does what was done to other files earlier. -/
theorem after (hextends : Extends F d d₁) (hF : ¬F (p.child f)) (h : Copied p q f d₁ d') : Copied p q f d d' := by
  obtain ⟨⟨bytes, hthere⟩, hcopy⟩ := h
  have hsame := (hextends.file _ hF bytes).mp hthere
  exact ⟨⟨bytes, hsame⟩, by rw [hcopy, hthere, hsame]⟩

end Copied

section

variable {source destination : String} {d d' : Disk}

theorem copyFile_copied (hsource : source ≠ "") (hdestination : destination ≠ "") {f : String} (hf : IsPlain f)
    (h : (Disk.copyFile (Disk.join source f) (Disk.join destination f)).run d = (.ok (), d')) :
    Extends (· = (Place.ofPath destination).child f) d d' ∧
      Copied (Place.ofPath source) (Place.ofPath destination) f d d' ∧
      d.locate (Disk.join source f) = .ok (Place.ofPath (Disk.join source f)) := by
  rcases Disk.copyFile_run (Disk.join source f) (Disk.join destination f) d with
    ⟨e, d₁, hrun, -⟩ | ⟨bytes, d₁, hrun, hextends, hread, hwritten, hlocate, hthere, hfile⟩
  · rw [hrun] at h
    cases h
  · rw [hrun] at h
    cases h
    rw [Disk.ofPath_join_plain hsource hf, Disk.ofPath_join_plain hdestination hf] at *
    refine ⟨hextends, ?_, hlocate⟩
    by_cases hsame : Place.ofPath source = Place.ofPath destination
    · rw [hsame] at hread hthere ⊢
      rw [Disk.at?_put_self (Disk.isTop_of_at? hfile)] at hread
      refine ⟨?_, ?_⟩
      · match hat : d.at? ((Place.ofPath destination).child f) with
        | none => exact absurd hat hthere
        | some .directory => exact absurd hat hfile
        | some (.file old) => exact ⟨old, rfl⟩
      · rw [if_pos rfl, hwritten, hread]
    · rw [Disk.at?_put_ne fun heq => hsame (Place.child_inj.mp heq).1] at hread
      exact ⟨⟨bytes, hread⟩, by rw [if_neg hsame, hwritten, hread]⟩

theorem copyFiles_copied (hsource : source ≠ "") (hdestination : destination ≠ "") {files : List String}
    (hplain : ∀ f ∈ files, IsPlain f) (hnodup : files.Nodup)
    (h : (copyFiles source destination files).run d = (.ok (), d')) :
    Extends (fun r => ∃ f ∈ files, r = (Place.ofPath destination).child f) d d' ∧
      ∀ f ∈ files, Copied (Place.ofPath source) (Place.ofPath destination) f d d' ∧
        d'.locate (Disk.join source f) = .ok (Place.ofPath (Disk.join source f)) := by
  induction files generalizing d with
  | nil =>
    cases h
    exact ⟨.refl _ _, by simp⟩
  | cons f files ih =>
    obtain ⟨hf, hplain⟩ := List.forall_mem_cons.mp hplain
    obtain ⟨hnew, hnodup⟩ := List.nodup_cons.mp hnodup
    obtain ⟨_, d₁, hfirst, h⟩ := run_bind_ok h
    obtain ⟨hextends, hcopied, hlocate⟩ := copyFile_copied hsource hdestination hf (Disk.adapt_ok hfirst)
    obtain ⟨hrest, hall⟩ := ih hplain hnodup h
    have hlater : ¬∃ g ∈ files, (Place.ofPath destination).child f = (Place.ofPath destination).child g := by
      rintro ⟨g, hg, heq⟩
      exact hnew ((Place.child_inj.mp heq).2 ▸ hg)
    refine ⟨(hextends.mono ?_).trans (hrest.mono ?_), List.forall_mem_cons.mpr ⟨?_, fun g hg => ?_⟩⟩
    · rintro r rfl
      exact ⟨f, List.mem_cons_self, rfl⟩
    · rintro r ⟨g, hg, rfl⟩
      exact ⟨g, List.mem_cons_of_mem f hg, rfl⟩
    · exact ⟨hcopied.before hrest hlater, hrest.locate (hextends.locate hlocate)⟩
    · obtain ⟨hcopy, hthere⟩ := hall g hg
      refine ⟨.after hextends (fun heq => ?_) hcopy, hthere⟩
      exact hnew ((Place.child_inj.mp heq).2 ▸ hg)

end

/-- The steps of a successful export: the table is copied if it is there after the other files were. -/
theorem exportRun_inv {base runId out path : String} {d d' : Disk}
    (h : (exportRun base runId out).run d = (.ok path, d')) :
    runId ≠ "" ∧ path = Disk.join out runId ∧ ∃ d₁ d₂, (Disk.mkdirAll (Disk.join out runId)).run d = (.ok (), d₁) ∧
      (copyFiles (Disk.join base runId) (Disk.join out runId) [configFile, historyFile, programsFile]).run d₁ =
        (.ok (), d₂) ∧
      ((copyFiles (Disk.join base runId) (Disk.join out runId) [seriesFile]).run d₂ = (.ok (), d') ∨
        (d₂.find (Disk.join (Disk.join base runId) seriesFile) = .error .missing ∧ d' = d₂)) := by
  unfold exportRun at h
  split at h
  · cases h
  rename_i hid
  dsimp only at h
  rw [run_get_bind] at h
  obtain ⟨_, d₀, hstat, hrest⟩ := run_bind_ok h
  have hsame : d₀ = d := by
    have hrun := Disk.adapt_ok hstat
    cases hfind : d.stat (Disk.join base runId) with
    | error e =>
      rw [hfind] at hrun
      cases hrun
    | ok e =>
      rw [hfind] at hrun
      cases hrun
      rfl
  rw [hsame] at hrest
  obtain ⟨_, d₁, hmkdir, hrest⟩ := run_bind_ok hrest
  obtain ⟨_, d₂, hcopy, hrest⟩ := run_bind_ok hrest
  rw [run_get_bind] at hrest
  have hend : path = Disk.join out runId ∧
      ((copyFiles (Disk.join base runId) (Disk.join out runId) [seriesFile]).run d₂ = (.ok (), d') ∨
        (d₂.find (Disk.join (Disk.join base runId) seriesFile) = .error .missing ∧ d' = d₂)) := by
    unfold Disk.stat at hrest
    cases hfind : d₂.find (Disk.join (Disk.join base runId) seriesFile) with
    | ok e =>
      rw [hfind] at hrest
      obtain ⟨_, d₃, hseries, hrest⟩ := run_bind_ok hrest
      cases hrest
      exact ⟨rfl, .inl hseries⟩
    | error reason =>
      rw [hfind] at hrest
      by_cases hreason : reason = .missing
      · subst hreason
        cases hrest
        exact ⟨rfl, .inr ⟨rfl, rfl⟩⟩
      · simp only [Except.mapError, ne_eq, hreason, not_false_eq_true, if_true] at hrest
        cases hrest
  exact ⟨hid, hend.1, d₁, d₂, Disk.adapt_ok hmkdir, hcopy, hend.2⟩

/-- A successful export: the files of the run were there, the table perhaps, and nothing but their copies was written.
-/
theorem exportRun_ok {base runId out path : String} {d d' : Disk}
    (h : (exportRun base runId out).run d = (.ok path, d')) :
    path = Disk.join out runId ∧
      (∀ f ∈ [configFile, historyFile, programsFile], ∃ bytes,
        d.at? ((runPlace base runId).child f) = some (.file bytes)) ∧
      (∀ f ∈ runFiles, ∀ bytes, d.at? ((runPlace base runId).child f) = some (.file bytes) →
        Copied (runPlace base runId) (runPlace out runId) f d d') ∧
      Extends (fun r => ∃ f ∈ runFiles, r = (runPlace out runId).child f ∧
        ∃ bytes, d.at? ((runPlace base runId).child f) = some (.file bytes)) d d' := by
  obtain ⟨hid, hpath, d₁, d₂, hmade, hcopy, hseries⟩ := exportRun_inv h
  have hmkdir := (Disk.touches_mkdirAll _).run hmade
  have hsource := Disk.join_ne_empty base hid
  have hdestination := Disk.join_ne_empty out hid
  unfold runPlace
  generalize Disk.join base runId = source at *
  generalize Disk.join out runId = destination at *
  refine ⟨hpath, ?_⟩
  obtain ⟨hthree, hcopied⟩ := copyFiles_copied hsource hdestination (by decide) (by decide) hcopy
  have hbefore : ∀ f ∈ [configFile, historyFile, programsFile],
      Copied (Place.ofPath source) (Place.ofPath destination) f d d₂ := fun f hf =>
    .after hmkdir id (hcopied f hf).1
  have hthere : ∀ f ∈ [configFile, historyFile, programsFile],
      ∃ bytes, d.at? ((Place.ofPath source).child f) = some (.file bytes) := fun f hf => (hbefore f hf).there
  -- Before the table was copied, it was there or not as in the beginning.
  have hstart : Extends (fun r => ∃ f ∈ [configFile, historyFile, programsFile],
      r = (Place.ofPath destination).child f) d d₂ := (hmkdir.mono fun _ => False.elim).trans hthree
  have hother : ∀ p, ¬∃ f ∈ [configFile, historyFile, programsFile], Place.child p seriesFile =
      (Place.ofPath destination).child f := by
    rintro p ⟨f, hf, heq⟩
    rw [← (Place.child_inj.mp heq).2] at hf
    exact absurd hf (by decide)
  have hmem : ∀ f, f ∈ runFiles ↔ f ∈ [configFile, historyFile, programsFile] ∨ f = seriesFile := by
    intro f
    simp [runFiles, or_assoc]
  rcases hseries with hseries | ⟨hmissing, rfl⟩
  · obtain ⟨hlast, htable⟩ := copyFiles_copied hsource hdestination (by decide) (by decide) hseries
    have htable : Copied (Place.ofPath source) (Place.ofPath destination) seriesFile d d' :=
      .after hstart (hother _) (htable seriesFile (by simp)).1
    refine ⟨hthere, fun f hf bytes hbytes => ?_, (hstart.mono ?_).trans (hlast.mono ?_)⟩
    · rcases (hmem f).mp hf with hf | rfl
      · refine (hbefore f hf).before hlast ?_
        rintro ⟨g, hg, heq⟩
        rw [List.mem_singleton.mp hg] at heq
        exact hother _ ⟨f, hf, heq.symm⟩
      · exact htable
    · rintro r ⟨f, hf, rfl⟩
      exact ⟨f, (hmem f).mpr (.inl hf), rfl, hthere f hf⟩
    · rintro r ⟨f, hf, rfl⟩
      rw [List.mem_singleton.mp hf]
      exact ⟨seriesFile, (hmem _).mpr (.inr rfl), rfl, htable.there⟩
  · refine ⟨hthere, fun f hf bytes hbytes => ?_, hstart.mono ?_⟩
    · rcases (hmem f).mp hf with hf | rfl
      · exact hbefore f hf
      · -- The directory of the table can be reached, so that the table itself would have been found.
        have hlocate := (Disk.locate_join_iff hsource (by decide : IsPlain seriesFile)).mpr
          ((Disk.locate_join_iff hsource (by decide)).mp (hcopied configFile (by simp)).2)
        have hfound : d'.find (Disk.join source seriesFile) = .ok (.file bytes) := by
          refine Disk.find_eq_ok.mpr ⟨hlocate, ?_⟩
          rw [Disk.ofPath_join_plain hsource (by decide)]
          exact (hstart.file _ (hother _) bytes).mpr hbytes
        rw [hfound] at hmissing
        cases hmissing
    · rintro r ⟨f, hf, rfl⟩
      exact ⟨f, (hmem f).mpr (.inl hf), rfl, hthere f hf⟩

/-! ## Source and copy -/

theorem inside_iff {p q : Place} :
    p.inside q = true ↔ p.rooted = q.rooted ∧ ∃ names, q.names = names ++ p.names ∧ names ≠ [] ∧ ".." ∉ names := by
  obtain ⟨rooted, below⟩ := p
  obtain ⟨rooted', names⟩ := q
  simp only [Place.inside, Bool.and_eq_true, beq_iff_eq, decide_eq_true_eq, List.isSuffixOf_iff_suffix,
    List.all_eq_true]
  constructor
  · rintro ⟨⟨⟨hrooted, hlength⟩, names', rfl⟩, hnames⟩
    refine ⟨hrooted, names', rfl, ?_, fun hmem => ?_⟩
    · rintro rfl
      simp at hlength
    · have htake : (names' ++ below).take ((names' ++ below).length - below.length) = names' := by simp
      rw [htake] at hnames
      simpa using hnames _ hmem
  · rintro ⟨hrooted, names', rfl, hne, hup⟩
    have hlength := List.length_pos_of_ne_nil hne
    have htake : (names' ++ below).take ((names' ++ below).length - below.length) = names' := by simp
    refine ⟨⟨⟨hrooted, by simp; omega⟩, names', rfl⟩, fun name hname => ?_⟩
    rw [htake] at hname
    have hne : name ≠ ".." := fun heq => hup (heq ▸ hname)
    simpa using hne

theorem inside_child {p q : Place} {f : String} (hf : f ≠ "..") :
    p.inside (q.child f) = true ↔ p = q ∨ p.inside q = true := by
  obtain ⟨rooted, names⟩ := p
  obtain ⟨rooted', names'⟩ := q
  rw [inside_iff, inside_iff]
  constructor
  · rintro ⟨rfl, above, hnames, hne, hup⟩
    obtain ⟨g, above, rfl⟩ := List.exists_cons_of_ne_nil hne
    obtain ⟨rfl, rfl⟩ : f = g ∧ names' = above ++ names := List.cons.inj hnames
    by_cases habove : above = []
    · subst habove
      exact .inl rfl
    · exact .inr ⟨rfl, above, rfl, habove, fun h => hup (List.mem_cons_of_mem f h)⟩
  · rintro (heq | ⟨rfl, above, rfl, hne, hup⟩)
    · obtain ⟨rfl, rfl⟩ := Place.mk.inj heq
      exact ⟨rfl, [f], rfl, by simp, by simpa using Ne.symm hf⟩
    · exact ⟨rfl, f :: above, rfl, by simp, by simpa using ⟨Ne.symm hf, hup⟩⟩

theorem inside_irrefl (p : Place) : p.inside p = false := by
  simp [Place.inside]

/-- No file at or below `p` has changed, and the files of the run at `q` are those at `p`. -/
structure Intact (p q : Place) (d d' : Disk) : Prop where
  source : ∀ r bytes, p.inside r = true → d.at? r = some (.file bytes) → d'.at? r = some (.file bytes)
  copies : ∀ f ∈ runFiles, ∀ bytes, d.at? (p.child f) = some (.file bytes) → d'.at? (q.child f) = some (.file bytes)

/-- **Exports**. The files of the run are copied, and no other file is written. So the source stays as it is, and the
copy is the same, if and only if the directory is not exported onto itself, where only empty files survive, nor over
different files inside itself. -/
theorem export_intact_iff {base runId out path : String} {d d' : Disk}
    (h : (exportRun base runId out).run d = (.ok path, d')) :
    path = Disk.join out runId ∧
      (∀ f ∈ [configFile, historyFile, programsFile], ∃ bytes,
        d.at? ((runPlace base runId).child f) = some (.file bytes)) ∧
      (∀ f ∈ runFiles, ∀ bytes, d.at? ((runPlace base runId).child f) = some (.file bytes) →
        Copied (runPlace base runId) (runPlace out runId) f d d') ∧
      (∀ r, (∀ f ∈ runFiles, r ≠ (runPlace out runId).child f) →
        ∀ bytes, d'.at? r = some (.file bytes) ↔ d.at? r = some (.file bytes)) ∧
      (Intact (runPlace base runId) (runPlace out runId) d d' ↔
        (runPlace base runId = runPlace out runId →
          ∀ f ∈ runFiles, ∀ bytes, d.at? ((runPlace base runId).child f) = some (.file bytes) → bytes = .empty) ∧
        ((runPlace base runId).inside (runPlace out runId) = true →
          ∀ f ∈ runFiles, ∀ old new, d.at? ((runPlace out runId).child f) = some (.file old) →
            d.at? ((runPlace base runId).child f) = some (.file new) → old = new)) := by
  obtain ⟨hpath, hthere, hcopied, hextends⟩ := exportRun_ok h
  generalize runPlace base runId = p at *
  generalize runPlace out runId = q at *
  refine ⟨hpath, hthere, hcopied, fun r hr => hextends.file r ?_, fun hintact => ⟨?_, ?_⟩, fun hsafe => ⟨?_, ?_⟩⟩
  · rintro ⟨f, hf, heq, -⟩
    exact hr f hf heq
  · rintro rfl f hf bytes hbytes
    have hcopy := (hcopied f hf bytes hbytes).copy
    rw [if_pos rfl, hintact.copies f hf bytes hbytes] at hcopy
    exact Entry.file.inj (Option.some.inj hcopy)
  · intro hinside f hf old new hold hnew
    have hne : p ≠ q := by
      rintro rfl
      rw [inside_irrefl] at hinside
      cases hinside
    have hcopy := (hcopied f hf new hnew).copy
    have hbelow := (inside_child ((runFiles_plain f hf).2.2.1)).mpr (.inr hinside)
    rw [if_neg hne, hintact.source _ old hbelow hold, hnew] at hcopy
    exact Entry.file.inj (Option.some.inj hcopy)
  · intro r bytes hinside hbytes
    by_cases hr : ∃ f ∈ runFiles, r = q.child f ∧ ∃ bytes, d.at? (p.child f) = some (.file bytes)
    · obtain ⟨f, hf, rfl, new, hnew⟩ := hr
      have hcopy := (hcopied f hf new hnew).copy
      rcases (inside_child ((runFiles_plain f hf).2.2.1)).mp hinside with rfl | hinside
      · rw [hcopy, if_pos rfl, hsafe.1 rfl f hf bytes hbytes]
      · have hne : p ≠ q := by
          rintro rfl
          rw [inside_irrefl] at hinside
          cases hinside
        rw [hcopy, if_neg hne, hnew, hsafe.2 hinside f hf bytes new hbytes hnew]
    · exact (hextends.file r hr bytes).mpr hbytes
  · intro f hf bytes hbytes
    rw [(hcopied f hf bytes hbytes).copy]
    split
    · rename_i heq
      rw [hsafe.1 heq f hf bytes hbytes]
    · exact hbytes

/-- A run with three small files. -/
def smallRun : Disk :=
  ⟨[(⟨false, ["a"]⟩, .directory), (⟨false, ["run", "a"]⟩, .directory),
    (⟨false, ["config.json", "run", "a"]⟩, .file "1".toUTF8),
    (⟨false, ["fitness_history.json", "run", "a"]⟩, .file "2".toUTF8),
    (⟨false, ["best_programs.json", "run", "a"]⟩, .file "3".toUTF8)]⟩

/-- Exported to another directory the run stays as it is. -/
theorem export_intact_elsewhere : ∃ d', (exportRun "a" "run" "b").run smallRun = (.ok "b/run", d') ∧
    Intact (runPlace "a" "run") (runPlace "b" "run") smallRun d' := by
  obtain ⟨d', hrun⟩ := exists_run (show ((exportRun "a" "run" "b").run smallRun).1 = .ok "b/run" by decide +kernel)
  refine ⟨d', hrun, (export_intact_iff hrun).2.2.2.2.mpr ⟨fun hsame => ?_, fun hinside => ?_⟩⟩
  · exact absurd hsame (by decide +kernel)
  · exact absurd hinside (by decide +kernel)

/-- Exported onto itself it loses its files, and yet the export succeeds. -/
theorem export_onto_itself : ∃ d', (exportRun "a" "run" "a").run smallRun = (.ok "a/run", d') ∧
    smallRun.at? ((runPlace "a" "run").child configFile) = some (.file "1".toUTF8) ∧
    d'.at? ((runPlace "a" "run").child configFile) = some (.file .empty) := by
  obtain ⟨d', hrun⟩ := exists_run (show ((exportRun "a" "run" "a").run smallRun).1 = .ok "a/run" by decide +kernel)
  obtain ⟨-, hthere, hcopied, -⟩ := exportRun_ok hrun
  obtain ⟨bytes, hbytes⟩ := hthere configFile (by decide)
  exact ⟨d', hrun, rfl, (hcopied configFile (by decide) bytes hbytes).copy.trans (if_pos rfl)⟩

end Forager.Archive
