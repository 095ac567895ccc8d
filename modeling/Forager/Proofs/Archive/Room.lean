import Forager.Proofs.Archive.Export

/-!
# Room for a run

* `Room d q` : no file is in the way of a directory at `q`, and no directory in the way of the files of a run there;
* `Ready d q` : the directory is there; `Room.mkdirAll` : it can be made where there is room;
* `Ready.writeFile`, `Ready.copyFiles` : the files of a run can be written and copied into it;
* `exportRun_ok_iff` : so a run whose files are all there can be exported exactly where there is room.
-/

namespace Forager.Archive

set_option autoImplicit false

open Disk (Place Grows Accessible Clear IsPlain)

/-- No file is in the way of the directory, and no directory in the way of a file of the run. -/
structure Room (d : Disk) (q : Place) : Prop where
  clear : Clear d q
  files : ∀ f ∈ runFiles, d.at? (q.child f) ≠ some .directory

/-- The directory is there, and no directory is in the way of a file of the run. -/
structure Ready (d : Disk) (q : Place) : Prop where
  here : Accessible d q
  files : ∀ f ∈ runFiles, d.at? (q.child f) ≠ some .directory

theorem perform_ok {α : Type} {m : Disk.Does α} {d d' : Disk} {x : α} (h : m.run d = (.ok x, d')) :
    (perform m).run d = (.ok x, d') := by
  change ((m.run d).1.mapError ArtifactError.file, (m.run d).2) = _
  rw [h]
  rfl

theorem runPlace_eq (base : String) {id : String} (hid : IsPlain id) :
    runPlace base id = (Place.ofPath base).child id := by
  by_cases hbase : base = ""
  · subst hbase
    have hrooted : Disk.isRooted id = false := by
      obtain ⟨c, cs, hcs⟩ := List.exists_cons_of_ne_nil fun hnil => hid.1 (String.toList_eq_nil_iff.mp hnil)
      have hc := hid.2.2.2
      rw [hcs, List.mem_cons, not_or] at hc
      simpa [Disk.isRooted, hcs] using Ne.symm hc.1
    rw [runPlace, Disk.join, if_pos rfl, if_neg hid.1, Disk.ofPath_clean, Place.ofPath, Disk.namesOf_plain hid,
      Place.start, hrooted]
    exact Place.follow_plain _ hid
  · exact Disk.ofPath_join_plain hbase hid

theorem runPlace_names_ne (base : String) {id : String} (hid : IsPlain id) : (runPlace base id).names ≠ [] := by
  rw [runPlace_eq base hid]
  simp [Place.child]

theorem not_above_child (q : Place) (f : String) : ¬(q.child f).Above q := fun h => by
  have := h.length_le
  simp [Place.child] at this

section

variable {d d' : Disk}

theorem Ready.grows {q : Place} {F : Place → Prop} (h : Ready d q) (hgrows : Grows (fun _ => False) F d d') :
    Ready d' q :=
  ⟨h.here.extends hgrows.toExtends, fun f hf hat => (hgrows.directory hat).elim (h.files f hf) id⟩

/-- Where there is room, the directory of a run can be made. -/
theorem Room.mkdirAll {base id : String} (hid : IsPlain id) (h : Room d (runPlace base id)) :
    ∃ d', (Disk.mkdirAll (Disk.join base id)).run d = (.ok (), d') ∧ Ready d' (runPlace base id) ∧
      Grows (Place.Above · (runPlace base id)) (fun _ => False) d d' := by
  obtain ⟨d', hrun, hhere, hgrows⟩ := Disk.mkdirAll_path (Place.normal_ofPath _) (runPlace_names_ne base hid) h.clear
  rw [Disk.path_ofPath_join base hid.1] at hrun
  refine ⟨d', hrun, ⟨hhere, fun f hf hat => ?_⟩, hgrows⟩
  exact (hgrows.directory hat).elim (h.files f hf) (not_above_child _ f)

/-- A file can be written into a directory that is ready. -/
theorem Ready.writeFile {dir f : String} (hdir : dir ≠ "") (h : Ready d (Place.ofPath dir)) (hf : f ∈ runFiles)
    (bytes : ByteArray) : ∃ d', (Disk.writeFile (Disk.join dir f) bytes).run d = (.ok (), d') ∧
      Grows (fun _ => False) (· = (Place.ofPath dir).child f) d d' ∧ Ready d' (Place.ofPath dir) := by
  have hplain := runFiles_plain f hf
  have hplace := Disk.ofPath_join_plain hdir hplain
  obtain ⟨d', hrun, hgrows⟩ := Disk.writeFile_grows ((Disk.locate_join_iff hdir hplain).mpr h.here)
    (hplace ▸ h.files f hf) bytes
  rw [hplace] at hgrows
  exact ⟨d', hrun, hgrows, h.grows hgrows⟩

theorem Ready.writeValue {dir f : String} (hdir : dir ≠ "") (h : Ready d (Place.ofPath dir)) (hf : f ∈ runFiles)
    {write : Option Json} {j : Json} (hj : write = some j) :
    ∃ d', (writeValue (Disk.join dir f) write).run d = (.ok (), d') ∧
      Grows (fun _ => False) (· = (Place.ofPath dir).child f) d d' ∧ Ready d' (Place.ofPath dir) := by
  obtain ⟨d', hrun, hgrows, hready⟩ := h.writeFile hdir hf j.pretty.toUTF8
  exact ⟨d', by rw [hj]; exact perform_ok hrun, hgrows, hready⟩

/-- Files can be copied into a directory that is ready, even onto themselves. -/
theorem Ready.copyFiles {source destination : String} (hdestination : destination ≠ "") (files : List String)
    (hfiles : ∀ f ∈ files, f ∈ runFiles) (h : Ready d (Place.ofPath destination))
    (hsource : ∀ f ∈ runFiles, ∃ bytes, d.readFile (Disk.join source f) = .ok bytes) :
    ∃ d', (copyFiles source destination files).run d = (.ok (), d') ∧ Ready d' (Place.ofPath destination) ∧
      ∀ f ∈ runFiles, ∃ bytes, d'.readFile (Disk.join source f) = .ok bytes := by
  induction files generalizing d with
  | nil => exact ⟨d, rfl, h, hsource⟩
  | cons f files ih =>
    obtain ⟨hf, hfiles⟩ := List.forall_mem_cons.mp hfiles
    have hplain := runFiles_plain f hf
    obtain ⟨bytes, hread⟩ := hsource f hf
    obtain ⟨d₁, hrun, hgrows⟩ := Disk.copyFile_grows hread ((Disk.locate_join_iff hdestination hplain).mpr h.here)
      (Disk.ofPath_join_plain hdestination hplain ▸ h.files f hf)
    rw [copyFiles, run_bind_of_ok (perform_ok hrun)]
    refine ih hfiles (h.grows hgrows) fun g hg => ?_
    obtain ⟨bytes, hread⟩ := hsource g hg
    exact hgrows.readFile hread

/-- **Exports succeed** exactly where there is room, if all files of the run are there. -/
theorem exportRun_ok_iff {base id out : String} (hid : IsPlain id)
    (hfiles : ∀ f ∈ runFiles, ∃ bytes, d.readFile (runFile base id f) = .ok bytes) :
    (∃ d', (exportRun base id out).run d = (.ok (Disk.join out id), d')) ↔ Room d (runPlace out id) := by
  have hdestination := Disk.join_ne_empty out hid.1
  constructor
  · rintro ⟨d', hrun⟩
    obtain ⟨-, -, d₁, -, hmkdir, -⟩ := exportRun_inv hrun
    obtain ⟨-, -, hcopied, hextends⟩ := exportRun_ok hrun
    have hpath := Disk.path_ofPath_join out hid.1
    refine ⟨?_, fun f hf hat => ?_⟩
    · exact Disk.clear_of_mkdirAll (Place.normal_ofPath _) (runPlace_names_ne out hid) (hpath.symm ▸ hmkdir)
    · obtain ⟨bytes, hread⟩ := hfiles f hf
      have hthere := (Disk.readFile_ok.mp hread).2
      rw [ofPath_runFile base hid.1 (runFiles_plain f hf)] at hthere
      obtain ⟨bytes', hwritten⟩ := (hcopied f hf bytes hthere).written
      rw [hextends.directory _ hat] at hwritten
      cases hwritten
  · intro hroom
    obtain ⟨d₁, hmkdir, hready, hgrows⟩ := hroom.mkdirAll hid
    have hstat : (perform (liftM (d.stat (Disk.join base id)))).run d = (.ok .directory, d) := by
      obtain ⟨bytes, hread⟩ := hfiles configFile (by decide)
      have hhere := (Disk.locate_join_iff (Disk.join_ne_empty base hid.1) (by decide)).mp (Disk.readFile_ok.mp hread).1
      have hfind := hhere.find_path (Place.normal_ofPath _)
      rw [Disk.path_ofPath_join base hid.1] at hfind
      rw [Disk.stat, hfind]
      rfl
    have hfiles₁ : ∀ f ∈ runFiles, ∃ bytes, d₁.readFile (Disk.join (Disk.join base id) f) = .ok bytes := fun f hf => by
      obtain ⟨bytes, hread⟩ := hfiles f hf
      exact hgrows.readFile hread
    obtain ⟨d₂, hcopy, hready₂, hfiles₂⟩ := hready.copyFiles hdestination [configFile, historyFile, programsFile]
      (by decide) hfiles₁
    obtain ⟨d₃, hseries, -⟩ := hready₂.copyFiles hdestination [seriesFile] (by decide) hfiles₂
    have htable : ∃ e, d₂.stat (Disk.join (Disk.join base id) seriesFile) = .ok e := by
      obtain ⟨bytes, hread⟩ := hfiles₂ seriesFile (by decide)
      refine ⟨.file bytes, ?_⟩
      rw [Disk.stat, Disk.find_eq_ok.mpr (Disk.readFile_ok.mp hread)]
      rfl
    obtain ⟨e, htable⟩ := htable
    refine ⟨d₃, ?_⟩
    unfold exportRun
    rw [if_neg hid.1]
    dsimp only
    rw [run_get_bind, run_bind_of_ok hstat, run_bind_of_ok (perform_ok hmkdir), run_bind_of_ok hcopy, run_get_bind,
      htable]
    exact run_bind_of_ok hseries

end

end Forager.Archive
