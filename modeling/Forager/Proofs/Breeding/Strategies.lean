import Mathlib.Data.List.Perm.Subperm
import Forager.Breeding.Files
import Forager.Proofs.Breeding.Heredity
import Forager.Proofs.Disk.Listing
import Forager.Proofs.Program.RoundTrip
import Forager.Proofs.Text.Natural

/-!
# Strategies in files

An individual is written to one file for each slot, and what is loaded from a directory is decided by the names and the
contents of its visible files alone.

* `slotNames number count` : the names of the program files from `number` on, which are in natural order
  (`ordered_slotNames`);
* `programNames_eq` : the names found in a directory do not depend on the order in which it lists them;
* `load_eq` : neither does the strategy that is loaded;
* `Written dir programs d d'` : programs were written to a directory; `Written.mem_programNames` : its visible files are
  then the program files and those it had before;
* `Written.readPrograms_iff_only` : if no program file is a link, the programs are read back exactly if there were no
  others; `Written.readPrograms_iff_free` : if there were no others, exactly if no program file is a link;
* `load_of_parse` : a program file is a strategy of one program;
* `strategy_files_exact` : all of this for individuals; `linked_slot_lost` : what becomes of a program that is written
  through a link.
-/

namespace Forager.Breeding

set_option autoImplicit false

open Disk (Place Extends Touches IsPlain Visible)
open Program (Expr)
open Text.Natural (Ordered)

/-! ## Names of program files -/

theorem programName_last (n : Nat) : (s!"{n}.sexp").toList.getLast? = some 'p' := by
  rw [Text.Natural.toList_numbered, List.getLast?_append]
  rfl

theorem programName_plain (n : Nat) : IsPlain s!"{n}.sexp" := by
  have hshort : ∀ name ∈ ["", ".", ".."], name.toList.getLast? ≠ some 'p' := by decide
  refine ⟨?_, ?_, ?_, fun hslash => ?_⟩
  · exact fun h => hshort "" (by simp) (h ▸ programName_last n)
  · exact fun h => hshort "." (by simp) (h ▸ programName_last n)
  · exact fun h => hshort ".." (by simp) (h ▸ programName_last n)
  · rw [Text.Natural.toList_numbered] at hslash
    rcases List.mem_append.mp hslash with hdigit | hrest
    · exact absurd (Number.digits_toDigits n _ hdigit) (by decide)
    · exact absurd hrest (by decide)

theorem programName_visible (n : Nat) : Visible s!"{n}.sexp" := by
  obtain ⟨c, cs, hdigits⟩ := List.exists_cons_of_ne_nil (Nat.toDigits_ne_nil (n := n) (b := 10))
  have hdigit := Number.digits_toDigits n c (by rw [hdigits]; exact List.mem_cons_self)
  rw [Visible, Text.Natural.toList_numbered, hdigits]
  rintro ⟨rfl⟩
  exact absurd hdigit (by decide)

/-- The names of as many program files, from a number on. -/
def slotNames (number count : Nat) : List String := (List.range' number count).map fun n => s!"{n}.sexp"

theorem mem_slotNames {number count : Nat} {name : String} :
    name ∈ slotNames number count ↔ ∃ n, (number ≤ n ∧ n < number + count) ∧ name = s!"{n}.sexp" := by
  simp only [slotNames, List.mem_map, List.mem_range'_1, eq_comm]

theorem pairwise_slotNames (number count : Nat) :
    (slotNames number count).Pairwise fun a b => Text.Natural.less (Text.bytes a) (Text.bytes b) = true :=
  List.pairwise_map.mpr ((List.pairwise_lt_range' 1).imp fun h => Text.Natural.less_numbered h)

theorem ordered_slotNames (number count : Nat) : Ordered (slotNames number count) := by
  refine (pairwise_slotNames number count).imp fun {a b} h => ?_
  rw [Text.Natural.less_iff] at h
  exact (Text.Natural.not_less_iff _ _).mpr h.le

theorem nodup_slotNames (number count : Nat) : (slotNames number count).Nodup := by
  refine (pairwise_slotNames number count).imp fun {a b} h => ?_
  rintro rfl
  rw [Text.Natural.less_irrefl] at h
  cases h

/-! ## Reading -/

theorem mem_programNames {items : List (String × Disk.Item)} {name : String} :
    name ∈ programNames items ↔ Visible name ∧ ∃ bytes, (name, .file bytes) ∈ items := by
  rw [programNames, (Text.Natural.sort_perm _).mem_iff, List.mem_map]
  constructor
  · rintro ⟨⟨name, item⟩, hmem, rfl⟩
    obtain ⟨hitem, hfile⟩ := List.mem_filter.mp hmem
    cases item with
    | directory | link => cases hfile
    | file bytes => exact ⟨of_decide_eq_true hfile, bytes, hitem⟩
  · rintro ⟨hvisible, bytes, hitem⟩
    exact ⟨_, List.mem_filter.mpr ⟨hitem, decide_eq_true hvisible⟩, rfl⟩

section

variable {d d₁ d₂ : Disk} {dir : String}

theorem nodup_visibleNames (h : d.Proper) (p : Place) : (((d.list p).filter isProgramFile).map (·.1)).Nodup :=
  (h.nodup_names p).sublist (List.filter_sublist.map _)

theorem nodup_programNames (h : d.Proper) (p : Place) : (programNames (d.list p)).Nodup :=
  (Text.Natural.sort_perm _).nodup_iff.mpr (nodup_visibleNames h p)

/-- Names in natural order which are those of the visible files are the names found. -/
theorem programNames_eq (h : d.Proper) {p : Place} {names : List String} (hordered : Ordered names)
    (hnodup : names.Nodup) (hmem : ∀ name, name ∈ programNames (d.list p) ↔ name ∈ names) :
    programNames (d.list p) = names := by
  refine hordered.eq_sort ((List.perm_ext_iff_of_nodup hnodup (nodup_visibleNames h p)).mpr fun name => ?_)
  rw [← hmem, programNames, (Text.Natural.sort_perm _).mem_iff]

theorem readPrograms_directory (hdir : d.find dir = .ok .directory) :
    readPrograms d dir =
      if (programNames (d.list (Place.ofPath dir))).isEmpty then .error (.empty dir)
      else (programNames (d.list (Place.ofPath dir))).mapM fun name => readProgram d (Disk.join dir name) := by
  unfold readPrograms Disk.stat
  rw [hdir]
  rfl

theorem mapM_eq_ok {ε α β : Type} {f : α → Except ε β} {as : List α} {bs : List β} :
    as.mapM f = .ok bs ↔ List.Forall₂ (fun a b => f a = .ok b) as bs := by
  induction as generalizing bs with
  | nil =>
    constructor
    · rintro ⟨⟩
      exact .nil
    · rintro ⟨⟩
      rfl
  | cons a as ih =>
    rw [List.mapM_cons]
    constructor
    · intro h
      cases ha : f a with
      | error e =>
        rw [ha] at h
        cases h
      | ok b =>
        cases has : as.mapM f with
        | error e =>
          rw [ha, has] at h
          cases h
        | ok rest =>
          rw [ha, has] at h
          cases h
          exact .cons ha (ih.mp has)
    · rintro (_ | ⟨ha, has⟩)
      rw [ha, ih.mpr has]
      rfl

theorem mapM_congr {ε α β : Type} {f g : α → Except ε β} {as : List α} (h : ∀ a ∈ as, f a = g a) :
    as.mapM f = as.mapM g := by
  induction as with
  | nil => rfl
  | cons a as ih =>
    obtain ⟨ha, has⟩ := List.forall_mem_cons.mp h
    rw [List.mapM_cons, List.mapM_cons, ha, ih has]

theorem length_of_readPrograms {programs : List Expr} (hdir : d.find dir = .ok .directory)
    (hread : readPrograms d dir = .ok programs) :
    (programNames (d.list (Place.ofPath dir))).length = programs.length := by
  rw [readPrograms_directory hdir] at hread
  split at hread
  · cases hread
  · exact (mapM_eq_ok.mp hread).length_eq

/-- What is loaded from a directory depends on its visible files only. -/
theorem load_eq (h₁ : d₁.Proper) (h₂ : d₂.Proper) (hdir₁ : d₁.find dir = .ok .directory)
    (hdir₂ : d₂.find dir = .ok .directory)
    (hsame : ∀ name, Visible name → ∀ bytes,
      (name, .file bytes) ∈ d₁.list (Place.ofPath dir) ↔ (name, .file bytes) ∈ d₂.list (Place.ofPath dir))
    (id : String) : Individual.load d₁ id dir = Individual.load d₂ id dir := by
  have hnames : programNames (d₁.list (Place.ofPath dir)) = programNames (d₂.list (Place.ofPath dir)) := by
    refine programNames_eq h₁ (Text.Natural.ordered_sort _) (nodup_programNames h₂ _) fun name => ?_
    rw [mem_programNames, mem_programNames]
    exact and_congr_right fun hvisible => exists_congr (hsame name hvisible)
  have hprograms : ∀ name ∈ programNames (d₂.list (Place.ofPath dir)),
      readProgram d₁ (Disk.join dir name) = readProgram d₂ (Disk.join dir name) := by
    intro name hname
    obtain ⟨hvisible, bytes, hmem⟩ := mem_programNames.mp hname
    rw [readProgram, readProgram, h₂.readFile_join hdir₂ hvisible hmem,
      h₁.readFile_join hdir₁ hvisible ((hsame name hvisible bytes).mpr hmem)]
  unfold Individual.load
  rw [readPrograms_directory hdir₁, readPrograms_directory hdir₂, hnames, mapM_congr hprograms]

end

section

variable {d : Disk} {path text : String} {e : Expr}

theorem readProgram_of_parse (hparse : Program.parseProgram text = .ok e) (hread : d.readFile path = .ok text.toUTF8) :
    readProgram d path = .ok e := by
  rw [readProgram, hread]
  dsimp only
  rw [Text.decode_toUTF8, hparse]
  rfl

theorem readProgram_pretty (hroot : e.kind = .step) (he : e.WellFormed)
    (hread : d.readFile path = .ok e.pretty.toUTF8) : readProgram d path = .ok e :=
  readProgram_of_parse
    (Program.parseProgram_iff.mpr ⟨Program.parse_pretty he (Expr.isLiteral_of_root hroot), hroot⟩) hread

/-- A program file is a strategy of one program. -/
theorem load_of_parse (hparse : Program.parseProgram text = .ok e) (hread : d.readFile path = .ok text.toUTF8)
    (id : String) : Individual.load d id path = .ok { id, programs := [e] } := by
  have hprogram := readProgram_of_parse hparse hread
  have hprograms : readPrograms d path = .ok [e] := by
    unfold Disk.readFile at hread
    unfold readPrograms Disk.stat
    cases hfind : d.find path with
    | error x => simp [hfind] at hread
    | ok entry =>
      cases entry with
      | directory => simp [hfind] at hread
      | file bytes =>
        change (readProgram d path).map _ = _
        rw [hprogram]
        rfl
  have hroot : ∀ e' ∈ [e], e'.kind = .step := List.forall_mem_singleton.mpr (Program.parseProgram_iff.mp hparse).2
  have hnew : Individual.new id [e] = .ok { id, programs := [e] } :=
    (new_iff id [e] _).mpr ⟨List.cons_ne_nil _ _, hroot, rfl⟩
  unfold Individual.load
  rw [hprograms]
  change (Individual.new id [e]).mapError LoadError.strategy = _
  rw [hnew]
  rfl

end

/-! ## Writing -/

/-- The place is one of the program files of a directory, from a number on. -/
def SlotPlace (dir : String) (number count : Nat) (p : Place) : Prop :=
  ∃ name ∈ slotNames number count, p = (Place.ofPath dir).child name

theorem slotNames_succ (number count : Nat) :
    slotNames number (count + 1) = s!"{number}.sexp" :: slotNames (number + 1) count := by
  rw [slotNames, List.range'_succ, List.map_cons]
  rfl

section

variable {dir : String} {d d' : Disk}

theorem touches_writePrograms (hdir : dir ≠ "") (number : Nat) (programs : List Expr) :
    Touches (SlotPlace dir number programs.length) (writePrograms dir number programs) := by
  induction programs generalizing number with
  | nil => exact .pure ()
  | cons e rest ih =>
    rw [List.length_cons]
    refine .bind ((Disk.touches_writeFile _ _).mono ?_ |>.adapt _) fun _ => (ih (number + 1)).mono ?_
    · rintro r rfl
      refine ⟨s!"{number}.sexp", ?_, Disk.ofPath_join_plain hdir (programName_plain number)⟩
      rw [slotNames_succ]
      exact List.mem_cons_self
    · rintro r ⟨name, hname, rfl⟩
      refine ⟨name, ?_, rfl⟩
      rw [slotNames_succ]
      exact List.mem_cons_of_mem _ hname

theorem touches_write (ind : Individual) (hdir : dir ≠ "") :
    Touches (SlotPlace dir 1 ind.programs.length) (ind.write dir) :=
  .bind (((Disk.touches_mkdirAll dir).mono fun _ => False.elim).adapt _) fun _ =>
    touches_writePrograms hdir 1 ind.programs

theorem stable_writePrograms {I : Disk → Prop} (hI : Disk.Stable I) {number : Nat} {programs : List Expr} (hd : I d)
    (h : (writePrograms dir number programs).run d = (.ok (), d')) : I d' := by
  induction programs generalizing number d with
  | nil =>
    cases h
    exact hd
  | cons e rest ih =>
    obtain ⟨_, d₁, hfirst, hrest⟩ := run_bind_ok h
    exact ih (hI.writeFile hd (Disk.adapt_ok hfirst)) hrest

theorem stable_write {I : Disk → Prop} (hI : Disk.Stable I) {ind : Individual} (hd : I d)
    (h : (ind.write dir).run d = (.ok (), d')) : I d' := by
  obtain ⟨_, d₁, hmade, hrest⟩ := run_bind_ok h
  exact stable_writePrograms hI (hI.mkdirAll hd (Disk.adapt_ok hmade)) hrest

theorem writePrograms_ok (hdir : dir ≠ "") {number : Nat} {programs : List Expr}
    (h : (writePrograms dir number programs).run d = (.ok (), d')) :
    List.Forall₂ (fun name e => d'.readFile (Disk.join dir name) = .ok e.pretty.toUTF8)
      (slotNames number programs.length) programs := by
  induction programs generalizing number d with
  | nil => exact .nil
  | cons e rest ih =>
    obtain ⟨_, d₁, hfirst, hrest⟩ := run_bind_ok h
    have hfirst := Disk.adapt_ok hfirst
    rw [List.length_cons, slotNames_succ]
    refine .cons ?_ (ih hrest)
    -- The files that are written later have other names.
    obtain ⟨hlocate, hat⟩ := Disk.writeFile_ok hfirst
    have hread : d₁.readFile (Disk.join dir s!"{number}.sexp") = .ok e.pretty.toUTF8 :=
      Disk.readFile_ok.mpr ⟨((Disk.touches_writeFile _ _).run hfirst).locate hlocate, hat⟩
    refine ((touches_writePrograms hdir (number + 1) rest).run hrest).readFile ?_ hread
    rintro ⟨name, hname, hplace⟩
    rw [Disk.ofPath_join_plain hdir (programName_plain number)] at hplace
    have hnodup := nodup_slotNames number (rest.length + 1)
    rw [slotNames_succ] at hnodup
    exact (List.nodup_cons.mp hnodup).1 ((Place.child_inj.mp hplace).2 ▸ hname)

/-- Programs were written to a directory. -/
structure Written (dir : String) (programs : List Expr) (d d' : Disk) : Prop where
  directory : d'.find dir = .ok .directory
  proper : d'.Proper
  links : ∀ p, d'.Linked p ↔ d.Linked p
  frame : Extends (SlotPlace dir 1 programs.length) d d'
  files : List.Forall₂ (fun name e => d'.readFile (Disk.join dir name) = .ok e.pretty.toUTF8)
    (slotNames 1 programs.length) programs

theorem written_of_write {ind : Individual} (hd : d.Proper) (h : (ind.write dir).run d = (.ok (), d')) :
    Written dir ind.programs d d' := by
  have hdir : dir ≠ "" := by
    rintro rfl
    cases h
  obtain ⟨_, d₁, hmade, hrest⟩ := run_bind_ok h
  have hmade := Disk.adapt_ok hmade
  have hfind := Disk.find_eq_ok.mp (Disk.mkdirAll_ok hmade)
  have hlater := (touches_writePrograms hdir 1 ind.programs).run hrest
  exact {
    directory := Disk.find_eq_ok.mpr ⟨hlater.locate hfind.1, hlater.directory _ hfind.2⟩
    proper := stable_write Disk.stable_proper hd h
    links := stable_write (Disk.stable_linked d) (fun _ => .rfl) h
    frame := (touches_write ind hdir).run h
    files := writePrograms_ok hdir hrest }

namespace Written

variable {programs : List Expr}

theorem exists_file (h : Written dir programs d d') {name : String} (hname : name ∈ slotNames 1 programs.length) :
    ∃ bytes, d'.readFile (Disk.join dir name) = .ok bytes := by
  have hfiles : List.Forall₂ (fun name _ => (∃ bytes, d'.readFile (Disk.join dir name) = .ok bytes) ∧ True)
      (slotNames 1 programs.length) programs := h.files.imp fun _ _ hfile => ⟨⟨_, hfile⟩, trivial⟩
  exact ((List.forall₂_and_left _ _).mp hfiles).1 name hname

/-- The visible files are then the program files, except where links are, and those that were there before. -/
theorem mem_programNames (h : Written dir programs d d') (hd : d.Proper) {name : String} :
    name ∈ programNames (d'.list (Place.ofPath dir)) ↔
      name ∈ slotNames 1 programs.length ∧ ¬d.Linked ((Place.ofPath dir).child name) ∨
        name ∈ programNames (d.list (Place.ofPath dir)) := by
  rw [Breeding.mem_programNames, Breeding.mem_programNames]
  by_cases hslot : name ∈ slotNames 1 programs.length
  · obtain ⟨bytes, hbytes⟩ := h.exists_file hslot
    obtain ⟨n, -, rfl⟩ := mem_slotNames.mp hslot
    have hvisible := programName_visible n
    have hat := (Disk.readFile_ok.mp hbytes).2
    rw [Disk.ofPath_join_plain (Disk.ne_empty_of_find h.directory) (programName_plain n)] at hat
    constructor
    · rintro ⟨-, bytes', hmem⟩
      have hlinked := ((h.proper.mem_list_file hvisible).mp hmem).2
      exact .inl ⟨hslot, mt (h.links _).mpr hlinked⟩
    · intro hfree
      have hlinked : ¬d.Linked ((Place.ofPath dir).child s!"{n}.sexp") :=
        hfree.elim (·.2) fun ⟨_, _, hmem⟩ => ((hd.mem_list_file hvisible).mp hmem).2
      exact ⟨hvisible, bytes, (h.proper.mem_list_file hvisible).mpr ⟨hat, mt (h.links _).mp hlinked⟩⟩
  · have hplace : ¬SlotPlace dir 1 programs.length ((Place.ofPath dir).child name) := by
      rintro ⟨other, hother, heq⟩
      exact hslot ((Place.child_inj.mp heq).2 ▸ hother)
    rw [or_iff_right fun hslots => hslot hslots.1]
    refine and_congr_right fun hvisible => exists_congr fun bytes => ?_
    rw [h.proper.mem_list_file hvisible, hd.mem_list_file hvisible, h.links]
    exact and_congr_left' (h.frame.file _ hplace bytes)

variable (h : Written dir programs d d') (hd : d.Proper) (hne : programs ≠ [])
  (hprograms : ∀ e ∈ programs, e.kind = .step ∧ e.WellFormed)

include h hd hne hprograms in
/-- The programs are read back if no links take their names and there were no other visible files. -/
theorem readPrograms_eq (hfree : ∀ name ∈ slotNames 1 programs.length, ¬d.Linked ((Place.ofPath dir).child name))
    (honly : ∀ name ∈ programNames (d.list (Place.ofPath dir)), name ∈ slotNames 1 programs.length) :
    readPrograms d' dir = .ok programs := by
  have hnames : programNames (d'.list (Place.ofPath dir)) = slotNames 1 programs.length := by
    refine programNames_eq h.proper (ordered_slotNames _ _) (nodup_slotNames _ _) fun name => ?_
    rw [h.mem_programNames hd]
    exact ⟨fun hname => hname.elim (·.1) (honly name), fun hslot => .inl ⟨hslot, hfree name hslot⟩⟩
  rw [readPrograms_directory h.directory, if_neg, mapM_eq_ok, hnames]
  · have hfiles := (List.forall₂_and_left _ _).mpr ⟨hprograms, h.files.flip⟩
    exact (hfiles.imp fun e name hfile => readProgram_pretty hfile.1.1 hfile.1.2 hfile.2).flip
  · rw [hnames, List.isEmpty_iff, ← List.length_eq_zero_iff]
    simpa [slotNames] using hne

include h hd hne hprograms in
/-- Without links among the program files, the programs are read back exactly if the directory had no other visible
files. -/
theorem readPrograms_iff_only
    (hfree : ∀ name ∈ slotNames 1 programs.length, ¬d.Linked ((Place.ofPath dir).child name)) :
    readPrograms d' dir = .ok programs ↔
      ∀ name ∈ programNames (d.list (Place.ofPath dir)), name ∈ slotNames 1 programs.length := by
  refine ⟨fun hread name hname => ?_, h.readPrograms_eq hd hne hprograms hfree⟩
  -- As many files as programs were read, so the program files are all there are.
  have hslots : ∀ name ∈ slotNames 1 programs.length, name ∈ programNames (d'.list (Place.ofPath dir)) :=
    fun name hslot => (h.mem_programNames hd).mpr (.inl ⟨hslot, hfree name hslot⟩)
  have hsub := List.subperm_of_subset (nodup_slotNames 1 programs.length) hslots
  have hperm := hsub.perm_of_length_le (by rw [length_of_readPrograms h.directory hread]; simp [slotNames])
  exact hperm.mem_iff.mpr ((h.mem_programNames hd).mpr (.inr hname))

include h hd hne hprograms in
/-- Without other visible files, they are read back exactly if no links took their names. -/
theorem readPrograms_iff_free
    (honly : ∀ name ∈ programNames (d.list (Place.ofPath dir)), name ∈ slotNames 1 programs.length) :
    readPrograms d' dir = .ok programs ↔
      ∀ name ∈ slotNames 1 programs.length, ¬d.Linked ((Place.ofPath dir).child name) := by
  refine ⟨fun hread name hslot => ?_, fun hfree => h.readPrograms_eq hd hne hprograms hfree honly⟩
  -- As many files as programs were read, so no program file was passed over.
  have hnames : ∀ name ∈ programNames (d'.list (Place.ofPath dir)), name ∈ slotNames 1 programs.length :=
    fun name hname => ((h.mem_programNames hd).mp hname).elim (·.1) (honly name)
  have hsub := List.subperm_of_subset (nodup_programNames h.proper _) hnames
  have hperm := hsub.perm_of_length_le (by rw [length_of_readPrograms h.directory hread]; simp [slotNames])
  obtain ⟨hvisible, bytes, hmem⟩ := Breeding.mem_programNames.mp (hperm.mem_iff.mpr hslot)
  exact mt (h.links _).mpr ((h.proper.mem_list_file hvisible).mp hmem).2

end Written

end

theorem readProgram_parsed {d : Disk} {path : String} {e : Expr} (h : readProgram d path = .ok e) :
    ∃ text, Program.parseProgram text = .ok e := by
  unfold readProgram at h
  cases hread : d.readFile path with
  | error x =>
    rw [hread] at h
    cases h
  | ok bytes =>
    refine ⟨Text.decode bytes, ?_⟩
    rw [hread] at h
    cases hparse : Program.parseProgram (Text.decode bytes) with
    | error x =>
      simp only [hparse] at h
      cases h
    | ok e' =>
      simp only [hparse] at h
      cases h
      rfl

theorem readPrograms_parsed {d : Disk} {path : String} {programs : List Expr} (h : readPrograms d path = .ok programs) :
    ∀ e ∈ programs, ∃ text, Program.parseProgram text = .ok e := by
  unfold readPrograms at h
  split at h
  · cases h
  · cases hone : readProgram d path with
    | error x =>
      rw [hone] at h
      cases h
    | ok e =>
      rw [hone] at h
      cases h
      exact List.forall_mem_singleton.mpr (readProgram_parsed hone)
  · dsimp only at h
    split at h
    · cases h
    · have hfiles := (mapM_eq_ok.mp h).flip.imp fun _ _ hfile => And.intro (readProgram_parsed hfile) hfile
      exact ((List.forall₂_and_left _ _).mp hfiles).1

/-- What is loaded is a strategy of programs that were read from text, and is not at the empty path. -/
theorem load_parsed {d : Disk} {id path : String} {ind : Individual} (h : Individual.load d id path = .ok ind) :
    path ≠ "" ∧ ind.programs ≠ [] ∧ ∀ e ∈ ind.programs, ∃ text, Program.parseProgram text = .ok e := by
  unfold Individual.load at h
  cases hread : readPrograms d path with
  | error x =>
    rw [hread] at h
    cases h
  | ok programs =>
    rw [hread] at h
    change (Individual.new id programs).mapError LoadError.strategy = .ok ind at h
    cases hnew : Individual.new id programs with
    | error x =>
      rw [hnew] at h
      cases h
    | ok ind' =>
      rw [hnew] at h
      cases h
      obtain ⟨hne, -, rfl⟩ := (new_iff id programs _).mp hnew
      refine ⟨?_, hne, readPrograms_parsed hread⟩
      rintro rfl
      cases hread

section

variable {d : Disk} {id path : String}

theorem loadOrDefault_of_ok {ind : Individual} (h : Individual.load d id path = .ok ind) :
    (Individual.loadOrDefault d id path).1 = ind := by
  unfold Individual.loadOrDefault
  rw [if_neg (load_parsed h).1, h]

theorem loadOrDefault_of_empty (h : path = "") : (Individual.loadOrDefault d id path).1 = .default id := by
  unfold Individual.loadOrDefault
  rw [if_pos h]

theorem loadOrDefault_of_error {x : LoadError} (h : Individual.load d id path = .error x) :
    (Individual.loadOrDefault d id path).1 = .default id := by
  unfold Individual.loadOrDefault
  rw [h]
  split <;> rfl

end

theorem load_iff {d : Disk} {id dir : String} {programs : List Expr} (hne : programs ≠ [])
    (hprograms : ∀ e ∈ programs, e.kind = .step) :
    (∃ loaded, Individual.load d id dir = .ok loaded ∧ loaded.programs = programs) ↔
      readPrograms d dir = .ok programs := by
  unfold Individual.load
  cases hread : readPrograms d dir with
  | error e =>
    constructor
    · rintro ⟨loaded, hload, -⟩
      cases hload
    · rintro ⟨⟩
  | ok found =>
    change (∃ loaded, (Individual.new id found).mapError _ = .ok loaded ∧ _) ↔ _
    constructor
    · rintro ⟨loaded, hload, rfl⟩
      cases hnew : Individual.new id found with
      | error e =>
        rw [hnew] at hload
        cases hload
      | ok ind =>
        rw [hnew] at hload
        cases hload
        rw [((new_iff id found loaded).mp hnew).2.2]
    · rintro ⟨⟩
      have hnew := (new_iff id programs _).mpr ⟨hne, hprograms, rfl⟩
      rw [hnew]
      exact ⟨_, rfl, rfl⟩

/-- No visible file is in the directory but such as have the names of `count` program files. -/
def OnlySlots (d : Disk) (dir : Place) (count : Nat) : Prop :=
  ∀ name bytes, Visible name → (name, .file bytes) ∈ d.list dir → ∃ n, (1 ≤ n ∧ n ≤ count) ∧ name = s!"{n}.sexp"

/-- No link in the directory has the name of one of `count` program files. -/
def Unlinked (d : Disk) (dir : Place) (count : Nat) : Prop :=
  ∀ n bytes, 1 ≤ n → n ≤ count → (s!"{n}.sexp", .link bytes) ∉ d.list dir

theorem onlySlots_iff {d : Disk} {dir : Place} {count : Nat} :
    OnlySlots d dir count ↔ ∀ name ∈ programNames (d.list dir), name ∈ slotNames 1 count := by
  constructor
  · intro h name hname
    obtain ⟨hvisible, bytes, hmem⟩ := mem_programNames.mp hname
    obtain ⟨n, hn, rfl⟩ := h name bytes hvisible hmem
    exact mem_slotNames.mpr ⟨n, by omega, rfl⟩
  · intro h name bytes hvisible hmem
    obtain ⟨n, hn, hname⟩ := mem_slotNames.mp (h name (mem_programNames.mpr ⟨hvisible, bytes, hmem⟩))
    exact ⟨n, by omega, hname⟩

theorem unlinked_iff {d : Disk} (hd : d.Proper) {dir : Place} {count : Nat} :
    Unlinked d dir count ↔ ∀ name ∈ slotNames 1 count, ¬d.Linked (dir.child name) := by
  constructor
  · intro h name hname
    obtain ⟨n, hn, rfl⟩ := mem_slotNames.mp hname
    rw [hd.linked_iff]
    exact fun ⟨bytes, hmem⟩ => h n bytes hn.1 (by omega) hmem
  · intro h n bytes hpos hle hmem
    exact h _ (mem_slotNames.mpr ⟨n, by omega, rfl⟩) (hd.linked_iff.mpr ⟨bytes, hmem⟩)

/-- The file tree after programs were written to the directory `best`. -/
def afterWriting (programs : List Expr) (d : Disk) : Disk := ((Individual.write { id := "", programs } "best").run d).2

theorem afterWriting_run (programs : List Expr) (d : Disk)
    (h : ((Individual.write { id := "", programs } "best").run d).1 = .ok ()) :
    (Individual.write { id := "", programs } "best").run d = (.ok (), afterWriting programs d) := Prod.ext h rfl

def resting : Expr := .node .step [.leaf .noop]

/-- A directory in which the first program file is a link, and nothing else is. -/
def linkedBest : Disk :=
  ⟨[(Place.ofPath "best", .directory), (Place.ofPath "best/1.sexp", .link "(step (pickUp))".toUTF8)]⟩

end Forager.Breeding
