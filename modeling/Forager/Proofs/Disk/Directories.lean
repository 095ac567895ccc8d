import Forager.Proofs.Disk.Frame
import Forager.Proofs.Disk.Stages

/-!
# Directories

* `Reachable d p`, `Accessible d p` : all that is on the way to `p` is a directory, and so is `p` itself;
* `Grows D F d d'` : from `d` to `d'` directories were made at places in `D` and files were written at places in `F`;
* `writeFile_grows`, `copyFile_grows` : what is enough to write or copy a file;
* `mkdirAll_ok` : a directory that was made is there;
* `Clear d p` : no file is at `p` or on the way there; `mkdirAll_path` : then the directory can be made.
-/

namespace Forager.Disk

set_option autoImplicit false

/-- All that is on the way to the place is a directory. -/
def Reachable (d : Disk) (p : Place) : Prop := ∀ r, r.Above p → r ≠ p → d.at? r = some .directory

/-- The place is a directory, and so is all that is on the way there. -/
def Accessible (d : Disk) (p : Place) : Prop := ∀ r, r.Above p → d.at? r = some .directory

section

variable {d d' : Disk} {p q : Place}

theorem accessible_iff : Accessible d p ↔ Reachable d p ∧ d.at? p = some .directory := by
  refine ⟨fun h => ⟨fun r hr _ => h r hr, h p p.above_self⟩, fun h r hr => ?_⟩
  by_cases heq : r = p
  · rw [heq, h.2]
  · exact h.1 r hr heq

theorem reachable_child {name : String} : Reachable d (p.child name) ↔ Accessible d p := by
  constructor
  · intro h r hr
    refine h r (Place.above_child.mpr (.inl hr)) fun heq => ?_
    have hlength := hr.length_le
    rw [heq] at hlength
    exact absurd hlength (by simp [Place.child])
  · intro h r hr hne
    exact h r ((Place.above_child.mp hr).resolve_right hne)

theorem accessible_nil (d : Disk) (rooted : Bool) : Accessible d ⟨rooted, []⟩ := by
  intro r hr
  rw [Place.eq_of_above_nil hr]
  rfl

theorem reachable_nil (d : Disk) (rooted : Bool) : Reachable d ⟨rooted, []⟩ :=
  (accessible_iff.mp (accessible_nil d rooted)).1

theorem Accessible.extends {F : Place → Prop} (h : Accessible d p) (hextends : Extends F d d') : Accessible d' p :=
  fun r hr => hextends.directory r (h r hr)

/-- One name leads on from a directory. -/
theorem Accessible.reachable_follow (h : Accessible d p) (name : String) : Reachable d (p.follow name) := by
  have hpush : ∀ name, Reachable d (p.child name) := fun name => reachable_child.mpr h
  obtain ⟨rooted, names⟩ := p
  have hself := (accessible_iff.mp h).1
  unfold Place.follow
  split
  · exact hself
  · split
    · cases names with
      | nil =>
        dsimp only
        split
        · exact hself
        · exact hpush ".."
      | cons top above =>
        dsimp only
        split
        · exact hpush ".."
        · have hbelow : Reachable d (Place.child ⟨rooted, above⟩ top) := hself
          exact (accessible_iff.mp (reachable_child.mp hbelow)).1
    · exact hpush name

theorem at?_of_follow {name : String} {names : List String} (h : d.follow p (name :: names) = .ok q) :
    d.at? p = some .directory ∧ d.follow (p.follow name) names = .ok q := by
  rw [follow] at h
  cases hp : d.at? p with
  | none => simp [hp] at h
  | some entry =>
    cases entry with
    | file bytes => simp [hp] at h
    | directory =>
      rw [hp] at h
      exact ⟨rfl, h⟩

theorem reachable_of_follow {names : List String} (hp : Reachable d p) (h : d.follow p names = .ok q) :
    Reachable d q := by
  induction names generalizing p with
  | nil =>
    cases h
    exact hp
  | cons name names ih =>
    obtain ⟨hdirectory, hrest⟩ := at?_of_follow h
    exact ih ((accessible_iff.mpr ⟨hp, hdirectory⟩).reachable_follow name) hrest

/-- A path that leads somewhere leads there through directories. -/
theorem reachable_of_locate {path : String} (h : d.locate path = .ok p) : Reachable d p := by
  unfold locate at h
  split at h
  · cases h
  · exact reachable_of_follow (reachable_nil d _) h

theorem accessible_of_find {path : String} (h : d.find path = .ok .directory) : Accessible d (Place.ofPath path) :=
  accessible_iff.mpr ⟨reachable_of_locate (find_eq_ok.mp h).1, (find_eq_ok.mp h).2⟩

theorem Reachable.follow_names {rooted : Bool} {names : List String} (hp : Place.Normal ⟨rooted, names⟩)
    (h : Reachable d ⟨rooted, names⟩) : d.follow ⟨rooted, []⟩ names.reverse = .ok ⟨rooted, names⟩ := by
  induction names with
  | nil => rfl
  | cons name names ih =>
    obtain ⟨hparent, hfollow⟩ := Place.Normal.parent (p := ⟨rooted, names⟩) hp
    have hlast : Reachable d (Place.child ⟨rooted, names⟩ name) := h
    have habove := accessible_iff.mp (reachable_child.mp hlast)
    rw [List.reverse_cons, follow_append]
    refine ⟨⟨rooted, names⟩, ih hparent habove.1, ?_⟩
    rw [follow, habove.2]
    exact congrArg Except.ok hfollow

/-- The path of a place leads there through directories. -/
theorem Reachable.locate_path (hp : p.Normal) (h : Reachable d p) : d.locate p.path = .ok p := by
  unfold locate Place.start
  rw [if_neg (path_ne_empty hp), hp.isRooted_path]
  by_cases hne : p.names = []
  · obtain ⟨rooted, names⟩ := p
    obtain rfl : names = [] := hne
    cases rooted <;> rfl
  · rw [hp.namesOf_path hne, follow_append]
    refine ⟨⟨p.rooted, []⟩, ?_, h.follow_names hp⟩
    split <;> rfl

theorem Accessible.find_path (hp : p.Normal) (h : Accessible d p) : d.find p.path = .ok .directory := by
  obtain ⟨hreachable, hdirectory⟩ := accessible_iff.mp h
  exact find_eq_ok.mpr (by rw [hp.ofPath_path]; exact ⟨hreachable.locate_path hp, hdirectory⟩)

/-- What has a name in a directory can be reached exactly if the directory can. -/
theorem locate_join_iff {path name : String} (hpath : path ≠ "") (hname : IsPlain name) :
    d.locate (join path name) = .ok (Place.ofPath (join path name)) ↔ Accessible d (Place.ofPath path) := by
  have hchild : Accessible d (Place.ofPath path) ↔ Reachable d (Place.ofPath (join path name)) := by
    rw [ofPath_join_plain hpath hname, reachable_child]
  rw [hchild]
  refine ⟨reachable_of_locate, fun h => ?_⟩
  have hlocate := h.locate_path (Place.normal_ofPath _)
  rwa [path_ofPath_join path hname.1] at hlocate

end

theorem ne_empty_of_find {d : Disk} {path : String} {e : Entry} (h : d.find path = .ok e) : path ≠ "" := by
  rintro rfl
  cases h

/-- If a path leads to a directory, then so does each of its stages. -/
theorem find_stage {d : Disk} {path s : String} (h : d.find path = .ok .directory) (hs : s ∈ stages path) :
    d.find s = .ok .directory := by
  obtain ⟨hne, rfl | ⟨more, rfl⟩⟩ := mem_stages hs
  · exact h
  · have hrooted : isRooted (s ++ "/" ++ more) = isRooted s := isRooted_append hne more
    have hlocate := (find_eq_ok.mp h).1
    unfold locate Place.start at hlocate
    split at hlocate
    · cases hlocate
    rw [hrooted, namesOf_append, follow_append] at hlocate
    obtain ⟨q, hq, hrest⟩ := hlocate
    have hmore : namesOf more ≠ [] := by simpa [namesOf] using splitSlash_ne_nil _
    obtain ⟨name, names, hnames⟩ := List.exists_cons_of_ne_nil hmore
    rw [hnames] at hrest
    have hs : d.locate s = .ok q := by
      unfold locate Place.start
      rw [if_neg hne, hq]
    have hplace := locate_eq hs
    exact find_eq_ok.mpr ⟨hplace ▸ hs, hplace ▸ (at?_of_follow hrest).1⟩

/-! ## What operations add -/

/-- From `d` to `d'` directories were made at places in `D` where nothing was, files were written at places in `F`, and
all else is as it was. -/
def Grows (D F : Place → Prop) (d d' : Disk) : Prop :=
  ∀ p, d'.at? p = d.at? p ∨ (D p ∧ d.at? p = none ∧ d'.at? p = some .directory) ∨
    (F p ∧ d.at? p ≠ some .directory ∧ ∃ bytes, d'.at? p = some (.file bytes))

namespace Grows

variable {D D' F F' : Place → Prop} {d d' d'' : Disk}

theorem refl (D F : Place → Prop) (d : Disk) : Grows D F d d := fun _ => .inl rfl

theorem mono (h : Grows D F d d') (hD : ∀ p, D p → D' p) (hF : ∀ p, F p → F' p) : Grows D' F' d d' := fun p =>
  (h p).imp_right (Or.imp (And.imp_left (hD p)) (And.imp_left (hF p)))

theorem trans (h : Grows D F d d') (h' : Grows D F d' d'') : Grows D F d d'' := by
  intro p
  rcases h' p with hsame | ⟨hD, hnone, hmade⟩ | ⟨hF, hfile, hwritten⟩
  · rw [hsame]
    exact h p
  · rcases h p with hsame | ⟨-, -, hmade'⟩ | ⟨-, -, bytes, hwritten⟩
    · exact .inr (.inl ⟨hD, hsame ▸ hnone, hmade⟩)
    · rw [hmade'] at hnone
      cases hnone
    · rw [hwritten] at hnone
      cases hnone
  · rcases h p with hsame | ⟨-, -, hmade⟩ | ⟨-, hfile', -⟩
    · exact .inr (.inr ⟨hF, hsame ▸ hfile, hwritten⟩)
    · exact absurd hmade hfile
    · exact .inr (.inr ⟨hF, hfile', hwritten⟩)

theorem directory (h : Grows D F d d') {p : Place} (hp : d'.at? p = some .directory) :
    d.at? p = some .directory ∨ D p := by
  rcases h p with hsame | ⟨hD, -, -⟩ | ⟨-, -, bytes, hwritten⟩
  · exact .inl (hsame ▸ hp)
  · exact .inr hD
  · rw [hwritten] at hp
    cases hp

theorem file (h : Grows D F d d') {p : Place} {bytes : ByteArray} (hp : d'.at? p = some (.file bytes)) :
    d.at? p = some (.file bytes) ∨ F p := by
  rcases h p with hsame | ⟨-, -, hmade⟩ | ⟨hF, -, -⟩
  · exact .inl (hsame ▸ hp)
  · rw [hmade] at hp
    cases hp
  · exact .inr hF

theorem toExtends (h : Grows D F d d') : Extends F d d' := by
  refine ⟨fun p hp => ?_, fun p hF bytes => ⟨fun hp => (h.file hp).resolve_right hF, fun hp => ?_⟩⟩
  · rcases h p with hsame | ⟨-, hnone, -⟩ | ⟨-, hfile, -⟩
    · rw [hsame, hp]
    · rw [hp] at hnone
      cases hnone
    · exact absurd hp hfile
  · rcases h p with hsame | ⟨-, hnone, -⟩ | ⟨hwritten, -⟩
    · rw [hsame, hp]
    · rw [hp] at hnone
      cases hnone
    · exact absurd hwritten hF

/-- A file that can be read still can, though it may have been written again. -/
theorem readFile (h : Grows D F d d') {path : String} {bytes : ByteArray} (hread : d.readFile path = .ok bytes) :
    ∃ bytes', d'.readFile path = .ok bytes' := by
  obtain ⟨hlocate, hat⟩ := readFile_ok.mp hread
  rcases h (Place.ofPath path) with hsame | ⟨-, hnone, -⟩ | ⟨-, -, bytes', hwritten⟩
  · exact ⟨bytes, readFile_ok.mpr ⟨h.toExtends.locate hlocate, hsame.trans hat⟩⟩
  · rw [hat] at hnone
    cases hnone
  · exact ⟨bytes', readFile_ok.mpr ⟨h.toExtends.locate hlocate, hwritten⟩⟩

theorem put_file {p : Place} (hp : d.at? p ≠ some .directory) (bytes : ByteArray) :
    Grows (fun _ => False) (· = p) d (d.put p (.file bytes)) := by
  intro q
  by_cases hq : q = p
  · subst hq
    exact .inr (.inr ⟨rfl, hp, bytes, at?_put_self (isTop_of_at? hp) _⟩)
  · exact .inl (at?_put_ne hq _)

theorem put_directory {p : Place} (hp : d.at? p = none) : Grows (· = p) (fun _ => False) d (d.put p .directory) := by
  intro q
  by_cases hq : q = p
  · subst hq
    exact .inr (.inl ⟨rfl, hp, at?_put_self (isTop_of_none hp) _⟩)
  · exact .inl (at?_put_ne hq _)

end Grows

section

variable {d : Disk} {path : String}

theorem create_grows (hlocate : d.locate path = .ok (Place.ofPath path))
    (hfile : d.at? (Place.ofPath path) ≠ some .directory) :
    (create path).run d = (.ok (Place.ofPath path), d.put (Place.ofPath path) (.file .empty)) := by
  rw [create, run_get_bind, hlocate]
  dsimp only
  cases hat : d.at? (Place.ofPath path) with
  | none => rfl
  | some entry =>
    cases entry with
    | directory => exact absurd hat hfile
    | file bytes => rfl

/-- A file can be written where no directory is. -/
theorem writeFile_grows (hlocate : d.locate path = .ok (Place.ofPath path))
    (hfile : d.at? (Place.ofPath path) ≠ some .directory) (bytes : ByteArray) :
    ∃ d', (writeFile path bytes).run d = (.ok (), d') ∧ Grows (fun _ => False) (· = Place.ofPath path) d d' := by
  rw [writeFile, run_bind_of_ok (create_grows hlocate hfile)]
  refine ⟨_, rfl, (Grows.put_file hfile .empty).trans (.put_file ?_ bytes)⟩
  rw [at?_put_self (isTop_of_at? hfile)]
  simp

/-- A file can be copied to where no directory is, even onto itself. -/
theorem copyFile_grows {source : String} {bytes : ByteArray} (hsource : d.readFile source = .ok bytes)
    (hlocate : d.locate path = .ok (Place.ofPath path)) (hfile : d.at? (Place.ofPath path) ≠ some .directory) :
    ∃ d', (copyFile source path).run d = (.ok (), d') ∧ Grows (fun _ => False) (· = Place.ofPath path) d d' := by
  have hfind := find_eq_ok.mpr (readFile_ok.mp hsource)
  have hempty := Grows.put_file hfile .empty
  obtain ⟨bytes', hread⟩ := hempty.readFile hsource
  rw [copyFile, run_get_bind, hfind]
  dsimp only
  rw [run_bind_of_ok (create_grows hlocate hfile), run_get_bind, hread]
  refine ⟨_, rfl, hempty.trans (.put_file ?_ bytes')⟩
  rw [at?_put_self (isTop_of_at? hfile)]
  simp

theorem mkdirs_append (as bs : List String) : mkdirs (as ++ bs) = mkdirs as >>= fun _ => mkdirs bs := by
  induction as with
  | nil => rfl
  | cons s as ih =>
    rw [List.cons_append, mkdirs, mkdirs, bind_assoc]
    refine congrArg _ (funext fun d => ?_)
    cases d.locate s with
    | error reason => rfl
    | ok p =>
      dsimp only
      cases d.at? p with
      | none => rw [ih, bind_assoc]
      | some entry =>
        cases entry with
        | directory => exact ih
        | file bytes => rfl

theorem mkdirs_there {paths : List String} (h : ∀ s ∈ paths, d.find s = .ok .directory) :
    (mkdirs paths).run d = (.ok (), d) := by
  induction paths with
  | nil => rfl
  | cons s paths ih =>
    obtain ⟨hs, hpaths⟩ := List.forall_mem_cons.mp h
    obtain ⟨hlocate, hat⟩ := find_eq_ok.mp hs
    rw [mkdirs, run_get_bind, hlocate]
    dsimp only
    rw [hat]
    exact ih hpaths

/-- Nothing is made where a directory is. -/
theorem mkdirAll_there (h : d.find path = .ok .directory) : (mkdirAll path).run d = (.ok (), d) := by
  rw [mkdirAll, if_neg (ne_empty_of_find h)]
  exact mkdirs_there fun s hs => find_stage h hs

/-- Empty names lead nowhere else. -/
theorem follow_empty {p : Place} (hp : d.at? p = some .directory) {names : List String}
    (h : ∀ name ∈ names, name = "") :
    d.follow p names = .ok p := by
  induction names with
  | nil => rfl
  | cons name names ih =>
    obtain ⟨rfl, hnames⟩ := List.forall_mem_cons.mp h
    rw [follow, hp]
    exact ih hnames

theorem mkdirs_one_ok {d' : Disk} (h : (mkdirs [path]).run d = (.ok (), d')) : d'.find path = .ok .directory := by
  rw [mkdirs, run_get_bind] at h
  cases hp : d.locate path with
  | error reason =>
    rw [hp] at h
    cases h
  | ok p =>
    obtain rfl := locate_eq hp
    rw [hp] at h
    dsimp only at h
    cases hat : d.at? (Place.ofPath path) with
    | none =>
      rw [hat] at h
      cases h
      exact find_eq_ok.mpr
        ⟨(Grows.put_directory hat).toExtends.locate hp, at?_put_self (isTop_of_none hat) _⟩
    | some entry =>
      rw [hat] at h
      cases entry with
      | file bytes => cases h
      | directory =>
        cases h
        exact find_eq_ok.mpr ⟨hp, hat⟩

/-- A directory is where a path leads without the slashes at its end. -/
theorem find_append_slashes {s : String} {slashes : List Char} (hs : s ≠ "") (hslashes : ∀ c ∈ slashes, c = '/')
    (h : d.find s = .ok .directory) : d.find (s ++ String.ofList slashes) = .ok .directory := by
  cases slashes with
  | nil =>
    rw [String.ofList_nil, String.append_empty]
    exact h
  | cons c slashes =>
    obtain ⟨rfl, hmore⟩ := List.forall_mem_cons.mp hslashes
    have hpath : s ++ String.ofList ('/' :: slashes) = s ++ "/" ++ String.ofList slashes := by
      rw [← String.toList_inj]
      simp
    obtain ⟨hlocate, hat⟩ := find_eq_ok.mp h
    have hlong : d.locate (s ++ "/" ++ String.ofList slashes) = .ok (Place.ofPath s) := by
      unfold locate at hlocate ⊢
      rw [if_neg hs] at hlocate
      rw [if_neg (by simp [hs]), Place.start, isRooted_append hs, namesOf_append, follow_append]
      exact ⟨_, hlocate, follow_empty hat (namesOf_slashes (by simpa using hmore))⟩
    rw [hpath]
    have hplace := locate_eq hlong
    rw [hplace] at hlong hat
    exact find_eq_ok.mpr ⟨hlong, hat⟩

/-- A directory that was made is there. -/
theorem mkdirAll_ok {d' : Disk} (h : (mkdirAll path).run d = (.ok (), d')) : d'.find path = .ok .directory := by
  have hne : path ≠ "" := by
    rintro rfl
    cases h
  obtain ⟨slashes, hpath, hslashes⟩ := exists_slashes path.toList
  generalize htrimmed : (path.toList.reverse.dropWhile (· == '/')).reverse = trimmed at hpath
  by_cases hnil : trimmed = []
  · -- The path is made of slashes, and leads to where all paths with a root begin.
    rw [hnil, List.nil_append] at hpath
    have hroot : d'.at? (Place.start path) = some .directory := accessible_nil d' _ _ (Place.above_self _)
    have hlocate : d'.locate path = .ok (Place.start path) := by
      rw [locate, if_neg hne]
      refine follow_empty hroot (namesOf_slashes ?_)
      rwa [hpath]
    have hplace := locate_eq hlocate
    rw [hplace] at hlocate hroot
    exact find_eq_ok.mpr ⟨hlocate, hroot⟩
  · obtain ⟨front, hstages⟩ := stages_concat htrimmed hnil
    rw [mkdirAll, if_neg hne, hstages, mkdirs_append] at h
    obtain ⟨_, d₁, -, hlast⟩ := run_bind_ok h
    have hfind := find_append_slashes (by simpa using hnil) hslashes (mkdirs_one_ok hlast)
    rwa [← String.ofList_append, ← hpath, String.ofList_toList] at hfind

end

/-- No file is at the place or on the way there. -/
def Clear (d : Disk) (p : Place) : Prop := ∀ r, r.Above p → ∀ bytes, d.at? r ≠ some (.file bytes)

section

variable {d d' : Disk} {p : Place}

theorem Accessible.clear (h : Accessible d p) : Clear d p := by
  intro r hr bytes hat
  rw [h r hr] at hat
  cases hat

theorem clear_child {name : String} :
    Clear d (p.child name) ↔ Clear d p ∧ ∀ bytes, d.at? (p.child name) ≠ some (.file bytes) := by
  refine ⟨fun h => ⟨fun r hr => h r (Place.above_child.mpr (.inl hr)), h _ (Place.above_self _)⟩, fun h r hr => ?_⟩
  rcases Place.above_child.mp hr with hr | rfl
  · exact h.1 r hr
  · exact h.2

theorem follow_append_error {q : Place} {as bs : List String} {reason : Reason}
    (h : d.follow q (as ++ bs) = .error reason) :
    d.follow q as = .error reason ∨ ∃ r, d.follow q as = .ok r ∧ d.follow r bs = .error reason := by
  induction as generalizing q with
  | nil => exact .inr ⟨q, rfl, h⟩
  | cons name as ih =>
    rw [List.cons_append, follow] at h
    rw [follow]
    cases hq : d.at? q with
    | none =>
      rw [hq] at h
      exact .inl h
    | some entry =>
      rw [hq] at h
      cases entry with
      | file bytes => exact .inl h
      | directory => exact ih h

theorem Clear.follow_names {rooted : Bool} {names : List String} {reason : Reason} (hp : Place.Normal ⟨rooted, names⟩)
    (hclear : Clear d ⟨rooted, names⟩) (h : d.follow ⟨rooted, []⟩ names.reverse = .error reason) :
    reason = .missing := by
  induction names with
  | nil => cases h
  | cons name names ih =>
    let parent : Place := ⟨rooted, names⟩
    have hp : (parent.child name).Normal := hp
    have hclear := ((clear_child (p := parent)).mp hclear).1
    rw [List.reverse_cons] at h
    rcases follow_append_error h with habove | ⟨r, hr, hlast⟩
    · exact ih hp.parent.1 hclear habove
    · have hparent : r = parent := by rw [follow_eq hr, hp.parent.1.reached]
      subst hparent
      rw [follow] at hlast
      cases hat : d.at? parent with
      | none =>
        rw [hat] at hlast
        cases hlast
        rfl
      | some entry =>
        rw [hat] at hlast
        cases entry with
        | directory => cases hlast
        | file bytes => exact absurd hat (hclear parent parent.above_self bytes)

/-- Where nothing is and no file is in the way, nothing is found. -/
theorem Clear.find_path (hp : p.Normal) (hclear : Clear d p) (hnone : d.at? p = none) :
    d.find p.path = .error .missing := by
  have hne : p.names ≠ [] := by
    intro hnil
    have htop := isTop_of_none hnone
    rw [Place.isTop, hnil] at htop
    cases htop
  unfold find
  cases hlocate : d.locate p.path with
  | ok q =>
    rw [locate_eq hlocate, hp.ofPath_path]
    simp only [Bind.bind, Except.bind, hnone]
  | error reason =>
    unfold locate Place.start at hlocate
    rw [if_neg (path_ne_empty hp), hp.isRooted_path, hp.namesOf_path hne] at hlocate
    have hreason : reason = .missing := by
      rcases follow_append_error hlocate with hroot | ⟨q, hq, hrest⟩
      · split at hroot <;> cases hroot
      · have hstart : q = ⟨p.rooted, []⟩ := by
          rw [follow_eq hq]
          split <;> rfl
        rw [hstart] at hrest
        exact hclear.follow_names hp hrest
    rw [hreason]
    rfl

theorem mkdirs_ways {rooted : Bool} {names : List String} (hp : Place.Normal ⟨rooted, names⟩)
    (hclear : Clear d ⟨rooted, names⟩) :
    ∃ d', (mkdirs (ways rooted names)).run d = (.ok (), d') ∧ Accessible d' ⟨rooted, names⟩ ∧
      Grows (Place.Above · ⟨rooted, names⟩) (fun _ => False) d d' := by
  induction names with
  | nil => exact ⟨d, rfl, accessible_nil d rooted, .refl _ _ d⟩
  | cons name names ih =>
    let parent : Place := ⟨rooted, names⟩
    have hp : (parent.child name).Normal := hp
    obtain ⟨habove, hfile⟩ := (clear_child (p := parent)).mp hclear
    obtain ⟨d₁, hrun, haccessible, hgrows⟩ := ih hp.parent.1 habove
    have hgrows : Grows (Place.Above · (parent.child name)) (fun _ => False) d d₁ :=
      hgrows.mono (fun r hr => Place.above_child.mpr (.inl hr)) (fun _ => id)
    have hreachable : Reachable d₁ (parent.child name) := reachable_child.mpr haccessible
    have hways : ways rooted (name :: names) = ways rooted names ++ [(parent.child name).path] := rfl
    rw [hways, mkdirs_append, run_bind_of_ok hrun, mkdirs, run_get_bind, hreachable.locate_path hp]
    dsimp only
    cases hat : d₁.at? (parent.child name) with
    | none =>
      have hput := Grows.put_directory hat
      refine ⟨_, rfl, accessible_iff.mpr ⟨reachable_child.mpr (haccessible.extends hput.toExtends),
        at?_put_self (isTop_of_none hat) _⟩, hgrows.trans (hput.mono ?_ fun _ => id)⟩
      rintro r rfl
      exact Place.above_self _
    | some entry =>
      cases entry with
      | directory => exact ⟨d₁, rfl, accessible_iff.mpr ⟨hreachable, hat⟩, hgrows⟩
      | file bytes =>
        rcases hgrows.file hat with hbefore | hfalse
        · exact absurd hbefore (hfile bytes)
        · exact hfalse.elim

/-- The directory at a clean path can be made if no file is in the way. -/
theorem mkdirAll_path (hp : p.Normal) (hne : p.names ≠ []) (hclear : Clear d p) :
    ∃ d', (mkdirAll p.path).run d = (.ok (), d') ∧ Accessible d' p ∧
      Grows (Place.Above · p) (fun _ => False) d d' := by
  rw [mkdirAll, if_neg (path_ne_empty hp), stages_path hp hne]
  exact mkdirs_ways hp hclear

theorem clear_of_mkdirAll (hp : p.Normal) (hne : p.names ≠ []) (h : (mkdirAll p.path).run d = (.ok (), d')) :
    Clear d p := by
  have hextends := (touches_mkdirAll _).run h
  have hfind : d'.find p.path = .ok .directory := by
    rw [mkdirAll, if_neg (path_ne_empty hp), stages_path hp hne] at h
    obtain ⟨name, names, hnames⟩ := List.exists_cons_of_ne_nil hne
    have hways : ways p.rooted p.names = ways p.rooted names ++ [p.path] := by
      rw [hnames, ways, ← hnames]
    rw [hways, mkdirs_append] at h
    obtain ⟨_, d₁, -, hlast⟩ := run_bind_ok h
    exact mkdirs_one_ok hlast
  have haccessible := accessible_of_find hfind
  rw [hp.ofPath_path] at haccessible
  intro r hr bytes hat
  exact haccessible.clear r hr bytes ((hextends.file r id bytes).mpr hat)

end

end Forager.Disk
