import Mathlib.Data.List.Nodup
import Forager.Proofs.Disk.Directories

/-!
# What is in a directory

* `Stable I` : putting files and new directories where paths lead keeps `I`, so that the file operations do
  (`Stable.writeFile`, `Stable.mkdirAll`);
* `Proper d` : no place is held twice, and each is one that paths lead to;
* `Linked d p` : a link stands at the place, and stays there (`stable_linked`);
* `Proper.mem_list` : a directory lists what stands one name below it; `Proper.nodup_names` : each name once;
* `Proper.mem_list_file` : it lists as files those that are found there and are not linked;
* `Proper.readFile_join` : a listed file can be read by its name.
-/

namespace Forager.Disk

set_option autoImplicit false

/-! ## What the file operations keep -/

/-- Whether files, and directories where nothing is, can be put where paths lead without harm. -/
structure Stable (I : Disk → Prop) : Prop where
  file : ∀ {d : Disk} (path : String) (bytes : ByteArray), I d → I (d.put (Place.ofPath path) (.file bytes))
  directory : ∀ {d : Disk} (path : String), d.at? (Place.ofPath path) = none → I d →
    I (d.put (Place.ofPath path) .directory)

namespace Stable

variable {I : Disk → Prop} {d d' : Disk}

theorem writeFile (h : Stable I) (hd : I d) {path : String} {bytes : ByteArray} {r : Except FileError Unit}
    (hrun : (Disk.writeFile path bytes).run d = (r, d')) : I d' := by
  rw [Disk.writeFile, run_bind_eq] at hrun
  rcases create_run path d with ⟨e, hcreate⟩ | ⟨hcreate, -⟩
  · rw [hcreate] at hrun
    cases hrun
    exact hd
  · rw [hcreate] at hrun
    cases hrun
    exact h.file path bytes (h.file path .empty hd)

theorem mkdirs (h : Stable I) (hd : I d) {paths : List String} {r : Except FileError Unit}
    (hrun : (Disk.mkdirs paths).run d = (r, d')) : I d' := by
  induction paths generalizing d with
  | nil =>
    cases hrun
    exact hd
  | cons path paths ih =>
    rw [Disk.mkdirs, run_get_bind] at hrun
    cases hp : d.locate path with
    | error reason =>
      rw [hp] at hrun
      cases hrun
      exact hd
    | ok p =>
      obtain rfl := locate_eq hp
      rw [hp] at hrun
      dsimp only at hrun
      cases hat : d.at? (Place.ofPath path) with
      | none =>
        rw [hat] at hrun
        exact ih (h.directory path hat hd) hrun
      | some entry =>
        rw [hat] at hrun
        cases entry with
        | directory => exact ih hd hrun
        | file bytes =>
          cases hrun
          exact hd

theorem mkdirAll (h : Stable I) (hd : I d) {path : String} {r : Except FileError Unit}
    (hrun : (Disk.mkdirAll path).run d = (r, d')) : I d' := by
  unfold Disk.mkdirAll at hrun
  split at hrun
  · cases hrun
    exact hd
  · exact h.mkdirs hd hrun

end Stable

/-! ## Places -/

def places (d : Disk) : List Place := d.entries.map (·.1)

/-- No place is held twice, and each is one that paths lead to. -/
structure Proper (d : Disk) : Prop where
  distinct : d.places.Nodup
  normal : ∀ p ∈ d.places, p.Normal

theorem proper_empty : Proper .empty := ⟨List.nodup_nil, by simp [places, empty]⟩

theorem places_put (d : Disk) (p : Place) (e : Entry) :
    (d.put p e).places = if p ∈ d.places then d.places else d.places ++ [p] := by
  have hany : d.entries.any (·.1 == p) = true ↔ p ∈ d.places := by
    simp [places]
  by_cases hp : p ∈ d.places
  · rw [if_pos hp, places, put, if_pos (hany.mpr hp), List.map_map]
    refine List.map_congr_left fun x _ => ?_
    by_cases hx : x.1 = p <;> simp [hx]
  · rw [if_neg hp, places, put, if_neg (mt hany.mp hp), List.map_append]
    rfl

/-- With distinct places, an item is held exactly if it is looked up. -/
theorem mem_iff_lookup {items : List (Place × Item)} (h : (items.map (·.1)).Nodup) {p : Place} {x : Item} :
    (p, x) ∈ items ↔ items.lookup p = some x := by
  induction items with
  | nil => simp
  | cons first items ih =>
    obtain ⟨q, y⟩ := first
    obtain ⟨hq, hrest⟩ := List.nodup_cons.mp h
    by_cases heq : p = q
    · subst heq
      have hlater : (p, x) ∉ items := fun hmem => hq (List.mem_map.mpr ⟨_, hmem, rfl⟩)
      simp [hlater, eq_comm]
    · have hbeq : (p == q) = false := beq_false_of_ne heq
      rw [List.lookup_cons, hbeq, ← ih hrest]
      simp [heq]

namespace Proper

variable {d d' : Disk} {p : Place}

/-- The order in which a file tree holds its places does not matter. -/
theorem perm (h : Proper d) (hperm : d.entries.Perm d'.entries) : Proper d' := by
  have hplaces : d.places.Perm d'.places := hperm.map _
  exact ⟨hplaces.nodup_iff.mp h.distinct, fun p hp => h.normal p (hplaces.mem_iff.mpr hp)⟩

theorem at?_perm (h : Proper d) (hperm : d.entries.Perm d'.entries) (p : Place) : d.at? p = d'.at? p := by
  have hlookup : d.entries.lookup p = d'.entries.lookup p := by
    apply Option.ext
    intro x
    rw [← mem_iff_lookup h.distinct, ← mem_iff_lookup (h.perm hperm).distinct, hperm.mem_iff]
  unfold at?
  rw [hlookup]

theorem put (h : Proper d) (hp : p.Normal) (e : Entry) : Proper (d.put p e) := by
  by_cases hmem : p ∈ d.places
  · have hsame : (d.put p e).places = d.places := by rw [places_put, if_pos hmem]
    exact ⟨hsame ▸ h.distinct, hsame ▸ h.normal⟩
  · have hmore : (d.put p e).places = d.places ++ [p] := by rw [places_put, if_neg hmem]
    refine ⟨?_, ?_⟩
    · rw [hmore, ← List.concat_eq_append]
      exact h.distinct.concat hmem
    · rw [hmore]
      intro q hq
      rcases List.mem_append.mp hq with hq | hq
      · exact h.normal q hq
      · rw [List.mem_singleton.mp hq]
        exact hp

end Proper

theorem stable_proper : Stable Proper where
  file path _ h := h.put (Place.normal_ofPath path) _
  directory path _ h := h.put (Place.normal_ofPath path) _

/-! ## Links -/

/-- Whether a link stands at the place. -/
def Linked (d : Disk) (p : Place) : Prop := ∃ bytes, d.entries.lookup p = some (.link bytes)

theorem not_linked_empty (p : Place) : ¬Linked .empty p := by
  rintro ⟨bytes, hlookup⟩
  cases hlookup

theorem linked_put_file (d : Disk) (p q : Place) (bytes : ByteArray) :
    Linked (d.put p (.file bytes)) q ↔ Linked d q := by
  unfold Linked
  rw [lookup_put]
  by_cases hq : q = p
  · subst hq
    rw [if_pos rfl]
    cases d.entries.lookup q with
    | none => simp [Entry.item]
    | some x => cases x <;> simp [Item.replace, Entry.item]
  · rw [if_neg hq]

theorem linked_put_directory {d : Disk} {p : Place} (hp : d.at? p = none) (q : Place) :
    Linked (d.put p .directory) q ↔ Linked d q := by
  have hnone : d.entries.lookup p = none := by
    rw [at?, isTop_of_none hp] at hp
    simpa using hp
  unfold Linked
  rw [lookup_put]
  by_cases hq : q = p
  · subst hq
    simp [hnone, Entry.item]
  · rw [if_neg hq]

/-- Links stay where they are, and no others are made. -/
theorem stable_linked (d : Disk) : Stable fun d' => ∀ p, Linked d' p ↔ Linked d p where
  file _ bytes h p := (linked_put_file _ _ p bytes).trans (h p)
  directory _ hnone h p := (linked_put_directory hnone p).trans (h p)

/-! ## Directories -/

/-- An item by its name, if it is in the directory. -/
def listed (dir : Place) : Place × Item → Option (String × Item)
  | (⟨_, []⟩, _) => none
  | (⟨rooted, name :: above⟩, x) => if dir = ⟨rooted, above⟩ then some (name, x) else none

theorem listed_eq_some {dir : Place} {x : Place × Item} {y : String × Item} :
    listed dir x = some y ↔ x = (dir.child y.1, y.2) := by
  obtain ⟨⟨rooted, names⟩, item⟩ := x
  obtain ⟨name, item'⟩ := y
  cases names with
  | nil => simp [listed, Place.child]
  | cons top above =>
    by_cases hdir : dir = ⟨rooted, above⟩
    · simp [listed, Place.child, hdir]
    · have hne : ¬(rooted = dir.rooted ∧ above = dir.names) := fun h => hdir (by rw [h.1, h.2])
      simp only [listed, hdir, Place.child, Prod.mk.injEq, Place.mk.injEq, List.cons.injEq]
      tauto

theorem list_eq (d : Disk) (dir : Place) : d.list dir = d.entries.filterMap (listed dir) := by
  refine List.filterMap_congr fun x _ => ?_
  obtain ⟨⟨rooted, names⟩, item⟩ := x
  cases names <;> rfl

theorem mem_list {d : Disk} {p : Place} {name : String} {x : Item} :
    (name, x) ∈ d.list p ↔ (p.child name, x) ∈ d.entries := by
  rw [list_eq, List.mem_filterMap]
  refine ⟨fun ⟨y, hmem, hy⟩ => ?_, fun hmem => ⟨_, hmem, listed_eq_some.mpr rfl⟩⟩
  rwa [listed_eq_some.mp hy] at hmem

/-- Whether a name is not hidden, so that it does not begin with a dot. -/
def Visible (name : String) : Prop := name.toList.head? ≠ some '.'

instance (name : String) : Decidable (Visible name) := inferInstanceAs (Decidable (_ ≠ _))

theorem isTop_child {p : Place} {name : String} (h : Visible name) : (p.child name).isTop = false := by
  have hup : name ≠ ".." := by
    rintro rfl
    exact h rfl
  simp [Place.isTop, Place.child, hup]

namespace Proper

variable {d : Disk} {p : Place} {name : String}

/-- A directory lists what stands one name below it. -/
theorem mem_list (h : Proper d) {x : Item} : (name, x) ∈ d.list p ↔ d.entries.lookup (p.child name) = some x := by
  rw [Disk.mem_list, mem_iff_lookup h.distinct]

theorem linked_iff (h : Proper d) : Linked d (p.child name) ↔ ∃ bytes, (name, .link bytes) ∈ d.list p :=
  exists_congr fun _ => h.mem_list.symm

theorem mem_list_file (h : Proper d) (hname : Visible name) {bytes : ByteArray} :
    (name, .file bytes) ∈ d.list p ↔ d.at? (p.child name) = some (.file bytes) ∧ ¬Linked d (p.child name) := by
  rw [h.mem_list, at?, isTop_child hname]
  unfold Linked
  cases d.entries.lookup (p.child name) with
  | none => simp
  | some x => cases x <;> simp [Item.entry]

theorem nodup_names (h : Proper d) (p : Place) : ((d.list p).map (·.1)).Nodup := by
  rw [list_eq]
  refine List.pairwise_map.mpr (List.pairwise_filterMap.mpr ?_)
  refine (List.pairwise_map.mp h.distinct).imp fun {x x'} hne y hy y' hy' heq => hne ?_
  rw [listed_eq_some.mp hy, listed_eq_some.mp hy', heq]

/-- The names that a directory lists are names. -/
theorem isPlain (h : Proper d) (hname : Visible name) {x : Item} (hmem : (name, x) ∈ d.list p) : IsPlain name := by
  have hnormal := h.normal (p.child name) (List.mem_map_of_mem (Disk.mem_list.mp hmem))
  obtain ⟨⟨hne, hdot⟩, hslash⟩ := hnormal.names name List.mem_cons_self
  refine ⟨hne, hdot, ?_, hslash⟩
  rintro rfl
  exact hname rfl

/-- A file that a directory lists can be read by its name. -/
theorem readFile_join (h : Proper d) {dir : String} (hdir : d.find dir = .ok .directory) (hname : Visible name)
    {bytes : ByteArray} (hmem : (name, .file bytes) ∈ d.list (Place.ofPath dir)) :
    d.readFile (join dir name) = .ok bytes := by
  have hne := ne_empty_of_find hdir
  have hplain := h.isPlain hname hmem
  refine readFile_ok.mpr ⟨(locate_join_iff hne hplain).mpr (accessible_of_find hdir), ?_⟩
  rw [ofPath_join_plain hne hplain]
  exact ((h.mem_list_file hname).mp hmem).1

end Proper

end Forager.Disk
