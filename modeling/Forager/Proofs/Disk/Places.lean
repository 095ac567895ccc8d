import Mathlib.Data.List.Basic
import Mathlib.Tactic.Common
import Forager.Disk.Path

/-!
# Paths and places

* `IsPlain name` : a name that stands for itself in a path;
* `Place.child p name` : what has the name in the directory at `p`;
* `Place.Normal p` : following the names of `p` from where paths begin leads to `p`;
* `ofPath_clean` : cleaning a path does not change where it leads;
* `ofPath_join` : a joined path leads on from where the first path leads.
-/

namespace Forager.Disk

set_option autoImplicit false

/-! ## Names -/

/-- A name that stands for itself in a path. -/
def IsPlain (name : String) : Prop := name ≠ "" ∧ name ≠ "." ∧ name ≠ ".." ∧ '/' ∉ name.toList

instance (name : String) : Decidable (IsPlain name) := inferInstanceAs (Decidable (_ ∧ _))

theorem splitSlash_ne_nil (cs : List Char) : splitSlash cs ≠ [] := by
  cases cs with
  | nil => simp [splitSlash]
  | cons c cs =>
    rw [splitSlash]
    split
    · split <;> simp
    · simp

theorem splitSlash_append (as bs : List Char) : splitSlash (as ++ '/' :: bs) = splitSlash as ++ splitSlash bs := by
  induction as with
  | nil =>
    obtain ⟨part, more, h⟩ := List.exists_cons_of_ne_nil (splitSlash_ne_nil bs)
    simp [splitSlash, h]
  | cons c as ih =>
    obtain ⟨part, more, h⟩ := List.exists_cons_of_ne_nil (splitSlash_ne_nil as)
    rw [List.cons_append, splitSlash, splitSlash, ih, h, List.cons_append]
    dsimp only
    split <;> rfl

theorem splitSlash_of_not_mem {cs : List Char} (h : '/' ∉ cs) : splitSlash cs = [cs] := by
  induction cs with
  | nil => rfl
  | cons c cs ih =>
    rw [List.mem_cons, not_or] at h
    rw [splitSlash, ih h.2]
    dsimp only
    rw [if_neg (Ne.symm h.1)]

theorem splitSlash_mem {cs part : List Char} (h : part ∈ splitSlash cs) : '/' ∉ part := by
  induction cs generalizing part with
  | nil =>
    rw [splitSlash, List.mem_singleton] at h
    simp [h]
  | cons c cs ih =>
    obtain ⟨first, more, hsplit⟩ := List.exists_cons_of_ne_nil (splitSlash_ne_nil cs)
    rw [hsplit] at ih
    rw [splitSlash, hsplit] at h
    dsimp only at h
    split at h
    · rcases List.mem_cons.mp h with rfl | h
      · simp
      · exact ih h
    · rename_i hc
      rcases List.mem_cons.mp h with rfl | h
      · rw [List.mem_cons, not_or]
        exact ⟨Ne.symm hc, ih List.mem_cons_self⟩
      · exact ih (List.mem_cons_of_mem first h)

theorem splitSlash_intercalate {parts : List (List Char)} (hne : parts ≠ []) (h : ∀ part ∈ parts, '/' ∉ part) :
    splitSlash (List.intercalate ['/'] parts) = parts := by
  induction parts with
  | nil => exact absurd rfl hne
  | cons part parts ih =>
    obtain ⟨hpart, hparts⟩ := List.forall_mem_cons.mp h
    cases parts with
    | nil => simpa [List.intercalate] using splitSlash_of_not_mem hpart
    | cons next parts =>
      have hcons : List.intercalate ['/'] (part :: next :: parts) =
          part ++ '/' :: List.intercalate ['/'] (next :: parts) := by
        simp [List.intercalate]
      rw [hcons, splitSlash_append, splitSlash_of_not_mem hpart, ih (by simp) hparts]
      rfl

theorem namesOf_append (a b : String) : namesOf (a ++ "/" ++ b) = namesOf a ++ namesOf b := by
  have hlist : (a ++ "/" ++ b).toList = a.toList ++ '/' :: b.toList := by simp
  rw [namesOf, hlist, splitSlash_append, List.map_append]
  rfl

theorem namesOf_plain {name : String} (h : IsPlain name) : namesOf name = [name] := by
  rw [namesOf, splitSlash_of_not_mem h.2.2.2]
  simp

theorem namesOf_intercalate {names : List String} (hne : names ≠ []) (h : ∀ name ∈ names, '/' ∉ name.toList) :
    namesOf (String.intercalate "/" names) = names := by
  have hparts : ∀ part ∈ names.map String.toList, '/' ∉ part := by simpa using h
  rw [namesOf, String.toList_intercalate]
  change (splitSlash (List.intercalate ['/'] _)).map _ = _
  rw [splitSlash_intercalate (by simpa using hne) hparts]
  simp

/-! ## Places -/

namespace Place

/-- What has the name in the directory at the place. -/
def child (p : Place) (name : String) : Place := { p with names := name :: p.names }

theorem child_inj {p q : Place} {name other : String} : p.child name = q.child other ↔ p = q ∧ name = other := by
  obtain ⟨rooted, names⟩ := p
  obtain ⟨rooted', names'⟩ := q
  simp only [child, Place.mk.injEq, List.cons.injEq]
  tauto

theorem follow_plain (p : Place) {name : String} (h : IsPlain name) : p.follow name = p.child name := by
  simp [follow, child, h.1, h.2.1, h.2.2.1]

/-- A place whose names are names, and which they lead to from where paths begin. -/
structure Normal (p : Place) : Prop where
  names : ∀ name ∈ p.names, (name ≠ "" ∧ name ≠ ".") ∧ '/' ∉ name.toList
  reached : p.names.reverse.foldl follow ⟨p.rooted, []⟩ = p

theorem Normal.empty (rooted : Bool) : Normal ⟨rooted, []⟩ := ⟨by simp, rfl⟩

theorem Normal.follow {p : Place} (hp : Normal p) {name : String} (hname : '/' ∉ name.toList) :
    Normal (p.follow name) := by
  obtain ⟨rooted, names⟩ := p
  obtain ⟨hnames, hreached⟩ := hp
  dsimp only at hnames hreached
  by_cases hskip : name = "" ∨ name = "."
  · have hsame : Place.follow ⟨rooted, names⟩ name = ⟨rooted, names⟩ := by simp [Place.follow, hskip]
    rw [hsame]
    exact ⟨hnames, hreached⟩
  -- A name that is added, whether it stands for itself or leads up from outside.
  have hpush : Place.follow ⟨rooted, names⟩ name = ⟨rooted, name :: names⟩ →
      Normal (Place.follow ⟨rooted, names⟩ name) := by
    intro hfollow
    rw [hfollow]
    refine ⟨List.forall_mem_cons.mpr ⟨⟨not_or.mp hskip, hname⟩, hnames⟩, ?_⟩
    rw [List.reverse_cons, List.foldl_append, hreached]
    exact hfollow
  by_cases hup : name = ".."
  · subst hup
    cases names with
    | nil =>
      cases rooted with
      | true => exact ⟨hnames, hreached⟩
      | false => exact hpush rfl
    | cons top above =>
      by_cases htop : top = ".."
      · exact hpush (by simp [Place.follow, htop])
      · have hfollow : Place.follow ⟨rooted, top :: above⟩ ".." = ⟨rooted, above⟩ := by simp [Place.follow, htop]
        rw [hfollow]
        obtain ⟨htopname, habove⟩ := List.forall_mem_cons.mp hnames
        refine ⟨habove, ?_⟩
        rw [List.reverse_cons, List.foldl_append, List.foldl_cons, List.foldl_nil] at hreached
        dsimp only
        generalize List.foldl Place.follow ⟨rooted, []⟩ above.reverse = q at hreached ⊢
        rw [follow_plain q ⟨htopname.1.1, htopname.1.2, htop, htopname.2⟩] at hreached
        have hchild : q.child top = Place.child ⟨rooted, above⟩ top := hreached
        exact (child_inj.mp hchild).1
  · exact hpush (by simp [Place.follow, hskip, hup])

theorem Normal.foldl {p : Place} (hp : Normal p) {names : List String} (h : ∀ name ∈ names, '/' ∉ name.toList) :
    Normal (names.foldl Place.follow p) := by
  induction names generalizing p with
  | nil => exact hp
  | cons name names ih =>
    obtain ⟨hname, hnames⟩ := List.forall_mem_cons.mp h
    exact ih (hp.follow hname) hnames

/-- Paths lead to normal places. -/
theorem normal_ofPath (path : String) : Normal (ofPath path) := by
  refine (Normal.empty _).foldl fun name hname => ?_
  obtain ⟨part, hpart, rfl⟩ := List.mem_map.mp hname
  rw [String.toList_ofList]
  exact splitSlash_mem hpart

theorem isRooted_intercalate {first : String} (rest : List String) (hne : first ≠ "") (h : '/' ∉ first.toList) :
    isRooted (String.intercalate "/" (first :: rest)) = false := by
  obtain ⟨c, cs, hfirst⟩ := List.exists_cons_of_ne_nil fun hnil => hne (String.toList_eq_nil_iff.mp hnil)
  have hhead : (String.intercalate "/" (first :: rest)).toList.head? = some c := by
    rw [String.toList_intercalate]
    cases rest <;> simp [List.intercalate, hfirst]
  rw [hfirst, List.mem_cons, not_or] at h
  rw [isRooted, hhead]
  simpa using Ne.symm h.1

theorem Normal.isRooted_path {p : Place} (hp : Normal p) : isRooted p.path = p.rooted := by
  obtain ⟨rooted, names⟩ := p
  obtain ⟨hnames, -⟩ := hp
  cases rooted with
  | true => simp [path, isRooted]
  | false =>
    by_cases hne : names = []
    · subst hne
      rfl
    · obtain ⟨first, rest, hfirst⟩ := List.exists_cons_of_ne_nil (mt List.reverse_eq_nil_iff.mp hne)
      have hmem : first ∈ names := List.mem_reverse.mp (hfirst ▸ List.mem_cons_self)
      have hpath : path ⟨false, names⟩ = String.intercalate "/" (first :: rest) := by simp [path, hne, hfirst]
      rw [hpath]
      exact isRooted_intercalate rest (hnames first hmem).1.1 (hnames first hmem).2

theorem Normal.namesOf_path {p : Place} (hp : Normal p) (hne : p.names ≠ []) :
    namesOf p.path = (if p.rooted then [""] else []) ++ p.names.reverse := by
  obtain ⟨rooted, names⟩ := p
  have hbody : namesOf (String.intercalate "/" names.reverse) = names.reverse :=
    namesOf_intercalate (by simpa using hne) fun name hname => (hp.names name (List.mem_reverse.mp hname)).2
  cases rooted with
  | true =>
    have hpath : path ⟨true, names⟩ = "" ++ "/" ++ String.intercalate "/" names.reverse := rfl
    rw [hpath, namesOf_append, hbody]
    rfl
  | false =>
    have hpath : path ⟨false, names⟩ = String.intercalate "/" names.reverse := by
      simpa [path] using fun h => absurd h hne
    rw [hpath, hbody]
    rfl

/-- The path of a normal place leads there. -/
theorem Normal.ofPath_path {p : Place} (hp : Normal p) : ofPath p.path = p := by
  rw [ofPath, start, hp.isRooted_path]
  by_cases hne : p.names = []
  · obtain ⟨rooted, names⟩ := p
    subst hne
    cases rooted <;> rfl
  · rw [hp.namesOf_path hne, List.foldl_append]
    have hroot : List.foldl Place.follow ⟨p.rooted, []⟩ (if p.rooted then [""] else []) = ⟨p.rooted, []⟩ := by
      split <;> rfl
    rw [hroot]
    exact hp.reached

end Place

theorem path_ne_empty {p : Place} (hp : p.Normal) : p.path ≠ "" := by
  intro h
  have hempty := hp.ofPath_path
  rw [h] at hempty
  subst hempty
  exact absurd h (by decide)

/-- **Cleaning** a path does not change where it leads. -/
theorem ofPath_clean (path : String) : Place.ofPath (clean path) = Place.ofPath path :=
  (Place.normal_ofPath path).ofPath_path

theorem join_eq_clean {path name : String} (hpath : path ≠ "") (hname : name ≠ "") :
    join path name = clean (path ++ "/" ++ name) := by
  rw [join, if_neg hpath, if_neg hname]

theorem isRooted_append {path : String} (hpath : path ≠ "") (name : String) :
    isRooted (path ++ "/" ++ name) = isRooted path := by
  obtain ⟨c, cs, hcs⟩ := List.exists_cons_of_ne_nil fun hnil => hpath (String.toList_eq_nil_iff.mp hnil)
  simp [isRooted, hcs]

/-- **Joined paths** lead on from where the first path leads. -/
theorem ofPath_join {path name : String} (hpath : path ≠ "") (hname : name ≠ "") :
    Place.ofPath (join path name) = (namesOf name).foldl Place.follow (Place.ofPath path) := by
  rw [join_eq_clean hpath hname, ofPath_clean, Place.ofPath, namesOf_append, List.foldl_append, Place.start,
    isRooted_append hpath]
  rfl

theorem ofPath_join_plain {path name : String} (hpath : path ≠ "") (hname : IsPlain name) :
    Place.ofPath (join path name) = (Place.ofPath path).child name := by
  rw [ofPath_join hpath hname.1, namesOf_plain hname]
  exact Place.follow_plain _ hname

theorem join_ne_empty (path : String) {name : String} (hname : name ≠ "") : join path name ≠ "" := by
  unfold join
  rw [if_neg hname, if_neg hname]
  split
  · exact path_ne_empty (Place.normal_ofPath _)
  · exact path_ne_empty (Place.normal_ofPath _)

/-- Joined paths are clean. -/
theorem path_ofPath_join (path : String) {name : String} (hname : name ≠ "") :
    (Place.ofPath (join path name)).path = join path name := by
  unfold join
  rw [if_neg hname, if_neg hname]
  split
  · rw [ofPath_clean, clean]
  · rw [ofPath_clean, clean]

/-- Joined paths depend on where the first path leads, not on how it is written. -/
theorem join_congr {path other name : String} (hpath : path ≠ "") (hother : other ≠ "") (hname : name ≠ "")
    (h : Place.ofPath path = Place.ofPath other) : join path name = join other name := by
  have hplace : Place.ofPath (join path name) = Place.ofPath (join other name) := by
    rw [ofPath_join hpath hname, ofPath_join hother hname, h]
  rw [join_eq_clean hpath hname, join_eq_clean hother hname] at hplace ⊢
  rw [ofPath_clean, ofPath_clean] at hplace
  exact congrArg Place.path hplace

end Forager.Disk
