import Forager.Proofs.Disk.Places

/-!
# On the way to a place

* `Place.Above p q` : `p` is `q` or on the way there; `Normal.parent` : what is on the way to a normal place is normal;
* `stages_path` : the stages of the path of a place are the paths of all that is on the way there;
* `mem_stages` : the stages of any path are where it can be cut at a slash.
-/

namespace Forager.Disk

set_option autoImplicit false

namespace Place

/-- The first place is the second or on the way there. -/
def Above (p q : Place) : Prop := p.rooted = q.rooted ∧ p.names <:+ q.names

instance (p q : Place) : Decidable (Above p q) := inferInstanceAs (Decidable (_ ∧ _))

theorem above_self (p : Place) : Above p p := ⟨rfl, List.suffix_refl _⟩

theorem Above.trans {p q r : Place} (h : p.Above q) (h' : q.Above r) : p.Above r :=
  ⟨h.1.trans h'.1, h.2.trans h'.2⟩

theorem above_child {p q : Place} {name : String} : p.Above (q.child name) ↔ p.Above q ∨ p = q.child name := by
  obtain ⟨rooted, names⟩ := p
  obtain ⟨rooted', names'⟩ := q
  simp only [Above, child, List.suffix_cons_iff, mk.injEq]
  tauto

theorem above_self_child (p : Place) (name : String) : p.Above (p.child name) := above_child.mpr (.inl p.above_self)

theorem Above.length_le {p q : Place} (h : p.Above q) : p.names.length ≤ q.names.length := h.2.length_le

theorem eq_of_above_nil {p : Place} {rooted : Bool} (h : p.Above ⟨rooted, []⟩) : p = ⟨rooted, []⟩ := by
  obtain ⟨rooted', names⟩ := p
  obtain ⟨hrooted, hnames⟩ := h
  rw [Place.mk.injEq]
  exact ⟨hrooted, List.suffix_nil.mp hnames⟩

theorem length_foldl_follow (p : Place) (names : List String) :
    (names.foldl Place.follow p).names.length ≤ p.names.length + names.length := by
  induction names generalizing p with
  | nil => simp
  | cons name names ih =>
    have hstep : (p.follow name).names.length ≤ p.names.length + 1 := by
      unfold follow
      grind
    have := ih (p.follow name)
    simp only [List.foldl_cons, List.length_cons]
    omega

/-- What is on the way to a normal place is normal. -/
theorem Normal.parent {p : Place} {name : String} (h : Normal (p.child name)) :
    Normal p ∧ p.follow name = p.child name := by
  obtain ⟨rooted, names⟩ := p
  obtain ⟨hnames, hreached⟩ := h
  obtain ⟨hname, hnames⟩ := List.forall_mem_cons.mp hnames
  have hlength := length_foldl_follow ⟨rooted, []⟩ names.reverse
  simp only [child, List.reverse_cons, List.foldl_append, List.foldl_cons, List.foldl_nil] at hreached
  suffices hq : names.reverse.foldl Place.follow ⟨rooted, []⟩ = ⟨rooted, names⟩ from
    ⟨⟨hnames, hq⟩, by rwa [hq] at hreached⟩
  generalize names.reverse.foldl Place.follow ⟨rooted, []⟩ = q at hlength hreached
  by_cases hup : name = ".."
  · -- A name that leads up was added, since there are too few names to take one away.
    obtain ⟨rooted', names'⟩ := q
    subst hup
    unfold Place.follow at hreached
    grind
  · rw [follow_plain q ⟨hname.1.1, hname.1.2, hup, hname.2⟩] at hreached
    have hchild : q.child name = Place.child ⟨rooted, names⟩ name := hreached
    exact (child_inj.mp hchild).1

end Place

/-! ## The stages of a path -/

theorem intercalate_append {xs ys : List (List Char)} (hx : xs ≠ []) (hy : ys ≠ []) :
    List.intercalate ['/'] (xs ++ ys) = List.intercalate ['/'] xs ++ '/' :: List.intercalate ['/'] ys := by
  induction xs with
  | nil => exact absurd rfl hx
  | cons x xs ih =>
    cases xs with
    | nil =>
      obtain ⟨y, ys, rfl⟩ := List.exists_cons_of_ne_nil hy
      rw [List.singleton_append, List.intercalate_cons_cons]
      simp [List.intercalate]
    | cons next xs =>
      have hrest := ih (by simp)
      rw [List.cons_append] at hrest
      rw [List.cons_append, List.cons_append, List.intercalate_cons_cons, hrest, List.intercalate_cons_cons]
      simp

theorem intercalate_splitSlash (cs : List Char) : List.intercalate ['/'] (splitSlash cs) = cs := by
  induction cs with
  | nil => rfl
  | cons c cs ih =>
    obtain ⟨part, more, h⟩ := List.exists_cons_of_ne_nil (splitSlash_ne_nil cs)
    rw [h] at ih
    rw [splitSlash, h]
    dsimp only
    split
    · rename_i hc
      rw [List.intercalate_cons_cons, ih, hc]
      rfl
    · cases more with
      | nil => simpa [List.intercalate] using ih
      | cons next more =>
        rw [List.intercalate_cons_cons] at ih ⊢
        rw [← ih]
        rfl

/-- The texts of the first parts in turn. -/
def heads (parts : List (List Char)) : List String :=
  (((List.range parts.length).map fun i => parts.take (i + 1)).map fun head =>
    String.ofList (head.intersperse ['/']).flatten).filter (· ≠ "")

theorem stages_eq (path : String) :
    stages path = heads (splitSlash (path.toList.reverse.dropWhile (· == '/')).reverse) := rfl

theorem heads_concat (parts : List (List Char)) (part : List Char) :
    heads (parts ++ [part]) =
      heads parts ++ [String.ofList (List.intercalate ['/'] (parts ++ [part]))].filter (· ≠ "") := by
  have hfirst : (List.range parts.length).map (fun i => (parts ++ [part]).take (i + 1)) =
      (List.range parts.length).map fun i => parts.take (i + 1) := by
    refine List.map_congr_left fun i hi => List.take_append_of_le_length ?_
    have := List.mem_range.mp hi
    omega
  have hlast : (parts ++ [part]).take (parts.length + 1) = parts ++ [part] := List.take_of_length_le (by simp)
  unfold heads
  rw [List.length_append, List.length_singleton, List.range_succ, List.map_append, List.map_append, List.filter_append,
    hfirst, List.map_singleton, List.map_singleton, hlast]
  rfl

/-- The paths of the places on the way to a place, where the names lead from the beginning. -/
def ways (rooted : Bool) : List String → List String
  | [] => []
  | name :: above => ways rooted above ++ [Place.path ⟨rooted, name :: above⟩]

def partsOf (p : Place) : List (List Char) := (if p.rooted then [[]] else []) ++ p.names.reverse.map String.toList

theorem partsOf_cons (rooted : Bool) (name : String) (names : List String) :
    partsOf ⟨rooted, name :: names⟩ = partsOf ⟨rooted, names⟩ ++ [name.toList] := by
  simp [partsOf]

theorem ofList_partsOf {p : Place} (hne : p.names ≠ []) :
    String.ofList (List.intercalate ['/'] (partsOf p)) = p.path := by
  obtain ⟨rooted, names⟩ := p
  have hbody : String.ofList (List.intercalate ['/'] (names.reverse.map String.toList)) =
      String.intercalate "/" names.reverse := by
    rw [← String.toList_inj, String.toList_ofList, String.toList_intercalate]
    rfl
  cases rooted with
  | false =>
    have hpath : Place.path ⟨false, names⟩ = String.intercalate "/" names.reverse := by
      simpa [Place.path] using fun h => absurd h hne
    rw [hpath, ← hbody]
    rfl
  | true =>
    have hpath : Place.path ⟨true, names⟩ = "/" ++ String.intercalate "/" names.reverse := rfl
    rw [hpath, ← hbody, partsOf, if_pos rfl, intercalate_append (by simp) (by simpa using hne), ← String.toList_inj]
    simp [List.intercalate]

theorem heads_partsOf {p : Place} (hp : p.Normal) : heads (partsOf p) = ways p.rooted p.names := by
  obtain ⟨rooted, names⟩ := p
  induction names with
  | nil => cases rooted <;> rfl
  | cons name names ih =>
    have hfirst := ih (Place.Normal.parent (p := ⟨rooted, names⟩) hp).1
    rw [partsOf_cons, heads_concat, hfirst, ← partsOf_cons, ofList_partsOf (by simp), ways]
    simp [path_ne_empty hp]

/-- The path ends in the last name, so that no slash is taken away. -/
theorem trim_path {p : Place} (hp : p.Normal) (hne : p.names ≠ []) :
    (p.path.toList.reverse.dropWhile (· == '/')).reverse = p.path.toList := by
  obtain ⟨rooted, names⟩ := p
  obtain ⟨name, names, rfl⟩ := List.exists_cons_of_ne_nil hne
  obtain ⟨⟨hname, -⟩, hplain⟩ := hp.names name List.mem_cons_self
  obtain ⟨first, hfirst⟩ : ∃ first, (Place.path ⟨rooted, name :: names⟩).toList = first ++ name.toList := by
    rw [← ofList_partsOf hne, String.toList_ofList, partsOf_cons]
    by_cases hnil : partsOf ⟨rooted, names⟩ = []
    · exact ⟨[], by simp [hnil, List.intercalate]⟩
    · exact ⟨List.intercalate ['/'] (partsOf ⟨rooted, names⟩) ++ ['/'], by
        rw [intercalate_append hnil (by simp)]
        simp [List.intercalate]⟩
  obtain ⟨c, cs, hcs⟩ := List.exists_cons_of_ne_nil (l := name.toList.reverse) (by simpa using hname)
  have hc : c ≠ '/' := by
    rintro rfl
    exact hplain (List.mem_reverse.mp (hcs ▸ List.mem_cons_self))
  rw [List.reverse_eq_iff, hfirst, List.reverse_append, hcs, List.cons_append,
    List.dropWhile_cons_of_neg (by simpa using hc)]

/-- The stages of the path of a place are the paths of what is on the way there. -/
theorem stages_path {p : Place} (hp : p.Normal) (hne : p.names ≠ []) : stages p.path = ways p.rooted p.names := by
  have hslash : ∀ part ∈ partsOf p, '/' ∉ part := by
    intro part hpart
    rcases List.mem_append.mp hpart with h | h
    · split at h
      · rw [List.mem_singleton.mp h]
        simp
      · cases h
    · obtain ⟨name, hname, rfl⟩ := List.mem_map.mp h
      exact (hp.names name (List.mem_reverse.mp hname)).2
  rw [stages_eq, trim_path hp hne, ← ofList_partsOf hne, String.toList_ofList, splitSlash_intercalate ?_ hslash,
    heads_partsOf hp]
  simp [partsOf, hne]

theorem mem_heads {parts : List (List Char)} {s : String} (h : s ∈ heads parts) :
    s ≠ "" ∧ (s.toList = List.intercalate ['/'] parts ∨
      ∃ more, List.intercalate ['/'] parts = s.toList ++ '/' :: more) := by
  obtain ⟨h, hne⟩ := List.mem_filter.mp h
  refine ⟨by simpa using hne, ?_⟩
  obtain ⟨head, hhead, rfl⟩ := List.mem_map.mp h
  obtain ⟨i, hi, rfl⟩ := List.mem_map.mp hhead
  have hlength := List.mem_range.mp hi
  rw [String.toList_ofList]
  by_cases hrest : parts.drop (i + 1) = []
  · have hall : parts.take (i + 1) = parts := List.take_of_length_le (by simpa using hrest)
    rw [hall]
    exact .inl rfl
  · have hfirst : parts.take (i + 1) ≠ [] := by
      rw [ne_eq, List.take_eq_nil_iff, ← List.length_eq_zero_iff]
      omega
    have hsplit := intercalate_append hfirst hrest
    rw [List.take_append_drop] at hsplit
    exact .inr ⟨_, hsplit⟩

/-- Behind the trimmed path there are only slashes. -/
theorem exists_slashes (cs : List Char) :
    ∃ slashes, cs = (cs.reverse.dropWhile (· == '/')).reverse ++ slashes ∧ ∀ c ∈ slashes, c = '/' := by
  refine ⟨(cs.reverse.takeWhile (· == '/')).reverse, ?_, fun c hc => ?_⟩
  · rw [← List.reverse_append, List.takeWhile_append_dropWhile, List.reverse_reverse]
  · simpa using List.all_eq_true.mp List.all_takeWhile c (List.mem_reverse.mp hc)

/-- Every stage of a path is a beginning of the path up to a slash. -/
theorem mem_stages {path s : String} (h : s ∈ stages path) :
    s ≠ "" ∧ (s = path ∨ ∃ more, path = s ++ "/" ++ more) := by
  rw [stages_eq] at h
  obtain ⟨hne, hbegin⟩ := mem_heads h
  refine ⟨hne, ?_⟩
  rw [intercalate_splitSlash] at hbegin
  obtain ⟨slashes, hpath, hslashes⟩ := exists_slashes path.toList
  generalize (path.toList.reverse.dropWhile (· == '/')).reverse = trimmed at hpath hbegin
  rcases hbegin with rfl | ⟨more, rfl⟩
  · cases slashes with
    | nil => exact .inl (by rw [← String.toList_inj, hpath, List.append_nil])
    | cons c slashes =>
      have hc := hslashes c List.mem_cons_self
      exact .inr ⟨String.ofList slashes, by rw [← String.toList_inj, hpath, hc]; simp⟩
  · exact .inr ⟨String.ofList (more ++ slashes), by rw [← String.toList_inj, hpath]; simp⟩

/-- The last stage of a path is the trimmed path, if anything is left of it. -/
theorem stages_concat {path : String} {trimmed : List Char}
    (htrimmed : (path.toList.reverse.dropWhile (· == '/')).reverse = trimmed) (hne : trimmed ≠ []) :
    ∃ front, stages path = front ++ [String.ofList trimmed] := by
  obtain ⟨parts, part, hparts⟩ := List.eq_nil_or_concat (splitSlash trimmed) |>.resolve_left (splitSlash_ne_nil trimmed)
  have hjoin := intercalate_splitSlash trimmed
  rw [hparts, List.concat_eq_append] at hjoin
  refine ⟨heads parts, ?_⟩
  rw [stages_eq, htrimmed, hparts, List.concat_eq_append, heads_concat, hjoin]
  simp [hne]

theorem splitSlash_slashes {cs : List Char} (h : ∀ c ∈ cs, c = '/') : ∀ part ∈ splitSlash cs, part = [] := by
  induction cs with
  | nil => simp [splitSlash]
  | cons c cs ih =>
    obtain ⟨hc, hcs⟩ := List.forall_mem_cons.mp h
    obtain ⟨part, more, hsplit⟩ := List.exists_cons_of_ne_nil (splitSlash_ne_nil cs)
    have hrest := ih hcs
    rw [hsplit] at hrest
    rw [splitSlash, hsplit]
    simpa [hc] using hrest

theorem namesOf_slashes {s : String} (h : ∀ c ∈ s.toList, c = '/') : ∀ name ∈ namesOf s, name = "" := by
  intro name hname
  obtain ⟨part, hpart, rfl⟩ := List.mem_map.mp hname
  rw [splitSlash_slashes h part hpart, String.ofList_nil]

end Forager.Disk
