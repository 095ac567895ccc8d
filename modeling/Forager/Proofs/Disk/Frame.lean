import Forager.Disk.Basic
import Forager.Proofs.Computation
import Forager.Proofs.Disk.Places

/-!
# What file operations leave alone

* `Extends F d d'` : from `d` to `d'` no directory went, and files appeared, went or changed only at places in `F`;
  `Extends.trans`, `Extends.mono`, `Extends.locate`;
* `Touches F x` : so does the computation `x`, whether it fails or not;
* `writeFile_ok`, `copyFile_ok` : what is there after an operation that succeeded.
-/

namespace Forager.Disk

set_option autoImplicit false

/-! ## Single places -/

@[simp] theorem entry_item (e : Entry) : e.item.entry = e := by cases e <;> rfl

@[simp] theorem entry_replace (e : Entry) (x : Item) : (x.replace e).entry = e := by
  cases x <;> cases e <;> rfl

theorem lookup_map {items : List (Place × Item)} (f : Item → Item) (p q : Place) :
    (items.map fun x => if x.1 == p then (p, f x.2) else x).lookup q =
      if q = p then (items.lookup p).map f else items.lookup q := by
  induction items with
  | nil => simp
  | cons x items ih =>
    obtain ⟨place, item⟩ := x
    rw [List.map_cons]
    by_cases hx : place = p
    · subst hx
      rw [if_pos (beq_self_eq_true place), List.lookup_cons, ih]
      by_cases hq : q = place
      · simp [hq]
      · simp [List.lookup_cons, beq_false_of_ne hq, hq]
    · rw [if_neg (by simpa using hx), List.lookup_cons, ih]
      by_cases hq : q = place
      · subst hq
        simp [hx]
      · simp [List.lookup_cons, beq_false_of_ne hq, beq_false_of_ne (Ne.symm hx)]

/-- What stands at a place after an entry was put somewhere. -/
theorem lookup_put (d : Disk) (p : Place) (e : Entry) (q : Place) :
    (d.put p e).entries.lookup q =
      if q = p then some ((d.entries.lookup p).elim e.item (·.replace e)) else d.entries.lookup q := by
  unfold put
  by_cases hany : d.entries.any (·.1 == p) = true
  · rw [if_pos hany, lookup_map]
    obtain ⟨x, hx, hplace⟩ := List.any_eq_true.mp hany
    have hsome : d.entries.lookup p ≠ none := by
      rw [ne_eq, List.lookup_eq_none_iff]
      intro hnone
      simpa [eq_of_beq hplace] using hnone x hx
    obtain ⟨item, hitem⟩ := Option.ne_none_iff_exists'.mp hsome
    rw [hitem]
    rfl
  · have hnone : d.entries.lookup p = none := by
      rw [List.lookup_eq_none_iff]
      intro x hx
      simp only [List.any_eq_true, not_exists, not_and, beq_iff_eq] at hany
      simpa using Ne.symm (hany x hx)
    rw [if_neg hany, List.lookup_append, hnone]
    by_cases hq : q = p
    · subst hq
      simp [hnone]
    · simp [List.lookup_cons, beq_false_of_ne hq, hq]

theorem at?_put (d : Disk) (p : Place) (e : Entry) (q : Place) :
    (d.put p e).at? q = if q.isTop then some .directory else if q = p then some e else d.at? q := by
  unfold at?
  by_cases htop : q.isTop = true
  · rw [if_pos htop, if_pos htop]
  · rw [if_neg htop, if_neg htop, if_neg htop, lookup_put]
    by_cases hq : q = p
    · rw [if_pos hq, if_pos hq]
      cases d.entries.lookup p <;> simp
    · rw [if_neg hq, if_neg hq]

theorem at?_put_self {d : Disk} {p : Place} (h : p.isTop = false) (e : Entry) : (d.put p e).at? p = some e := by
  rw [at?_put, h]
  simp

theorem isTop_of_at? {d : Disk} {p : Place} (h : d.at? p ≠ some .directory) : p.isTop = false := by
  by_contra htop
  exact h (if_pos (by simpa using htop))

theorem isTop_of_none {d : Disk} {p : Place} (h : d.at? p = none) : p.isTop = false := isTop_of_at? (by rw [h]; simp)

theorem at?_put_ne {d : Disk} {p q : Place} (h : q ≠ p) (e : Entry) : (d.put p e).at? q = d.at? q := by
  rw [at?_put, if_neg h]
  split
  · rename_i htop
    rw [at?, if_pos htop]
  · rfl

/-! ## Frames -/

/-- From `d` to `d'` no directory went, and outside `F` no file appeared, went or changed. -/
structure Extends (F : Place → Prop) (d d' : Disk) : Prop where
  directory : ∀ p, d.at? p = some .directory → d'.at? p = some .directory
  file : ∀ p, ¬F p → ∀ bytes, d'.at? p = some (.file bytes) ↔ d.at? p = some (.file bytes)

namespace Extends

variable {F G : Place → Prop} {d d' d'' : Disk}

theorem refl (F : Place → Prop) (d : Disk) : Extends F d d := ⟨fun _ h => h, fun _ _ _ => Iff.rfl⟩

theorem trans (h : Extends F d d') (h' : Extends F d' d'') : Extends F d d'' :=
  ⟨fun p hp => h'.directory p (h.directory p hp), fun p hp bytes => (h'.file p hp bytes).trans (h.file p hp bytes)⟩

theorem mono (h : Extends F d d') (hFG : ∀ p, F p → G p) : Extends G d d' :=
  ⟨h.directory, fun p hp => h.file p fun hF => hp (hFG p hF)⟩

theorem put_file {p : Place} (hp : d.at? p ≠ some .directory) (bytes : ByteArray) :
    Extends (· = p) d (d.put p (.file bytes)) := by
  refine ⟨fun q hq => ?_, fun q hq bytes' => ?_⟩
  · have hne : q ≠ p := fun h => hp (h ▸ hq)
    rwa [at?_put_ne hne]
  · rw [at?_put_ne hq]

theorem put_directory {p : Place} (hp : d.at? p = none) : Extends (fun _ => False) d (d.put p .directory) := by
  have htop := isTop_of_none hp
  refine ⟨fun q hq => ?_, fun q _ bytes => ?_⟩
  · by_cases h : q = p
    · rw [h, at?_put_self htop]
    · rwa [at?_put_ne h]
  · by_cases h : q = p
    · rw [h, at?_put_self htop, hp]
      simp
    · rw [at?_put_ne h]

/-- Paths lead to the same places as before. -/
theorem follow (h : Extends F d d') {p q : Place} {names : List String} (hq : d.follow p names = .ok q) :
    d'.follow p names = .ok q := by
  induction names generalizing p with
  | nil => exact hq
  | cons name names ih =>
    rw [Disk.follow] at hq ⊢
    cases hp : d.at? p with
    | none => simp [hp] at hq
    | some entry =>
      cases entry with
      | file bytes => simp [hp] at hq
      | directory =>
        rw [hp] at hq
        rw [h.directory p hp]
        exact ih hq

theorem locate (h : Extends F d d') {path : String} {p : Place} (hp : d.locate path = .ok p) :
    d'.locate path = .ok p := by
  unfold Disk.locate at hp ⊢
  split at hp
  · cases hp
  · rename_i hne
    rw [if_neg hne]
    exact h.follow hp

end Extends

theorem follow_eq {d : Disk} {p q : Place} {names : List String} (h : d.follow p names = .ok q) :
    q = names.foldl Place.follow p := by
  induction names generalizing p with
  | nil => exact (Except.ok.inj h).symm
  | cons name names ih =>
    rw [follow] at h
    cases hp : d.at? p with
    | none => simp [hp] at h
    | some entry =>
      cases entry with
      | file bytes => simp [hp] at h
      | directory =>
        rw [hp] at h
        exact ih h

theorem follow_append {d : Disk} {p r : Place} {as bs : List String} :
    d.follow p (as ++ bs) = .ok r ↔ ∃ q, d.follow p as = .ok q ∧ d.follow q bs = .ok r := by
  induction as generalizing p with
  | nil => simp [follow]
  | cons name as ih =>
    rw [List.cons_append, follow, follow]
    cases d.at? p with
    | none => simp
    | some entry =>
      cases entry with
      | file bytes => simp
      | directory => exact ih

/-- A path leads to its place, if it leads anywhere. -/
theorem locate_eq {d : Disk} {path : String} {p : Place} (h : d.locate path = .ok p) : p = Place.ofPath path := by
  unfold locate at h
  split at h
  · cases h
  · exact follow_eq h

theorem find_eq_ok {d : Disk} {path : String} {e : Entry} :
    d.find path = .ok e ↔ d.locate path = .ok (Place.ofPath path) ∧ d.at? (Place.ofPath path) = some e := by
  unfold find
  cases hp : d.locate path with
  | error reason => exact ⟨fun h => (by cases h), fun h => by cases h.1⟩
  | ok p =>
    obtain rfl := locate_eq hp
    simp only [Bind.bind, Except.bind]
    cases d.at? (Place.ofPath path) with
    | none => simp
    | some e' => simp

/-! ## Computations -/

/-- Whether a computation on files leaves alone all files outside `F` and all directories, even if it fails. -/
def Touches {ε α : Type} (F : Place → Prop) (x : ExceptT ε (StateM Disk) α) : Prop := ∀ d, Extends F d (x.run d).2

namespace Touches

variable {ε ε' α β : Type} {F G : Place → Prop}

theorem pure (a : α) : Touches F (Pure.pure a : ExceptT ε (StateM Disk) α) := fun d => .refl F d

theorem throw (e : ε) : Touches F (MonadExcept.throw e : ExceptT ε (StateM Disk) α) := fun d => .refl F d

theorem get : Touches F (MonadState.get : ExceptT ε (StateM Disk) Disk) := fun d => .refl F d

theorem bind {x : ExceptT ε (StateM Disk) α} {f : α → ExceptT ε (StateM Disk) β} (hx : Touches F x)
    (hf : ∀ a, Touches F (f a)) : Touches F (x >>= f) := by
  intro d
  have hd := hx d
  rw [run_bind_eq]
  rcases hr : x.run d with ⟨r, d'⟩
  rw [hr] at hd
  cases r with
  | ok a => exact hd.trans (hf a d')
  | error e => exact hd

theorem mono {x : ExceptT ε (StateM Disk) α} (h : Touches F x) (hFG : ∀ p, F p → G p) : Touches G x :=
  fun d => (h d).mono hFG

theorem run {x : ExceptT ε (StateM Disk) α} (h : Touches F x) {d d' : Disk} {r : Except ε α}
    (hr : x.run d = (r, d')) : Extends F d d' := by
  have hd := h d
  rwa [hr] at hd

theorem adapt {x : ExceptT ε (StateM Disk) α} (h : Touches F x) (wrap : ε → ε') : Touches F (x.adapt wrap) := h

end Touches

theorem adapt_ok {ε ε' σ α : Type} {x : ExceptT ε (StateM σ) α} {wrap : ε → ε'} {s s' : σ} {a : α}
    (h : (x.adapt wrap).run s = (.ok a, s')) : x.run s = (.ok a, s') := by
  change ((x.run s).1.mapError wrap, (x.run s).2) = (.ok a, s') at h
  rcases hr : x.run s with ⟨r, t⟩
  rw [hr] at h
  cases r with
  | ok b =>
    cases h
    rfl
  | error e => cases h

/-- Opening a file for writing makes it or empties it. -/
theorem create_run (path : String) (d : Disk) :
    (∃ e, (create path).run d = (.error e, d)) ∨
      (create path).run d = (.ok (Place.ofPath path), d.put (Place.ofPath path) (.file .empty)) ∧
        d.locate path = .ok (Place.ofPath path) ∧ d.at? (Place.ofPath path) ≠ some .directory := by
  rw [create, run_get_bind]
  cases hp : d.locate path with
  | error reason => exact .inl ⟨_, rfl⟩
  | ok p =>
    obtain rfl := locate_eq hp
    dsimp only
    cases he : d.at? (Place.ofPath path) with
    | none => exact .inr ⟨rfl, rfl, by simp⟩
    | some entry =>
      cases entry with
      | directory => exact .inl ⟨_, rfl⟩
      | file bytes => exact .inr ⟨rfl, rfl, by simp⟩

/-- Writing a file changes this file only. -/
theorem writeFile_run (path : String) (bytes : ByteArray) (d : Disk) :
    (∃ e, (writeFile path bytes).run d = (.error e, d)) ∨
      (∃ d', (writeFile path bytes).run d = (.ok (), d') ∧ Extends (· = Place.ofPath path) d d' ∧
        d'.at? (Place.ofPath path) = some (.file bytes)) ∧ d.locate path = .ok (Place.ofPath path) := by
  rw [writeFile, run_bind_eq]
  rcases create_run path d with ⟨e, hrun⟩ | ⟨hrun, hlocate, hne⟩
  · rw [hrun]
    exact .inl ⟨e, rfl⟩
  · rw [hrun]
    have htop := isTop_of_at? hne
    refine .inr ⟨⟨_, rfl, (Extends.put_file hne .empty).trans (.put_file ?_ bytes), at?_put_self htop _⟩, hlocate⟩
    rw [at?_put_self htop]
    simp

theorem touches_writeFile (path : String) (bytes : ByteArray) :
    Touches (· = Place.ofPath path) (writeFile path bytes) := by
  intro d
  rcases writeFile_run path bytes d with ⟨e, hrun⟩ | ⟨⟨d', hrun, hextends, -⟩, -⟩
  · rw [hrun]
    exact .refl _ d
  · rw [hrun]
    exact hextends

theorem writeFile_ok {path : String} {bytes : ByteArray} {d d' : Disk}
    (h : (writeFile path bytes).run d = (.ok (), d')) :
    d.locate path = .ok (Place.ofPath path) ∧ d'.at? (Place.ofPath path) = some (.file bytes) := by
  rcases writeFile_run path bytes d with ⟨e, hrun⟩ | ⟨⟨d₁, hrun, -, hat⟩, hlocate⟩
  · rw [hrun] at h
    cases h
  · rw [hrun] at h
    cases h
    exact ⟨hlocate, hat⟩

theorem touches_mkdirs (paths : List String) : Touches (fun _ => False) (mkdirs paths) := by
  induction paths with
  | nil => exact .pure ()
  | cons path paths ih =>
    intro d
    rw [mkdirs, run_get_bind]
    cases hp : d.locate path with
    | error reason => exact .refl _ d
    | ok p =>
      dsimp only
      cases he : d.at? p with
      | none => exact (Extends.put_directory he).trans (ih _)
      | some entry =>
        cases entry with
        | directory => exact ih d
        | file bytes => exact .refl _ d

theorem touches_mkdirAll (path : String) : Touches (fun _ => False) (mkdirAll path) := by
  unfold mkdirAll
  split
  · exact .throw _
  · exact touches_mkdirs _

theorem readFile_ok {d : Disk} {path : String} {bytes : ByteArray} :
    d.readFile path = .ok bytes ↔
      d.locate path = .ok (Place.ofPath path) ∧ d.at? (Place.ofPath path) = some (.file bytes) := by
  rw [← find_eq_ok]
  unfold readFile
  cases d.find path with
  | error reason => simp
  | ok e => cases e <;> simp

theorem Extends.readFile {F : Place → Prop} {d d' : Disk} {path : String} {bytes : ByteArray} (h : Extends F d d')
    (hF : ¬F (Place.ofPath path)) (hread : d.readFile path = .ok bytes) : d'.readFile path = .ok bytes := by
  obtain ⟨hlocate, hat⟩ := readFile_ok.mp hread
  exact readFile_ok.mpr ⟨h.locate hlocate, (h.file _ hF bytes).mpr hat⟩

/-- Copying reads the source after the destination was emptied. -/
theorem copyFile_run (source destination : String) (d : Disk) :
    (∃ e d', (copyFile source destination).run d = (.error e, d') ∧ Extends (· = Place.ofPath destination) d d') ∨
      ∃ bytes d', (copyFile source destination).run d = (.ok (), d') ∧ Extends (· = Place.ofPath destination) d d' ∧
        (d.put (Place.ofPath destination) (.file .empty)).at? (Place.ofPath source) = some (.file bytes) ∧
        d'.at? (Place.ofPath destination) = some (.file bytes) ∧ d.locate source = .ok (Place.ofPath source) ∧
        d.at? (Place.ofPath source) ≠ none ∧ d.at? (Place.ofPath destination) ≠ some .directory := by
  rw [copyFile, run_get_bind]
  cases hfind : d.find source with
  | error reason => exact .inl ⟨_, d, rfl, .refl _ d⟩
  | ok e =>
    dsimp only
    rw [run_bind_eq]
    rcases create_run destination d with ⟨e, hrun⟩ | ⟨hrun, hlocate, hne⟩
    · rw [hrun]
      exact .inl ⟨e, d, rfl, .refl _ d⟩
    · have htop := isTop_of_at? hne
      have hempty := Extends.put_file hne .empty
      rw [hrun]
      dsimp only
      rw [run_get_bind]
      cases hread : (d.put (Place.ofPath destination) (.file .empty)).readFile source with
      | error e => exact .inl ⟨e, _, rfl, hempty⟩
      | ok bytes =>
        obtain ⟨hsource, hthere⟩ := find_eq_ok.mp hfind
        refine .inr ⟨bytes, _, rfl, hempty.trans (.put_file ?_ bytes), (readFile_ok.mp hread).2, at?_put_self htop _,
          hsource, ?_, hne⟩
        · rw [at?_put_self htop]
          simp
        · rw [hthere]
          simp

end Forager.Disk
