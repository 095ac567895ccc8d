import Forager.Proofs.Archive.Upkeep
import Forager.Proofs.Timestamp.Order
import Forager.Session.Lookup

/-!
# The index of runs

* `Written base d runs d'` : runs were written into an artifacts directory one after the other;
* `listIndex_written` : if their ids are distinct, the index lists them all, sorted by the texts of their times;
* `Shadows a b` : `a` is listed before `b` though it is older, since its fraction of the second begins that of `b`;
* `newest_first_iff` : the newest run comes first exactly if no run shadows another.
-/

namespace Forager.Archive

set_option autoImplicit false

open Timestamp (Hides)

/-! ## Writing runs one after the other -/

theorem replaceEntry_new {entry : IndexEntry} {index : List IndexEntry} (h : ∀ e ∈ index, e.runId ≠ entry.runId) :
    replaceEntry entry index = index ++ [entry] := by
  induction index with
  | nil => rfl
  | cons e index ih =>
    obtain ⟨he, hindex⟩ := List.forall_mem_cons.mp h
    rw [replaceEntry, if_neg he, ih hindex, List.cons_append]

/-- Runs were written one after the other, each at its time; the runs are those with their creation times. -/
inductive Written (base : String) : Disk → List Artifacts → Disk → Prop where
  | nil (d : Disk) : Written base d [] d
  | cons {a : Artifacts} {now : Timestamp} {runs : List Artifacts} {path : String} {d d₁ d' : Disk}
      (first : (writeRun base a now).run d = (.ok path, d₁)) (rest : Written base d₁ runs d') :
      Written base d (a.dated now :: runs) d'

/-- The directory has no index yet. -/
def Unindexed (d : Disk) (base : String) : Prop :=
  readIndex d base = .ok [] ∧ ∀ bytes, d.at? (indexPlace base) ≠ some (.file bytes)

section

variable {base : String} {d d' : Disk} {runs : List Artifacts}

theorem Written.id_ne (h : Written base d runs d') : ∀ a ∈ runs, a.config.runId ≠ "" := by
  induction h with
  | nil d => simp
  | cons first rest ih => exact List.forall_mem_cons.mpr ⟨(recordRun_ok first).2.id_ne, ih⟩

/-- New runs are added at the end of the index. -/
theorem Written.readIndex (h : Written base d runs d') {index : List IndexEntry} (hindex : Indexed d base index)
    (hread : readIndex d base = .ok index) (hnodup : (index.map (·.runId) ++ runs.map (·.config.runId)).Nodup) :
    Archive.readIndex d' base = .ok (index ++ runs.map Artifacts.entry) := by
  induction h generalizing index with
  | nil d => simpa using hread
  | @cons a now runs path d d₁ d' first rest ih =>
    have hnew : ∀ e ∈ index, e.runId ≠ (a.dated now).entry.runId := by
      intro e he heq
      have hdisjoint := (List.nodup_append.mp hnodup).2.2 e.runId (List.mem_map_of_mem he) (a.dated now).config.runId
        (by simp)
      exact hdisjoint heq
    obtain ⟨hindex₁, hread₁⟩ := (recordRun_ok first).2.index hindex
    rw [replaceEntry_new hnew] at hindex₁ hread₁
    have hnext := ih hindex₁ hread₁ (by simpa [Artifacts.entry] using hnodup)
    rw [hnext, List.append_assoc]
    rfl

/-- The runs in the order of the index. -/
def listed (runs : List Artifacts) : List Artifacts :=
  runs.reverse.mergeSort fun a b => a.entry.newerOrSame b.entry

theorem listIndex_written (hstart : Unindexed d base) (h : Written base d runs d')
    (hdistinct : (runs.map (·.config.runId)).Nodup) : listIndex d' base = .ok ((listed runs).map Artifacts.entry) := by
  have hread := h.readIndex (.absent hstart.2) hstart.1 (by simpa using hdistinct)
  have hsort : (listed runs).map Artifacts.entry =
      (runs.map Artifacts.entry).reverse.mergeSort IndexEntry.newerOrSame := by
    rw [listed, ← List.map_reverse]
    exact List.map_mergeSort fun _ _ _ _ => rfl
  rw [listIndex, hread, hsort]
  rfl

end

/-! ## The order of the index -/

/-- Whether the run was made at a moment that is written with a year of four digits. -/
def Artifacts.Dated (a : Artifacts) : Prop :=
  a.createdAt.Valid ∧ 0 ≤ a.createdAt.utc.date.year ∧ a.createdAt.utc.date.year ≤ 9999

instance (a : Artifacts) : Decidable a.Dated := inferInstanceAs (Decidable (_ ∧ _ ∧ _))

theorem Artifacts.Dated.plain {a : Artifacts} (h : a.Dated) : a.createdAt.utc.Plain :=
  { toValid := Timestamp.utc_valid h.1, year_nonneg := h.2.1, year_le := h.2.2, offset := rfl }

/-- The run was made in the same second as another and before it, and its fraction has the first digits of the
other's. -/
def Shadows (a b : Artifacts) : Prop :=
  a.createdAt.seconds = b.createdAt.seconds ∧ Hides a.createdAt.nanos b.createdAt.nanos

instance (a b : Artifacts) : Decidable (Shadows a b) := inferInstanceAs (Decidable (_ ∧ _))

/-- The order of the index: by the second, and within the second by the fraction, but what shadows another goes first.
-/
def Leads (a b : Artifacts) : Prop :=
  b.createdAt.seconds < a.createdAt.seconds ∨
    b.createdAt.seconds = a.createdAt.seconds ∧ ¬Shadows b a ∧ (b.createdAt.nanos ≤ a.createdAt.nanos ∨ Shadows a b)

section

variable {a b : Artifacts}

theorem Shadows.instant_lt (ha : a.Dated) (hb : b.Dated) (h : Shadows a b) :
    a.createdAt.instant < b.createdAt.instant := by
  have := h.2.lt ha.1.nanos hb.1.nanos
  rw [Timestamp.instant_eq, Timestamp.instant_eq, h.1]
  omega

theorem newerOrSame_iff (ha : a.Dated) (hb : b.Dated) : a.entry.newerOrSame b.entry = true ↔ Leads a b := by
  have hlt := ha.plain.text_lt_iff hb.plain
  rw [Timestamp.seconds_utc ha.1, Timestamp.seconds_utc hb.1] at hlt
  change decide (Text.bytes b.createdAt.utc.text ≤ Text.bytes a.createdAt.utc.text) = true ↔ _
  rw [decide_eq_true_iff, ← List.not_lt, hlt]
  change ¬(_ ∨ _ ∧ (Hides b.createdAt.nanos a.createdAt.nanos ∨
    a.createdAt.nanos < b.createdAt.nanos ∧ ¬Hides a.createdAt.nanos b.createdAt.nanos)) ↔ _
  unfold Leads Shadows
  rcases lt_trichotomy a.createdAt.seconds b.createdAt.seconds with hs | hs | hs
  · exact iff_of_false (by simp [hs]) (by omega)
  · simp only [hs, lt_irrefl, false_or, true_and, not_or, not_and_or, not_not, not_lt]
  · exact iff_of_true (by omega) (.inl hs)

/-- Unless it shadows the other, what goes first is not older. -/
theorem Leads.instant_le (ha : a.Dated) (hb : b.Dated) (h : Leads a b) (hclear : ¬Shadows a b) :
    b.createdAt.instant ≤ a.createdAt.instant := by
  have := ha.1.nanos
  have := hb.1.nanos
  rw [Timestamp.instant_eq, Timestamp.instant_eq]
  rcases h with hlt | ⟨heq, -, hle | hshadows⟩
  · omega
  · omega
  · exact absurd hshadows hclear

end

theorem newerOrSame_trans (a b c : Artifacts) (hab : a.entry.newerOrSame b.entry = true)
    (hbc : b.entry.newerOrSame c.entry = true) : a.entry.newerOrSame c.entry = true := by
  simp only [IndexEntry.newerOrSame, decide_eq_true_eq] at *
  exact List.le_trans hbc hab

theorem newerOrSame_total (a b : Artifacts) :
    (a.entry.newerOrSame b.entry || b.entry.newerOrSame a.entry) = true := by
  simp only [IndexEntry.newerOrSame, Bool.or_eq_true, decide_eq_true_eq]
  exact List.le_total _ _

section

variable {runs : List Artifacts}

theorem listed_perm (runs : List Artifacts) : (listed runs).Perm runs :=
  (List.mergeSort_perm _ _).trans (List.reverse_perm runs)

theorem mem_listed {a : Artifacts} : a ∈ listed runs ↔ a ∈ runs := (listed_perm runs).mem_iff

theorem listed_pairwise (hdated : ∀ a ∈ runs, a.Dated) : (listed runs).Pairwise Leads := by
  refine (List.pairwise_mergeSort newerOrSame_trans newerOrSame_total runs.reverse).imp_of_mem fun {a b} ha hb h => ?_
  exact (newerOrSame_iff (hdated a (mem_listed.mp ha)) (hdated b (mem_listed.mp hb))).mp h

/-- Runs of the same moment are listed in reverse. -/
theorem listed_reverses (hdated : ∀ a ∈ runs, a.Dated) {a b : Artifacts} (h : [a, b].Sublist runs)
    (hsame : a.createdAt.instant = b.createdAt.instant) : [b, a].Sublist (listed runs) := by
  have ha := hdated a (h.subset (by simp))
  have hb := hdated b (h.subset (by simp))
  have hananos := ha.1.nanos
  have hbnanos := hb.1.nanos
  rw [Timestamp.instant_eq, Timestamp.instant_eq] at hsame
  refine List.pair_sublist_mergeSort newerOrSame_trans newerOrSame_total ((newerOrSame_iff hb ha).mpr (.inr ?_))
    h.reverse
  exact ⟨by omega, fun hshadows => hshadows.2.1 (by omega), .inl (by omega)⟩

/-- Where two runs are listed in the wrong order, one shadows the other. -/
theorem listed_newest_iff (hdated : ∀ a ∈ runs, a.Dated) :
    (listed runs).Pairwise (fun a b => b.createdAt.instant ≤ a.createdAt.instant) ↔
      ∀ a ∈ runs, ∀ b ∈ runs, ¬Shadows a b := by
  constructor
  · intro hsorted a ha b hb hshadows
    have hlt := hshadows.instant_lt (hdated a ha) (hdated b hb)
    have hne : a ≠ b := by
      rintro rfl
      exact lt_irrefl _ hlt
    -- One of them is listed before the other.
    let Listed (x y : Artifacts) : Prop := y.createdAt.instant ≤ x.createdAt.instant ∧ Leads x y
    have hsymm : Std.Symm fun x y => Listed x y ∨ Listed y x := ⟨fun _ _ => Or.symm⟩
    have hboth : (listed runs).Pairwise fun x y => Listed x y ∨ Listed y x :=
      (hsorted.and (listed_pairwise hdated)).imp fun h => .inl h
    rcases hboth.forall (mem_listed.mpr ha) (mem_listed.mpr hb) hne with ⟨hle, -⟩ | ⟨-, hleads⟩
    · omega
    · rcases hleads with hless | ⟨-, hclear, -⟩
      · exact absurd hshadows.1 (by omega)
      · exact hclear hshadows
  · intro hclear
    refine (listed_pairwise hdated).imp_of_mem fun {a b} ha hb h => ?_
    have ha := mem_listed.mp ha
    have hb := mem_listed.mp hb
    exact h.instant_le (hdated a ha) (hdated b hb) (hclear a ha b hb)

end

/-- Without an id, the first run that is listed is exported. -/
theorem exportRun_newest {s : Session} {newest : IndexEntry} {rest : List IndexEntry}
    (hlist : listIndex s.env.disk s.artifactsDir = .ok (newest :: rest)) (hid : newest.runId ≠ "") (out : String) :
    (Session.exportRun "" out).run s = (Session.exportRun newest.runId out).run s := by
  unfold Session.exportRun
  rw [run_get_bind, run_get_bind]
  by_cases hdir : s.artifactsDir = ""
  · rw [if_pos hdir, if_pos hdir]
    rfl
  · rw [if_neg hdir, if_neg hdir]
    dsimp only
    rw [if_pos hid, if_neg (not_not.mpr rfl), hlist]
    rfl

/-- **The order of the index.** After runs with distinct ids were written, all of them are listed once, and those of the
same moment in reverse. Whether newer runs come first depends on how their times are written: they do if and only if no
run shadows another. An export without an id takes the first run that is listed, and this is the newest one if and
only if it shadows no other. -/
theorem newest_first_iff {base : String} {d d' : Disk} {runs : List Artifacts} (hstart : Unindexed d base)
    (h : Written base d runs d') (hdistinct : (runs.map (·.config.runId)).Nodup) (hdated : ∀ a ∈ runs, a.Dated) :
    ∃ order : List Artifacts, listIndex d' base = .ok (order.map Artifacts.entry) ∧ order.Perm runs ∧
      order.Pairwise Leads ∧
      (∀ a b, [a, b].Sublist runs → a.createdAt.instant = b.createdAt.instant → [b, a].Sublist order) ∧
      (order.Pairwise (fun a b => b.createdAt.instant ≤ a.createdAt.instant) ↔
        ∀ a ∈ runs, ∀ b ∈ runs, ¬Shadows a b) ∧
      ∀ first rest, order = first :: rest →
        ((∀ a ∈ runs, a.createdAt.instant ≤ first.createdAt.instant) ↔ ∀ a ∈ runs, ¬Shadows first a) ∧
        ∀ (s : Session) (out : String), s.env.disk = d' → s.artifactsDir = base →
          (Session.exportRun "" out).run s = (Session.exportRun first.config.runId out).run s := by
  have hlist := listIndex_written hstart h hdistinct
  refine ⟨listed runs, hlist, listed_perm runs, listed_pairwise hdated, fun a b => listed_reverses hdated,
    listed_newest_iff hdated, fun first rest horder => ⟨⟨fun hnewest a ha hshadows => ?_, fun hclear a ha => ?_⟩, ?_⟩⟩
  · have hfirst := mem_listed.mp (horder ▸ List.mem_cons_self)
    have := hshadows.instant_lt (hdated first hfirst) (hdated a ha)
    have := hnewest a ha
    omega
  · have hfirst := mem_listed.mp (horder ▸ List.mem_cons_self)
    have hpairwise := listed_pairwise hdated
    rw [horder] at hpairwise
    rcases List.mem_cons.mp (horder ▸ mem_listed.mpr ha) with rfl | hrest
    · exact le_rfl
    · exact ((List.pairwise_cons.mp hpairwise).1 a hrest).instant_le (hdated first hfirst) (hdated a ha) (hclear a ha)
  · rintro s out rfl rfl
    rw [horder] at hlist
    exact exportRun_newest hlist (h.id_ne first (mem_listed.mp (horder ▸ List.mem_cons_self))) out

/-- Two runs of the same second. -/
def twoRuns : List Artifacts := [bareRun "early" 0, bareRun "late" 500000000]

theorem unindexed_empty : Unindexed .empty "a" := by
  have hnone : Disk.at? .empty (indexPlace "a") = none := by decide +kernel
  exact ⟨by rfl, fun bytes hbytes => by simp [hnone] at hbytes⟩

theorem written_twoRuns : ∃ d', Written "a" .empty twoRuns d' := by
  obtain ⟨d₁, hearly, -, hkept⟩ := vacant_empty.kept.write (a := bareRun "early" 0) (by decide +kernel)
  obtain ⟨d₂, hlate, -, -⟩ := hkept.write (a := bareRun "late" 500000000) (by decide +kernel)
  rw [if_pos (by decide +kernel)] at hearly hlate
  -- Both have a creation time, so the clock does not count.
  have hfirst : (writeRun "a" (bareRun "early" 0) noon).run .empty = _ := hearly
  have hsecond : (writeRun "a" (bareRun "late" 500000000) noon).run d₁ = _ := hlate
  have hboth := Written.cons hfirst (Written.cons hsecond (Written.nil d₂))
  exact ⟨d₂, hboth⟩

/-- Both runs are listed, but not the newer one first. -/
theorem newest_first_iff_twoRuns : ∃ d' order, Written "a" .empty twoRuns d' ∧
    listIndex d' "a" = .ok (List.map Artifacts.entry order) ∧ order.Perm twoRuns ∧
    ¬order.Pairwise (fun a b => b.createdAt.instant ≤ a.createdAt.instant) := by
  obtain ⟨d', hwritten⟩ := written_twoRuns
  obtain ⟨order, hlist, hperm, -, -, hnewest, -⟩ := newest_first_iff unindexed_empty hwritten (by decide +kernel)
    (by decide +kernel)
  exact ⟨d', order, hwritten, hlist, hperm, mt hnewest.mp (by decide +kernel)⟩

/-- The run without a fraction is listed before the later one with a fraction. -/
theorem newest_listed_last : ∃ d' order, Written "a" .empty twoRuns d' ∧
    (bareRun "early" 0).createdAt.instant < (bareRun "late" 500000000).createdAt.instant ∧
    listIndex d' "a" = .ok (List.map Artifacts.entry order) ∧
      order = [bareRun "early" 0, bareRun "late" 500000000] := by
  obtain ⟨d', hwritten⟩ := written_twoRuns
  have hfirst : (bareRun "late" 500000000).entry.newerOrSame (bareRun "early" 0).entry = false := by decide +kernel
  have horder : listed twoRuns = [bareRun "early" 0, bareRun "late" 500000000] := by
    simp [listed, twoRuns, List.mergeSort, hfirst]
  exact ⟨d', _, hwritten, by decide +kernel, listIndex_written unindexed_empty hwritten (by decide +kernel), horder⟩

end Forager.Archive
