import Forager.Archive.Store
import Mathlib.Data.List.Sort

/-!
# What a store finds

* `upsert_new`, `filter_upsert` : what saving does to the records of a key, and to those of the others;
* `Store.Lacks s id` : the store is initialized and knows nothing of a run;
* `Store.Keeps id s s'` : whatever was known of a run is still known, and nothing else about it;
* `saveGenerations_records`, `getGenerations_of_sorted` : the generations of a new run are found in the order in which
  they were saved.
-/

namespace Forager.Archive

set_option autoImplicit false

/-! ## Lists of records -/

section

variable {ρ : Type} {same : ρ → ρ → Bool} {r : ρ} {xs : List ρ}

theorem upsert_new (h : ∀ x ∈ xs, same x r = false) : upsert same r xs = xs ++ [r] := by
  induction xs with
  | nil => rfl
  | cons x xs ih =>
    obtain ⟨hx, hxs⟩ := List.forall_mem_cons.mp h
    rw [upsert, hx, ih hxs]
    rfl

theorem filter_upsert {p : ρ → Bool} (hr : p r = false) (hsame : ∀ x, same x r = true → p x = false) :
    (upsert same r xs).filter p = xs.filter p := by
  induction xs with
  | nil => simp [upsert, hr]
  | cons x xs ih =>
    rw [upsert]
    split
    · rename_i hx
      rw [List.filter_cons_of_neg (by simp [hr]), List.filter_cons_of_neg (by simp [hsame x hx])]
    · rw [List.filter_cons, List.filter_cons, ih]

theorem find?_upsert {p : ρ → Bool} (hr : p r = true) (hsame : ∀ x, p x = same x r) :
    (upsert same r xs).find? p = some r := by
  induction xs with
  | nil => simp [upsert, hr]
  | cons x xs ih =>
    rw [upsert]
    split
    · rw [List.find?_cons_of_pos hr]
    · rename_i hx
      rw [List.find?_cons_of_neg (by simpa [hsame x] using hx), ih]

end

def GenerationRecord.kept (g : GenerationRecord) : GenerationRecord :=
  { g with fittestPrograms := g.fittestPrograms.filter fun ps => !ps.isEmpty }

@[simp] theorem GenerationRecord.kept_runId (g : GenerationRecord) : g.kept.runId = g.runId := rfl

@[simp] theorem GenerationRecord.kept_index (g : GenerationRecord) : g.kept.index = g.index := rfl

namespace Store

/-- The store is initialized, and has neither the run nor a generation of it. -/
def Lacks (s : Store) (id : String) : Prop := s.getRun id = .ok none ∧ s.getGenerations id = .ok none

/-- Of the run, the second store knows what the first does. -/
def Keeps (id : String) (s s' : Store) : Prop := s'.getRun id = s.getRun id ∧ s'.getGenerations id = s.getGenerations id

theorem Keeps.refl (id : String) (s : Store) : Keeps id s s := ⟨rfl, rfl⟩

theorem Keeps.trans {id : String} {s s' s'' : Store} (h : Keeps id s s') (h' : Keeps id s' s'') : Keeps id s s'' :=
  ⟨h'.1.trans h.1, h'.2.trans h.2⟩

theorem Keeps.lacks {id : String} {s s' : Store} (h : Keeps id s s') (hlacks : s.Lacks id) : s'.Lacks id :=
  ⟨h.1.trans hlacks.1, h.2.trans hlacks.2⟩

theorem getGenerations_eq {s : Store} {id : String} {h : Holdings} (hs : s.holdings = some h) :
    s.getGenerations id =
      let records := (h.generations.filter (·.runId == id)).mergeSort fun a b => a.index ≤ b.index
      .ok (if records.isEmpty then none else some records) := by
  unfold getGenerations contents
  rw [hs]
  rfl

theorem init_lacks (s : Store) (id : String) : s.init.Lacks id := by
  refine ⟨rfl, ?_⟩
  rw [getGenerations_eq (h := {}) (by rfl)]
  simp

theorem getRun_eq {s : Store} {id : String} {h : Holdings} (hs : s.holdings = some h) :
    s.getRun id = .ok (h.runs.filter (·.id == id)).head? := by
  unfold getRun contents
  rw [hs, List.head?_filter]
  rfl

section

variable {s s' : Store} {id : String}

theorem saveRun_ok {r : Run} (h : s.saveRun r = .ok s') :
    s'.getRun r.id = .ok (some r) ∧ s'.getGenerations r.id = s.getGenerations r.id ∧
      ∀ id, id ≠ r.id → Keeps id s s' := by
  unfold saveRun contents at h
  cases hs : s.holdings with
  | none =>
    rw [hs] at h
    cases h
  | some held =>
    rw [hs] at h
    obtain rfl := Except.ok.inj h
    refine ⟨?_, ?_, fun id hne => ⟨?_, ?_⟩⟩
    · rw [getRun_eq rfl, List.head?_filter]
      exact congrArg Except.ok (find?_upsert (by simp) fun x => rfl)
    · rw [getGenerations_eq rfl, getGenerations_eq hs]
    · rw [getRun_eq rfl, getRun_eq hs, filter_upsert]
      · simpa using Ne.symm hne
      · intro x hx
        have hid : x.id = r.id := by simpa using hx
        simpa [hid] using Ne.symm hne
    · rw [getGenerations_eq rfl, getGenerations_eq hs]

end

/-- The generations of a run, in the order in which they were first saved. -/
def records (s : Store) (id : String) : List GenerationRecord :=
  (s.holdings.map fun h => h.generations.filter (·.runId == id)).getD []

section

variable {s s' : Store} {id : String}

theorem saveGeneration_eq {g : GenerationRecord} (h : s.saveGeneration g = .ok s') :
    ∃ held, s.holdings = some held ∧ s'.holdings = some { held with
      generations := upsert (fun a b => a.runId == b.runId && a.index == b.index) g.kept held.generations } := by
  unfold saveGeneration contents at h
  cases hs : s.holdings with
  | none =>
    rw [hs] at h
    cases h
  | some held =>
    rw [hs] at h
    obtain rfl := Except.ok.inj h
    exact ⟨held, rfl, rfl⟩

theorem saveGeneration_getRun {g : GenerationRecord} (h : s.saveGeneration g = .ok s') (id : String) :
    s'.getRun id = s.getRun id := by
  obtain ⟨held, hs, hs'⟩ := saveGeneration_eq h
  rw [getRun_eq hs, getRun_eq hs']

theorem saveGeneration_keeps {g : GenerationRecord} (h : s.saveGeneration g = .ok s') (hne : id ≠ g.runId) :
    Keeps id s s' := by
  refine ⟨saveGeneration_getRun h id, ?_⟩
  obtain ⟨held, hs, hs'⟩ := saveGeneration_eq h
  rw [getGenerations_eq hs', getGenerations_eq hs]
  dsimp only
  rw [filter_upsert]
  · simpa using Ne.symm hne
  · intro x hx
    have hid : x.runId = g.runId := by simpa using (Bool.and_eq_true_iff.mp hx).1
    simpa [hid] using Ne.symm hne

theorem saveGeneration_records {g : GenerationRecord} (h : s.saveGeneration g = .ok s')
    (hnew : ∀ r ∈ s.records g.runId, r.index ≠ g.index) : s'.records g.runId = s.records g.runId ++ [g.kept] := by
  obtain ⟨held, hs, hs'⟩ := saveGeneration_eq h
  simp only [records, hs, hs', Option.map_some, Option.getD_some] at hnew ⊢
  rw [upsert_new, List.filter_append]
  · simp
  · intro x hx
    by_cases hid : x.runId = g.runId
    · have := hnew x (List.mem_filter.mpr ⟨hx, by simpa using hid⟩)
      simpa [hid] using this
    · simp [hid]

/-! ## Generations one after another -/

theorem foldlM_cons_ok {g : GenerationRecord} {gs : List GenerationRecord}
    (h : (g :: gs).foldlM saveGeneration s = .ok s') :
    ∃ s₁, s.saveGeneration g = .ok s₁ ∧ gs.foldlM saveGeneration s₁ = .ok s' := by
  rw [List.foldlM_cons] at h
  cases hfirst : s.saveGeneration g with
  | error e =>
    rw [hfirst] at h
    cases h
  | ok s₁ =>
    rw [hfirst] at h
    exact ⟨s₁, rfl, h⟩

theorem saveGenerations_keeps {gs : List GenerationRecord} (h : gs.foldlM saveGeneration s = .ok s')
    (hne : ∀ g ∈ gs, id ≠ g.runId) : Keeps id s s' := by
  induction gs generalizing s with
  | nil =>
    obtain rfl := Except.ok.inj h
    exact .refl id s
  | cons g gs ih =>
    obtain ⟨s₁, hfirst, hrest⟩ := foldlM_cons_ok h
    obtain ⟨hg, hgs⟩ := List.forall_mem_cons.mp hne
    exact (saveGeneration_keeps hfirst hg).trans (ih hrest hgs)

/-- Generations that are saved in order are kept in order. -/
theorem saveGenerations_records {gs : List GenerationRecord} (h : gs.foldlM saveGeneration s = .ok s')
    (hid : ∀ g ∈ gs, g.runId = id) (hsorted : ((s.records id ++ gs).map (·.index)).Pairwise (· < ·)) :
    s'.records id = s.records id ++ gs.map (·.kept) ∧ s'.getRun id = s.getRun id := by
  induction gs generalizing s with
  | nil =>
    obtain rfl := Except.ok.inj h
    exact ⟨by simp, rfl⟩
  | cons g gs ih =>
    obtain ⟨s₁, hfirst, hrest⟩ := foldlM_cons_ok h
    obtain ⟨rfl, hgs⟩ := List.forall_mem_cons.mp hid
    have hnew : ∀ r ∈ s.records g.runId, r.index ≠ g.index := fun r hr heq => by
      have hlt := (List.pairwise_append.mp (List.pairwise_map.mp hsorted)).2.2 r hr g List.mem_cons_self
      rw [heq] at hlt
      exact Int64.lt_irrefl hlt
    have hrecords := saveGeneration_records hfirst hnew
    have hsorted₁ : ((s₁.records g.runId ++ gs).map (·.index)).Pairwise (· < ·) := by
      simpa [hrecords] using hsorted
    obtain ⟨hall, hrun⟩ := ih hrest hgs hsorted₁
    refine ⟨?_, hrun.trans (saveGeneration_getRun hfirst _)⟩
    rw [hall, hrecords, List.append_assoc]
    rfl

theorem holdings_of_getGenerations {r : Option (List GenerationRecord)} (h : s.getGenerations id = .ok r) :
    ∃ held, s.holdings = some held := by
  unfold getGenerations contents at h
  cases hs : s.holdings with
  | none =>
    rw [hs] at h
    cases h
  | some held => exact ⟨held, rfl⟩

theorem records_eq_nil (h : s.getGenerations id = .ok none) : s.records id = [] := by
  obtain ⟨held, hs⟩ := holdings_of_getGenerations h
  rw [getGenerations_eq hs] at h
  dsimp only at h
  split at h
  · rename_i hempty
    rw [List.isEmpty_iff] at hempty
    have hperm := List.mergeSort_perm (held.generations.filter (·.runId == id)) fun a b => a.index ≤ b.index
    rw [hempty] at hperm
    rw [records, hs]
    exact hperm.symm.eq_nil
  · cases h

/-- A run is found with the generations that were saved, if they were saved in order. -/
theorem getGenerations_of_sorted (hne : s.records id ≠ []) (hsorted : ((s.records id).map (·.index)).Pairwise (· < ·)) :
    s.getGenerations id = .ok (some (s.records id)) := by
  cases hs : s.holdings with
  | none => exact absurd (by rw [records, hs]; rfl) hne
  | some held =>
    have hrecords : s.records id = held.generations.filter (·.runId == id) := by
      rw [records, hs]
      rfl
    rw [getGenerations_eq hs]
    dsimp only
    rw [← hrecords, List.mergeSort_of_pairwise, if_neg (by simpa using hne)]
    exact (List.pairwise_map.mp hsorted).imp fun hlt => by simpa using Int64.le_of_lt hlt

end

end Store

end Forager.Archive
