import Forager.Archive.Artifacts
import Forager.Proofs.Json.Records

/-!
# Artifacts read back

* `ReadsBack fill blank n x j` : the value `x` is read from what was written, which has at most `n` levels;
* `RunConfig.readsBack`, `FitnessHistory.readsBack`, `readsBack_texts`, `readsBack_index` : configurations, histories,
  programs and the index are, if they could be written at all.
-/

namespace Forager.Archive

set_option autoImplicit false

open Json (Fits Fill)

theorem ofFloat?_eq_none {x : Float} : Json.ofFloat? x = none ↔ Number.isFinite x = false := by
  simp [Json.ofFloat?, Number.json?]

/-- Whether a value is read from what was written, within `n` levels. -/
structure ReadsBack {α : Type} (fill : Fill α) (blank : α) (n : Nat) (x : α) (j : Json) : Prop where
  fits : Fits n j
  filled : fill blank j = some x

theorem ReadsBack.read? {α : Type} {fill : Fill α} {blank x : α} {n : Nat} {j : Json} (h : ReadsBack fill blank n x j)
    (hn : n ≤ Json.nestingLimit) : fill.read? blank j.pretty = some x :=
  (Fill.read?_pretty fill blank h.fits hn).trans h.filled

/-- Lists read back if their items do. -/
theorem readsBack_items {α : Type} {fill : Fill α} {blank : α} {n : Nat} {write : α → Option Json}
    (hitem : ∀ {x j}, write x = some j → ReadsBack fill blank n x j) {xs : List α} {js : List Json}
    (h : xs.mapM write = some js) : Fits (n + 1) (.array js) ∧ Fill.items blank fill [] js = some xs := by
  suffices hall : (∀ j ∈ js, Fits n j) ∧ Fill.items blank fill [] js = some xs from ⟨.array hall.1, hall.2⟩
  induction xs generalizing js with
  | nil =>
    cases h
    exact ⟨by simp, rfl⟩
  | cons x xs ih =>
    rw [List.mapM_cons] at h
    obtain ⟨j, hj, h⟩ := Option.bind_eq_some_iff.mp h
    obtain ⟨rest, hrest, h⟩ := Option.bind_eq_some_iff.mp h
    cases h
    obtain ⟨hfits, hfilled⟩ := ih hrest
    refine ⟨List.forall_mem_cons.mpr ⟨(hitem hj).fits, hfits⟩, ?_⟩
    rw [Fill.items, (hitem hj).filled, hfilled]
    rfl

/-- A field that is left out when it is zero. -/
theorem fits_unlessZero {n : Nat} (key : String) (k : Int64) : ∀ f ∈ unlessZero key k, Fits n f.2 := by
  unfold unlessZero
  split
  · simp
  · simpa using .ofInt _

theorem IndexEntry.readsBack {e : IndexEntry} {j : Json} (h : e.json? = some j) :
    ReadsBack (.record IndexEntry.fields) {} 1 e j := by
  obtain ⟨best, hbest, h⟩ := Option.bind_eq_some_iff.mp h
  cases h
  refine ⟨.ofFields ?_, ?_⟩
  · simp only [List.forall_mem_cons, List.not_mem_nil, false_imp_iff, implies_true, and_true, integerJson]
    exact ⟨.ofText _, .ofText _, .ofInt _, .ofInt _, .ofInt _, .ofInt _, .ofFloat? hbest, .ofText _⟩
  · simp [Fill.record_ofFields_cons, Fill.record_ofFields_nil, Fill.find?, IndexEntry.fields, Fill.part,
      Fill.text_ofText, Fill.integer_integerJson, Fill.real_ofFloat? hbest]

/-- **The index reads back.** -/
theorem readsBack_index {entries : List IndexEntry} {j : Json} (h : indexJson? entries = some j) :
    ReadsBack (.listOrEmpty {} (.record IndexEntry.fields)) [] 2 entries j := by
  obtain ⟨js, hjs, rfl⟩ := Option.map_eq_some_iff.mp h
  obtain ⟨hfits, hfilled⟩ := readsBack_items IndexEntry.readsBack hjs
  refine ⟨hfits, ?_⟩
  simp only [Fill.listOrEmpty, Fill.list, Option.getD_some, hfilled]
  rfl

theorem HistoryLine.readsBack {line : HistoryLine} {j : Json} (h : line.json? = some j) :
    ReadsBack (.record HistoryLine.fields) {} 1 line j := by
  obtain ⟨mean, hmean, h⟩ := Option.bind_eq_some_iff.mp h
  obtain ⟨max, hmax, h⟩ := Option.bind_eq_some_iff.mp h
  obtain ⟨min, hmin, h⟩ := Option.bind_eq_some_iff.mp h
  cases h
  refine ⟨.ofFields ?_, ?_⟩
  · simp only [List.forall_mem_append, List.forall_mem_cons, List.not_mem_nil, false_imp_iff, implies_true, and_true,
      integerJson]
    exact ⟨⟨.ofInt _, .ofFloat? hmean, .ofFloat? hmax, .ofFloat? hmin, .ofInt _⟩, fits_unlessZero _ _⟩
  · obtain ⟨generation, _, _, _, diversity, aborted⟩ := line
    by_cases haborted : aborted = 0 <;>
    simp [unlessZero, haborted, Fill.record_ofFields_cons, Fill.record_ofFields_nil, Fill.find?, HistoryLine.fields,
      Fill.part, Fill.integer_integerJson, Fill.real_ofFloat? hmean, Fill.real_ofFloat? hmax, Fill.real_ofFloat? hmin]

/-- **Histories read back.** -/
theorem FitnessHistory.readsBack {history : FitnessHistory} {j : Json} (h : history.json? = some j) :
    ReadsBack (.record FitnessHistory.fields) {} 3 history j := by
  obtain ⟨generations, best⟩ := history
  obtain ⟨lines, final, hread, hfinal, rfl⟩ : ∃ lines final,
      (Fits 2 lines ∧ Fill.list {} (.record HistoryLine.fields) none lines = some generations) ∧
      Json.ofFloat? best = some final ∧ j = Json.ofFields [("generations", lines), ("final_best_fitness", final)] := by
    cases generations with
    | none =>
      obtain ⟨final, hfinal, h⟩ := Option.bind_eq_some_iff.mp h
      exact ⟨_, final, ⟨.null, rfl⟩, hfinal, (Option.some.inj h).symm⟩
    | some generations =>
      obtain ⟨lines, hlines, h⟩ := Option.bind_eq_some_iff.mp h
      obtain ⟨final, hfinal, h⟩ := Option.bind_eq_some_iff.mp h
      obtain ⟨js, hjs, rfl⟩ := Option.map_eq_some_iff.mp hlines
      obtain ⟨hfits, hfilled⟩ := readsBack_items HistoryLine.readsBack hjs
      refine ⟨_, final, ⟨hfits, ?_⟩, hfinal, (Option.some.inj h).symm⟩
      simp only [Fill.list, Option.getD_none, hfilled]
      rfl
  refine ⟨.ofFields ?_, ?_⟩
  · simpa using ⟨hread.1, .ofFloat? hfinal⟩
  · simp [Fill.record_ofFields_cons, Fill.record_ofFields_nil, Fill.find?, FitnessHistory.fields, Fill.part, hread.2,
      Fill.real_ofFloat? hfinal]

theorem ArenaSettings.filled (a : ArenaSettings) : Fill.record ArenaSettings.fields {}
    (Json.ofFields (unlessZero "max_steps" a.maxSteps ++ unlessZero "treats" a.treats)) = some a := by
  obtain ⟨maxSteps, treats⟩ := a
  by_cases hsteps : maxSteps = 0 <;> by_cases htreats : treats = 0 <;>
  simp [unlessZero, hsteps, htreats, Fill.record_ofFields_cons, Fill.record_ofFields_nil, Fill.find?,
    ArenaSettings.fields, Fill.part, Fill.integer_integerJson]

/-- **Configurations read back.** -/
theorem RunConfig.readsBack {config : RunConfig} {j : Json} (h : config.json? = some j) :
    ReadsBack (.record RunConfig.fields) {} 2 config j := by
  obtain ⟨rate, hrate, h⟩ := Option.bind_eq_some_iff.mp h
  cases h
  refine ⟨.ofFields ?_, ?_⟩
  · simp only [List.forall_mem_append, List.forall_mem_cons, List.not_mem_nil, false_imp_iff, implies_true, and_true,
      integerJson]
    refine ⟨⟨⟨.ofText _, .ofText _, .ofText _, .ofText _, .ofInt _, .ofFloat? hrate, .ofInt _, .ofInt _, .ofInt _,
      .ofInt _, .ofText _⟩, fits_unlessZero _ _⟩, .ofFields ?_⟩
    exact List.forall_mem_append.mpr ⟨fits_unlessZero _ _, fits_unlessZero _ _⟩
  · obtain ⟨_, _, _, _, _, _, _, _, _, _, _, tournamentSize, arena⟩ := config
    by_cases hsize : tournamentSize = 0 <;>
    simp [unlessZero, hsize, Fill.record_ofFields_cons, Fill.record_ofFields_nil, Fill.find?, RunConfig.fields,
      Fill.part, Fill.text_ofText, Fill.integer_integerJson, Fill.real_ofFloat? hrate]
    · exact ArenaSettings.filled arena
    · exact ArenaSettings.filled arena

/-- **Lists of texts read back.** -/
theorem readsBack_texts (texts : List String) :
    ReadsBack (.list "" .text) none 1 (some texts) (Json.ofTexts texts) := by
  refine ⟨.ofTexts texts, ?_⟩
  have hread : ∀ {x j}, some (Json.ofText x) = some j → ReadsBack Fill.text "" 0 x j := by
    rintro x _ ⟨⟩
    exact ⟨.ofText x, Fill.text_ofText "" x⟩
  have hmap : texts.mapM (fun text => some (Json.ofText text)) = some (texts.map Json.ofText) :=
    List.mapM_pure
  simp only [Json.ofTexts, Fill.list, Option.getD_none, (readsBack_items hread hmap).2]
  rfl

end Forager.Archive
