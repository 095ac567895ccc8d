import Forager.Proofs.Archive.Encoding
import Forager.Proofs.Timestamp.Reading

/-!
# Records are coded without loss

* `Run.json?_eq_none`, `GenerationRecord.json?_eq_none` : the records that cannot be written;
* `Run.readsBack`, `GenerationRecord.readsBack` : all others are read from what was written;
* `decode_encode` : so records of the current version are decoded from their texts, and all others are refused.
-/

namespace Forager.Archive

set_option autoImplicit false

open Json (Fits Fill HtmlSafe)
open Number (isFinite)

/-! ## What cannot be written -/

theorem Run.json?_eq_none {r : Run} : r.json? = none ↔
    isFinite r.mutationRate = false ∨ isFinite r.bestFitness = false ∨ r.createdAt.isStandard = false := by
  rw [← ofFloat?_eq_none, ← ofFloat?_eq_none]
  unfold Run.json?
  cases hstandard : r.createdAt.isStandard <;> cases hrate : Json.ofFloat? r.mutationRate <;>
    cases hbest : Json.ofFloat? r.bestFitness <;> simp [guard]

theorem GenerationRecord.json?_eq_none {g : GenerationRecord} : g.json? = none ↔
    isFinite g.mean = false ∨ isFinite g.max = false ∨ isFinite g.min = false := by
  rw [← ofFloat?_eq_none, ← ofFloat?_eq_none, ← ofFloat?_eq_none]
  unfold GenerationRecord.json?
  cases hmean : Json.ofFloat? g.mean <;> cases hmax : Json.ofFloat? g.max <;> cases hmin : Json.ofFloat? g.min <;> simp

/-! ## What is read -/

theorem timestamp_ofText (blank : Timestamp) {t : Timestamp} (h : t.Valid) (hstandard : t.isStandard = true) :
    Fill.timestamp blank (Json.ofText t.text) = some t := by
  have hread := Timestamp.parse?_text h hstandard
  rwa [Timestamp.parse?, ← Timestamp.escape_text] at hread

/-- A field that is left out when the list is empty. -/
theorem listOrEmpty_ofTexts (texts : List String) :
    Fill.listOrEmpty "" Fill.text [] (Json.ofTexts texts) = some texts := by
  have hread := (readsBack_texts texts).filled
  simp only [Fill.list, Json.ofTexts, Option.getD_none] at hread
  simp only [Fill.listOrEmpty, Fill.list, Json.ofTexts, Option.getD_some, hread]
  rfl

/-- Whether a value is well written within `n` levels and has no character that is special in HTML. -/
structure Clean (n : Nat) (j : Json) : Prop where
  fits : Fits n j
  safe : HtmlSafe j.chars

namespace Clean

variable {n : Nat}

theorem ofText (text : String) : Clean n (Json.ofText text) := ⟨.ofText text, Json.htmlSafe_quoted_escape text⟩

theorem ofInt (k : Int) : Clean n (Json.ofInt k) := ⟨.ofInt k, Json.htmlSafe_ofInt k⟩

theorem ofFloat? {x : Float} {j : Json} (h : Json.ofFloat? x = some j) : Clean n j :=
  ⟨.ofFloat? h, Json.htmlSafe_ofFloat? h⟩

theorem ofTexts (texts : List String) : Clean (n + 1) (Json.ofTexts texts) :=
  ⟨.ofTexts texts, Json.htmlSafe_ofTexts texts⟩

theorem null : Clean n .null :=
  ⟨.null, .cons rfl (.cons rfl (.cons rfl (.cons rfl (List.forall_mem_nil _))))⟩

theorem bool (b : Bool) : Clean n (.bool b) := by
  refine ⟨.bool b, ?_⟩
  cases b with
  | true => exact .cons rfl (.cons rfl (.cons rfl (.cons rfl (List.forall_mem_nil _))))
  | false => exact .cons rfl (.cons rfl (.cons rfl (.cons rfl (.cons rfl (List.forall_mem_nil _)))))

theorem ofFields {fields : List (String × Json)} (h : ∀ f ∈ fields, Clean n f.2) :
    Clean (n + 1) (Json.ofFields fields) :=
  ⟨.ofFields fun f hf => (h f hf).fits, Json.htmlSafe_ofFields fun f hf => (h f hf).safe⟩

end Clean

/-- **Runs read back.** -/
theorem Run.readsBack {r : Run} {j : Json} (hj : r.json? = some j) (h : r.createdAt.Valid) :
    Clean 2 j ∧ Fill.record Run.fields {} j = some r := by
  obtain ⟨⟨⟩, hstandard, hj⟩ := Option.bind_eq_some_iff.mp hj
  obtain ⟨rate, hrate, hj⟩ := Option.bind_eq_some_iff.mp hj
  obtain ⟨best, hbest, hj⟩ := Option.bind_eq_some_iff.mp hj
  cases hj
  have hstandard : r.createdAt.isStandard = true := by simpa [guard] using hstandard
  refine ⟨.ofFields ?_, ?_⟩
  · simp only [List.forall_mem_append, List.forall_mem_cons, List.not_mem_nil, false_imp_iff, implies_true, and_true,
      integerJson]
    refine ⟨⟨.ofInt _, .ofInt _, .ofText _, .ofText _, .ofText _, .ofText _, .ofText _, .ofInt _, .ofFloat? hrate,
      .ofInt _, .ofInt _, .ofText _, .ofInt _, .ofInt _, .bool _, .ofFloat? hbest⟩, ?_⟩
    split
    · simp
    · simpa using .ofTexts _
  · obtain ⟨⟨_, _⟩, _, createdAt, _, _, _, _, _, _, _, _, _, _, _, _, programs⟩ := r
    by_cases hprograms : programs = [] <;>
    simp [hprograms, Fill.record_ofFields_cons, Fill.record_ofFields_nil, Fill.find?, Run.fields, Fill.part, Fill.flag,
      Fill.text_ofText, Fill.integer_integerJson, Fill.real_ofFloat? hrate, Fill.real_ofFloat? hbest,
      timestamp_ofText _ h hstandard, listOrEmpty_ofTexts]

/-- **Generations read back.** -/
theorem GenerationRecord.readsBack {g : GenerationRecord} {j : Json} (hj : g.json? = some j) :
    Clean 2 j ∧ Fill.record GenerationRecord.fields {} j = some g := by
  obtain ⟨mean, hmean, hj⟩ := Option.bind_eq_some_iff.mp hj
  obtain ⟨max, hmax, hj⟩ := Option.bind_eq_some_iff.mp hj
  obtain ⟨min, hmin, hj⟩ := Option.bind_eq_some_iff.mp hj
  cases hj
  refine ⟨.ofFields ?_, ?_⟩
  · simp only [List.forall_mem_cons, List.not_mem_nil, false_imp_iff, implies_true, and_true, integerJson]
    refine ⟨.ofInt _, .ofInt _, .ofText _, .ofInt _, .ofFloat? hmean, .ofFloat? hmax, .ofFloat? hmin, .ofInt _,
      .ofInt _, .ofInt _, .ofText _, ?_⟩
    cases g.fittestPrograms with
    | none => exact .null
    | some programs => exact .ofTexts programs
  · have hprograms : Fill.list "" Fill.text none ((g.fittestPrograms.map Json.ofTexts).getD .null) =
        some g.fittestPrograms := by
      cases g.fittestPrograms with
      | none => rfl
      | some programs => exact (readsBack_texts programs).filled
    simp [Fill.record_ofFields_cons, Fill.record_ofFields_nil, Fill.find?, GenerationRecord.fields, Fill.part,
      Fill.text_ofText, Fill.integer_integerJson, Fill.real_ofFloat? hmean, Fill.real_ofFloat? hmax,
      Fill.real_ofFloat? hmin, hprograms]

/-! ## Texts -/

/-- A record that reads back is decoded if it has the current version. -/
theorem checkVersion_read? {ρ : Type} {fields : List (String × Fill ρ)} {blank x : ρ} {n : Nat} {j : Json}
    (version : ρ → Version) (hclean : Clean n j) (hn : n ≤ Json.nestingLimit)
    (hread : Fill.record fields blank j = some x) :
    checkVersion version (Fill.read? (.record fields) blank j.print) =
      if version x = .current then .ok x else .error .versionMismatch := by
  rw [Fill.read?_print _ _ hclean.fits hn, hread]
  rfl

theorem Clean.print {n : Nat} {j : Json} (h : Clean n j) : HtmlSafe j.print.toList := by
  rw [Json.print, String.toList_ofList]
  exact h.safe

/-- **Records are coded without loss.** A record is encoded unless one of its numbers is not finite or its time has no
standard text. What is decoded is the record itself if it has the current version; a record of another version is
refused. No character of the text is special in HTML. -/
theorem decode_encode (r : Run) (g : GenerationRecord) (h : r.createdAt.Valid) :
    (r.encode? = none ↔ isFinite r.mutationRate = false ∨ isFinite r.bestFitness = false ∨
      ¬((0 ≤ r.createdAt.date.year ∧ r.createdAt.date.year ≤ 9999) ∧ r.createdAt.offset.natAbs < 24 * 60)) ∧
    (∀ text, r.encode? = some text → HtmlSafe text.toList ∧
      Run.decode text = if r.version = .current then .ok r else .error .versionMismatch) ∧
    (g.encode? = none ↔ isFinite g.mean = false ∨ isFinite g.max = false ∨ isFinite g.min = false) ∧
    ∀ text, g.encode? = some text → HtmlSafe text.toList ∧
      GenerationRecord.decode text = if g.version = .current then .ok g else .error .versionMismatch := by
  refine ⟨?_, fun text htext => ?_, ?_, fun text htext => ?_⟩
  · rw [Run.encode?, Option.map_eq_none_iff, Run.json?_eq_none, ← Timestamp.isStandard_iff, Bool.not_eq_true]
  · obtain ⟨j, hj, rfl⟩ := Option.map_eq_some_iff.mp htext
    obtain ⟨hclean, hread⟩ := Run.readsBack hj h
    exact ⟨hclean.print, checkVersion_read? _ hclean (by decide) hread⟩
  · rw [GenerationRecord.encode?, Option.map_eq_none_iff, GenerationRecord.json?_eq_none]
  · obtain ⟨j, hj, rfl⟩ := Option.map_eq_some_iff.mp htext
    obtain ⟨hclean, hread⟩ := GenerationRecord.readsBack hj
    exact ⟨hclean.print, checkVersion_read? _ hclean (by decide) hread⟩

/-- A run with special characters, written on a leap day. -/
def leapRun : Run :=
  { version := .current, id := "<a> & \"b\"\n\u2028é", createdAt := ⟨⟨2024, 2, 29⟩, 23, 59, 59, 120000000, 0⟩,
    mutationRate := 1e-7, seed := -9223372036854775808, bestFitness := -0.0, bestPrograms := ["", "\\"] }

def laterGeneration : GenerationRecord := { version := ⟨1, 2⟩, mean := 1e21, fittestPrograms := some [] }

theorem decode_encode_leapRun :
    (∃ text, leapRun.encode? = some text ∧ Run.decode text = .ok leapRun) ∧
    ∃ text, laterGeneration.encode? = some text ∧ GenerationRecord.decode text = .error .versionMismatch := by
  obtain ⟨hnone, hsome, hnone', hsome'⟩ := decode_encode leapRun laterGeneration (by decide)
  have hwritten : leapRun.encode? ≠ none := fun heq => by
    rcases hnone.mp heq with hinfinite | hinfinite | hstandard
    · exact absurd hinfinite (by decide +kernel)
    · exact absurd hinfinite (by decide +kernel)
    · exact hstandard (by decide)
  have hwritten' : laterGeneration.encode? ≠ none := fun heq => by
    rcases hnone'.mp heq with hinfinite | hinfinite | hinfinite <;> exact absurd hinfinite (by decide +kernel)
  obtain ⟨text, htext⟩ := Option.ne_none_iff_exists'.mp hwritten
  obtain ⟨text', htext'⟩ := Option.ne_none_iff_exists'.mp hwritten'
  exact ⟨⟨text, htext, (hsome text htext).2.trans (if_pos rfl)⟩,
    text', htext', (hsome' text' htext').2.trans (if_neg (by decide))⟩

end Forager.Archive
