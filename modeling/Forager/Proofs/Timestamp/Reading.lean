import Forager.Json.Fill
import Forager.Proofs.Timestamp.Order

/-!
# Timestamps read back

* `fixed?_padded`, `fraction?_fractionText`, `offset?_offsetText` : the parts of a text are read one after the other;
* `parse?_text` : so is the whole text, if the timestamp is in the calendar and its text is standard;
* `escape_text` : such a text stands between quotes as it is.
-/

namespace Forager.Timestamp

set_option autoImplicit false

open Number (Digits)

/-! ## Digits -/

theorem digits?_eq {ds : List Char} (h : Digits ds) : digits? ds = some (Nat.ofDigitChars 10 ds 0) := by
  have hfold : ∀ n, ds.foldlM (fun n c => (digit? c).map (n * 10 + ·)) n = some (Nat.ofDigitChars 10 ds n) := by
    induction ds with
    | nil => exact fun n => rfl
    | cons d ds ih =>
      intro n
      have hd : digit? d = some (d.toNat - '0'.toNat) := if_pos (h d List.mem_cons_self)
      rw [List.foldlM_cons, hd, Nat.ofDigitChars_cons, ← ih (fun c hc => h c (List.mem_cons_of_mem d hc)), Nat.mul_comm]
      rfl
  cases ds with
  | nil => rfl
  | cons d ds => exact hfold 0

theorem fixed?_digits {ds : List Char} (h : Digits ds) (rest : List Char) :
    fixed? ds.length (ds ++ rest) = some (Nat.ofDigitChars 10 ds 0, rest) := by
  have hlong : ¬(ds ++ rest).length < ds.length := by simp
  rw [fixed?, if_neg hlong, List.take_left, List.drop_left, digits?_eq h]
  rfl

theorem fixed?_padded (width n : Nat) (hwidth : 0 < width) (hn : n < 10 ^ width) (rest : List Char) :
    fixed? width (padded width n ++ rest) = some (n, rest) := by
  have hread := fixed?_digits (digits_padded width n) rest
  rwa [length_padded hwidth hn, ofDigitChars_padded] at hread

theorem short?_padded {n : Nat} (hn : n < 100) (rest : List Char) : short? (padded 2 n ++ rest) = some (n, rest) := by
  rw [short?, fixed?_padded 2 n (by decide) hn]
  rfl

theorem expect?_cons (c : Char) (rest : List Char) : expect? c (c :: rest) = some rest := if_pos rfl

/-! ## Fractions and offsets -/

/-- Whether a fraction ends before these characters. -/
def EndsFraction (rest : List Char) : Prop := ∀ c ∈ rest.head?, c ≠ '.' ∧ c ≠ ',' ∧ c.isDigit = false

theorem fractionDigits_ne_nil {nanos : Nat} (h : nanos ≠ 0) : fractionDigits nanos ≠ [] := by
  intro hnil
  obtain ⟨k, hk⟩ := fractionDigits_append nanos
  apply h
  rw [← ofDigitChars_padded 9 nanos, ← hk, hnil, List.nil_append, Nat.ofDigitChars_replicate_zero, Nat.mul_zero]

theorem fraction?_fractionText {nanos : Nat} (h : nanos < 1000000000) {rest : List Char} (hrest : EndsFraction rest) :
    fraction? (fractionText nanos ++ rest) = some (nanos, rest) := by
  rw [fractionText_eq]
  split
  · rename_i hzero
    subst hzero
    rw [List.nil_append]
    unfold fraction?
    split
    · rename_i c d rest
      obtain ⟨hpoint, hcomma, -⟩ := hrest c rfl
      simp [hpoint, hcomma]
    · rfl
  · rename_i hne
    obtain ⟨k, hk⟩ := fractionDigits_append nanos
    have hlength : (fractionDigits nanos).length + k = 9 := by
      have hpadded : (padded 9 nanos).length = 9 := length_padded (by decide) h
      rw [← hpadded, ← hk, List.length_append, List.length_replicate]
    have hdigits := digits_fractionDigits nanos
    obtain ⟨d, ds, hds⟩ := List.exists_cons_of_ne_nil (fractionDigits_ne_nil hne)
    have hd : d.isDigit = true := hdigits d (hds ▸ List.mem_cons_self)
    have htake : (fractionDigits nanos ++ rest).takeWhile Char.isDigit = fractionDigits nanos := by
      rw [List.takeWhile_append_of_pos hdigits]
      cases rest with
      | nil => simp
      | cons c rest => simp [(hrest c rfl).2.2]
    have hdrop : (fractionDigits nanos ++ rest).dropWhile Char.isDigit = rest := by
      rw [List.dropWhile_append_of_pos hdigits]
      cases rest with
      | nil => rfl
      | cons c rest => simp [(hrest c rfl).2.2]
    have hread : digits? (fractionDigits nanos ++ List.replicate (9 - (fractionDigits nanos).length) '0') =
        some nanos := by
      rw [show 9 - (fractionDigits nanos).length = k by omega, hk, digits?_eq (digits_padded 9 nanos),
        ofDigitChars_padded]
    have hcounted : (fractionDigits nanos).take 9 = fractionDigits nanos := List.take_of_length_le (by omega)
    rw [hds] at htake hdrop hcounted hread ⊢
    simp only [List.cons_append] at htake hdrop ⊢
    simp only [fraction?, decide_true, Bool.true_or, hd, Bool.and_self, if_true, htake, hdrop, hcounted, hread,
      Option.map_some]

theorem offset?_offsetText {offset : Int} (h : offset.natAbs < 24 * 60) :
    offset? (offsetText offset) = some offset := by
  rw [offsetText]
  split
  · rename_i hzero
    rw [hzero]
    rfl
  · rename_i hne
    have hhours := fixed?_padded 2 (offset.natAbs / 60) (by decide) (by omega)
      (':' :: padded 2 (offset.natAbs % 60))
    have hminutes := fixed?_padded 2 (offset.natAbs % 60) (by decide) (by omega) []
    rw [List.append_nil] at hminutes
    have hrange : ¬(offset.natAbs / 60 > 24 ∨ offset.natAbs % 60 > 60) := by omega
    unfold offset?
    split
    · rename_i heq
      exact absurd (List.cons.inj heq).1 (by split <;> decide)
    · rename_i sign rest _ heq
      obtain ⟨rfl, rfl⟩ := List.cons.inj heq
      simp only [hhours, Option.bind_eq_bind, Option.bind_some, expect?_cons, hminutes, List.isEmpty_nil, Bool.not_true,
        Bool.or_eq_true, decide_eq_true_eq, Bool.false_eq_true, false_or]
      rw [if_neg hrange]
      by_cases hnegative : offset < 0
      · simp only [hnegative, if_true, Char.reduceEq, if_false]
        exact congrArg some (by omega)
      · simp only [hnegative, if_true, if_false]
        exact congrArg some (by omega)
    · rename_i heq
      cases heq

theorem endsFraction_offsetText (offset : Int) : EndsFraction (offsetText offset) := by
  unfold offsetText
  split
  · rintro c ⟨⟩
    decide
  · rintro c ⟨⟩
    split <;> decide

/-! ## Texts -/

variable {t : Timestamp}

theorem isStandard_iff : t.isStandard = true ↔ (0 ≤ t.date.year ∧ t.date.year ≤ 9999) ∧ t.offset.natAbs < 24 * 60 := by
  simp [isStandard]

/-- **Timestamps read back.** -/
theorem parse?_text (h : t.Valid) (hstandard : t.isStandard = true) : parse? t.text = some t := by
  obtain ⟨⟨hyear, hyear'⟩, hoffset⟩ := isStandard_iff.mp hstandard
  have hmonth := h.date.month_pos
  have hmonth' := h.date.month_le
  have hday := h.date.day_pos
  have hday' := h.date.day_le
  have hlength := Date.monthLength_le t.date.year t.date.month
  have hhour := h.hour
  have hminute := h.minute
  have hsecond := h.second
  have hrange : ¬((((((t.date.month < 1 ∨ 12 < t.date.month) ∨ t.date.day < 1) ∨
      Date.monthLength t.date.year t.date.month < t.date.day) ∨ 23 < t.hour) ∨ 59 < t.minute) ∨ 59 < t.second) := by
    omega
  rw [parse?, text, String.toList_ofList, yearText, if_neg (Int.not_lt.mpr hyear), ofChars?]
  -- The parts are read in the order in which they are written.
  refine Option.bind_eq_some_iff.mpr ⟨_, fixed?_padded 4 t.date.year.natAbs (by decide) (by omega) _, ?_⟩
  refine Option.bind_eq_some_iff.mpr ⟨_, expect?_cons _ _, ?_⟩
  refine Option.bind_eq_some_iff.mpr ⟨_, fixed?_padded 2 t.date.month (by decide) (by omega) _, ?_⟩
  refine Option.bind_eq_some_iff.mpr ⟨_, expect?_cons _ _, ?_⟩
  refine Option.bind_eq_some_iff.mpr ⟨_, fixed?_padded 2 t.date.day (by decide) (by omega) _, ?_⟩
  refine Option.bind_eq_some_iff.mpr ⟨_, expect?_cons _ _, ?_⟩
  refine Option.bind_eq_some_iff.mpr ⟨_, short?_padded (by omega) _, ?_⟩
  refine Option.bind_eq_some_iff.mpr ⟨_, expect?_cons _ _, ?_⟩
  refine Option.bind_eq_some_iff.mpr ⟨_, fixed?_padded 2 t.minute (by decide) (by omega) _, ?_⟩
  refine Option.bind_eq_some_iff.mpr ⟨_, expect?_cons _ _, ?_⟩
  refine Option.bind_eq_some_iff.mpr ⟨_, fixed?_padded 2 t.second (by decide) (by omega) _, ?_⟩
  refine Option.bind_eq_some_iff.mpr ⟨_, fraction?_fractionText h.nanos (endsFraction_offsetText t.offset), ?_⟩
  refine Option.bind_eq_some_iff.mpr ⟨_, offset?_offsetText hoffset, ?_⟩
  simp only [Int.natAbs_of_nonneg hyear, Bool.or_eq_true, decide_eq_true_eq, hrange, if_false]

/-- Whether a character stands for itself between quotes. -/
def IsLiteral (c : Char) : Prop := Json.escapeChar c = [c]

theorem isLiteral_digit {c : Char} (h : c.isDigit = true) : IsLiteral c := by
  have hall : ∀ n < 58, 48 ≤ n → IsLiteral (Char.ofNat n) := by
    unfold IsLiteral
    decide
  have hbounds := Number.isDigit_bounds h
  rw [← Char.ofNat_toNat c]
  exact hall c.toNat (by omega) (by omega)

/-- The text of a timestamp has no character that is written by an escape. -/
theorem escape_text (t : Timestamp) : Json.escape t.text = t.text.toList := by
  have hpadded : ∀ width n, ∀ c ∈ padded width n, IsLiteral c := fun width n c hc =>
    isLiteral_digit (digits_padded width n c hc)
  have hmark : ∀ c ∈ ['-', ':', 'T', '.', 'Z', '+'], IsLiteral c := by
    simp only [List.forall_mem_cons]
    exact ⟨rfl, rfl, rfl, rfl, rfl, rfl, by simp⟩
  have hyear : ∀ c ∈ yearText t.date.year, IsLiteral c := by
    unfold yearText
    split
    · exact List.forall_mem_cons.mpr ⟨hmark _ (by decide), hpadded _ _⟩
    · exact hpadded _ _
  have hfraction : ∀ c ∈ fractionText t.nanos, IsLiteral c := by
    rw [fractionText_eq]
    split
    · simp
    · exact List.forall_mem_cons.mpr ⟨hmark _ (by decide), fun c hc => isLiteral_digit (digits_fractionDigits _ c hc)⟩
  have hoffset : ∀ c ∈ offsetText t.offset, IsLiteral c := by
    unfold offsetText
    split
    · simpa using hmark 'Z' (by decide)
    · refine List.forall_mem_cons.mpr ⟨?_, List.forall_mem_append.mpr ⟨hpadded _ _,
        List.forall_mem_cons.mpr ⟨hmark _ (by decide), hpadded _ _⟩⟩⟩
      split <;> exact hmark _ (by decide)
  have hall : ∀ c ∈ t.text.toList, IsLiteral c := by
    rw [text, String.toList_ofList]
    simp only [List.forall_mem_append, List.forall_mem_cons]
    exact ⟨hyear, hmark _ (by decide), hpadded _ _, hmark _ (by decide), hpadded _ _, hmark _ (by decide), hpadded _ _,
      hmark _ (by decide), hpadded _ _, hmark _ (by decide), hpadded _ _, hfraction, hoffset⟩
  rw [Json.escape, List.flatMap_congr hall]
  simp

end Forager.Timestamp
