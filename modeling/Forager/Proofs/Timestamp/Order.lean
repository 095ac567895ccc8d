import Forager.Proofs.Number.RoundTrip
import Forager.Proofs.Text.Bytes
import Forager.Proofs.Timestamp.Calendar

/-!
# The order of the texts of timestamps

Timestamps in universal time with years of four digits are compared by their texts, byte by byte.

* `padded_append_lt_iff` : numbers of one width compare as numbers;
* `Hides m n` : the fraction of `m` nanoseconds is written with the first digits of the fraction of `n`, and no more;
* `text_lt_iff` : timestamps compare by their seconds, and within a second by their fractions, except that a fraction
  that hides another comes after it.
-/

namespace Forager

set_option autoImplicit false

namespace Timestamp

open Number (Digits)
open Text (codes)

/-! ## Numbers of one width -/

theorem digits_ascii {ds : List Char} (h : Digits ds) : ∀ c ∈ ds, c.toNat < 128 := fun c hc => by
  have := Number.isDigit_bounds (h c hc)
  omega

theorem ofDigitChars_cons_zero (c : Char) (cs : List Char) : Nat.ofDigitChars 10 (c :: cs) 0 =
    10 ^ cs.length * (c.toNat - 48) + Nat.ofDigitChars 10 cs 0 := by
  rw [Nat.ofDigitChars_cons]
  exact Nat.ofDigitChars_eq_ofDigitChars_zero.trans (by simp)

/-- Digits of one width are ordered as numbers. -/
theorem digits_append_lt_iff {ds es : List Char} (hd : Digits ds) (he : Digits es) (hlength : ds.length = es.length)
    (xs ys : List UInt8) : codes ds ++ xs < codes es ++ ys ↔
      Nat.ofDigitChars 10 ds 0 < Nat.ofDigitChars 10 es 0 ∨
        Nat.ofDigitChars 10 ds 0 = Nat.ofDigitChars 10 es 0 ∧ xs < ys := by
  induction ds generalizing es with
  | nil =>
    obtain rfl := List.length_eq_zero_iff.mp hlength.symm
    simp [codes]
  | cons d ds ih =>
    obtain ⟨e, es, rfl⟩ := List.exists_cons_of_length_eq_add_one hlength.symm
    have hlength : ds.length = es.length := by simpa using hlength
    have hda := digits_ascii hd d List.mem_cons_self
    have hea := digits_ascii he e List.mem_cons_self
    have hdb := Number.isDigit_bounds (hd d List.mem_cons_self)
    have heb := Number.isDigit_bounds (he e List.mem_cons_self)
    have hds : Digits ds := fun c hc => hd c (List.mem_cons_of_mem d hc)
    have hes : Digits es := fun c hc => he c (List.mem_cons_of_mem e hc)
    have hdlt := Number.ofDigitChars_lt hds
    have helt := Number.ofDigitChars_lt hes
    rw [← hlength] at helt
    rw [Text.codes_cons, Text.codes_cons, List.cons_append, List.cons_append, List.cons_lt_cons_iff, ih hds hes hlength,
      Text.toUInt8_lt hda hea, Text.toUInt8_inj hda hea, ← Char.toNat_inj, ofDigitChars_cons_zero,
      ofDigitChars_cons_zero, ← hlength]
    -- The first digit counts more than all the others.
    rcases Nat.lt_trichotomy d.toNat e.toNat with hlt | heq | hgt
    · have := Nat.mul_le_mul_left (10 ^ ds.length) (show d.toNat - 48 + 1 ≤ e.toNat - 48 by omega)
      rw [Nat.mul_add] at this
      exact iff_of_true (.inl hlt) (.inl (by omega))
    · rw [heq]
      simp
    · have := Nat.mul_le_mul_left (10 ^ ds.length) (show e.toNat - 48 + 1 ≤ d.toNat - 48 by omega)
      rw [Nat.mul_add] at this
      exact iff_of_false (by omega) (by omega)

theorem digits_padded (width n : Nat) : Digits (padded width n) :=
  (Number.digits_zeros _).append (Number.digits_toDigits n)

theorem length_padded {width n : Nat} (hwidth : 0 < width) (hn : n < 10 ^ width) : (padded width n).length = width := by
  have := (Nat.length_toDigits_le_iff (b := 10) (by decide) hwidth).mpr hn
  simp only [padded, List.length_append, List.length_replicate]
  omega

theorem ofDigitChars_padded (width n : Nat) : Nat.ofDigitChars 10 (padded width n) 0 = n := by
  rw [padded, Nat.ofDigitChars_append, Nat.ofDigitChars_replicate_zero, Nat.mul_zero, Nat.ofDigitChars_ten_toDigits]

theorem padded_append_lt_iff {width m n : Nat} (hwidth : 0 < width) (hm : m < 10 ^ width) (hn : n < 10 ^ width)
    (xs ys : List UInt8) :
    codes (padded width m) ++ xs < codes (padded width n) ++ ys ↔ m < n ∨ m = n ∧ xs < ys := by
  rw [digits_append_lt_iff (digits_padded width m) (digits_padded width n)
    ((length_padded hwidth hm).trans (length_padded hwidth hn).symm), ofDigitChars_padded, ofDigitChars_padded]

/-! ## Fractions -/

def fractionDigits (nanos : Nat) : List Char := Number.trimZeros (padded 9 nanos)

theorem fractionText_eq (nanos : Nat) :
    fractionText nanos = if nanos = 0 then [] else '.' :: fractionDigits nanos := rfl

theorem fractionDigits_append (nanos : Nat) :
    ∃ k, fractionDigits nanos ++ List.replicate k '0' = padded 9 nanos := Number.trimZeros_append _

theorem digits_fractionDigits (nanos : Nat) : Digits (fractionDigits nanos) := by
  obtain ⟨k, hk⟩ := fractionDigits_append nanos
  exact fun c hc => digits_padded 9 nanos c (hk ▸ List.mem_append_left _ hc)

/-- Whether the fraction of `m` nanoseconds has the first digits of the fraction of `n`, and not all of them. -/
def Hides (m n : Nat) : Prop := m ≠ n ∧ fractionText m <+: fractionText n

instance (m n : Nat) : Decidable (Hides m n) := inferInstanceAs (Decidable (_ ∧ _))

theorem fractionText_chars (nanos : Nat) : ∀ c ∈ fractionText nanos, c.toNat < 58 := by
  rw [fractionText_eq]
  split
  · simp
  · refine List.forall_mem_cons.mpr ⟨by decide, fun c hc => ?_⟩
    have := Number.isDigit_bounds (digits_fractionDigits nanos c hc)
    omega

section

variable {m n : Nat}

/-- A fraction that begins another is not greater. -/
theorem le_of_begins (hm : m < 1000000000) (hn : n < 1000000000) (h : fractionText m <+: fractionText n) : m ≤ n := by
  rw [fractionText_eq, fractionText_eq] at h
  split at h
  · omega
  · split at h
    · exact absurd (List.prefix_nil.mp h) (by simp)
    · obtain ⟨rest, hrest⟩ := (List.cons_prefix_cons.mp h).2
      obtain ⟨k, hk⟩ := fractionDigits_append m
      obtain ⟨l, hl⟩ := fractionDigits_append n
      have hlength : k = (rest ++ List.replicate l '0').length := by
        have hlengths := congrArg List.length hk
        have hlengthn := congrArg List.length hl
        rw [length_padded (by decide) hm, List.length_append, List.length_replicate] at hlengths
        rw [length_padded (by decide) hn, ← hrest, List.append_assoc, List.length_append] at hlengthn
        omega
      calc m = Nat.ofDigitChars 10 (fractionDigits m ++ List.replicate k '0') 0 := by rw [hk, ofDigitChars_padded]
        _ = 10 ^ k * Nat.ofDigitChars 10 (fractionDigits m) 0 := by
          rw [Nat.ofDigitChars_append, Nat.ofDigitChars_replicate_zero]
        _ ≤ Nat.ofDigitChars 10 (rest ++ List.replicate l '0') (Nat.ofDigitChars 10 (fractionDigits m) 0) := by
          rw [hlength]
          exact (Nat.le_add_right _ _).trans_eq Nat.ofDigitChars_eq_ofDigitChars_zero.symm
        _ = n := by rw [← Nat.ofDigitChars_append, ← List.append_assoc, hrest, hl, ofDigitChars_padded]

theorem fractionText_injective (hm : m < 1000000000) (hn : n < 1000000000) (h : fractionText m = fractionText n) :
    m = n :=
  Nat.le_antisymm (le_of_begins hm hn (h ▸ List.prefix_rfl)) (le_of_begins hn hm (h ▸ List.prefix_rfl))

theorem Hides.lt (hm : m < 1000000000) (hn : n < 1000000000) (h : Hides m n) : m < n :=
  Nat.lt_of_le_of_ne (le_of_begins hm hn h.2) h.1

/-- What hides another fraction comes after it. -/
theorem Hides.text_lt (hm : m < 1000000000) (hn : n < 1000000000) (h : Hides m n) :
    codes (fractionText n) ++ codes ['Z'] < codes (fractionText m) ++ codes ['Z'] := by
  obtain ⟨hne, rest, hrest⟩ := h
  cases rest with
  | nil => exact absurd (fractionText_injective hm hn ((List.append_nil _).symm.trans hrest)) hne
  | cons c rest =>
    have hc := fractionText_chars n c (hrest ▸ by simp)
    rw [← hrest, Text.codes_append, List.append_assoc]
    refine List.append_left_lt (List.cons_lt_cons_iff.mpr (.inl ?_))
    rw [Text.toUInt8_lt (by omega) (by decide)]
    exact Nat.lt_trans hc (by decide)

/-- Fractions compare by their texts as by their values, but for those that hide others. -/
theorem fraction_lt_iff (hm : m < 1000000000) (hn : n < 1000000000) :
    codes (fractionText m) ++ codes ['Z'] < codes (fractionText n) ++ codes ['Z'] ↔
      Hides n m ∨ m < n ∧ ¬Hides m n := by
  by_cases hmn : Hides m n
  · have := hmn.lt hm hn
    have hnm : ¬Hides n m := fun h => Nat.lt_asymm this (h.lt hn hm)
    simpa [hmn, hnm] using List.lt_asymm (hmn.text_lt hm hn)
  by_cases hnm : Hides n m
  · simpa [hnm] using hnm.text_lt hn hm
  by_cases heq : m = n
  · subst heq
    simp [hmn]
  -- Neither begins the other: then there are digits after the point, and some two of them differ.
  have hprefix : ¬fractionText m <+: fractionText n := fun h => hmn ⟨heq, h⟩
  have hprefix' : ¬fractionText n <+: fractionText m := fun h => hnm ⟨Ne.symm heq, h⟩
  simp only [hmn, hnm, false_or, not_false_eq_true, and_true]
  rw [fractionText_eq, fractionText_eq] at *
  have hm0 : m ≠ 0 := fun h => hprefix (by simp [h])
  have hn0 : n ≠ 0 := fun h => hprefix' (by simp [h])
  rw [if_neg hm0, if_neg hn0, List.prefix_cons_inj] at hprefix hprefix'
  rw [if_neg hm0, if_neg hn0, Text.codes_cons '.', Text.codes_cons '.', List.cons_append, List.cons_append,
    List.cons_lt_cons_self]
  obtain ⟨k, hk⟩ := fractionDigits_append m
  obtain ⟨l, hl⟩ := fractionDigits_append n
  rw [Text.codes_append_lt_iff (digits_ascii (digits_fractionDigits m)) (digits_ascii (digits_fractionDigits n)) hprefix
    hprefix' _ _ (codes (List.replicate k '0') ++ []) (codes (List.replicate l '0') ++ []), ← List.append_assoc,
    ← List.append_assoc, ← Text.codes_append, ← Text.codes_append, hk, hl, padded_append_lt_iff (by decide) hm hn]
  simp

end

/-! ## Texts -/

/-- Whether a timestamp is written with a year of four digits, in universal time. -/
structure Plain (t : Timestamp) : Prop extends Valid t where
  year_nonneg : 0 ≤ t.date.year
  year_le : t.date.year ≤ 9999
  offset : t.offset = 0

variable {t u : Timestamp}

def chars (t : Timestamp) : List Char :=
  padded 4 t.date.year.natAbs ++ '-' :: (padded 2 t.date.month ++ '-' :: (padded 2 t.date.day ++
    'T' :: (padded 2 t.hour ++ ':' :: (padded 2 t.minute ++ ':' :: (padded 2 t.second ++
    (fractionText t.nanos ++ ['Z']))))))

theorem Plain.text_eq (h : t.Plain) : t.text = String.ofList t.chars := by
  rw [text, yearText, if_neg (Int.not_lt.mpr h.year_nonneg), offsetText, if_pos h.offset]
  rfl

theorem chars_ascii (t : Timestamp) : ∀ c ∈ t.chars, c.toNat < 128 := by
  have hpadded : ∀ width n, ∀ c ∈ padded width n, c.toNat < 128 := fun width n => digits_ascii (digits_padded width n)
  have hfraction : ∀ c ∈ fractionText t.nanos, c.toNat < 128 := fun c hc => by
    have := fractionText_chars t.nanos c hc
    omega
  simp only [chars, List.forall_mem_append, List.forall_mem_cons]
  exact ⟨hpadded _ _, by decide, hpadded _ _, by decide, hpadded _ _, by decide, hpadded _ _, by decide, hpadded _ _,
    by decide, hpadded _ _, hfraction, by decide, by simp⟩

/-- The order of year, month, day, hour, minute and second. -/
def Before (t u : Timestamp) : Prop :=
  t.date.year < u.date.year ∨ t.date.year = u.date.year ∧ (t.date.month < u.date.month ∨
    t.date.month = u.date.month ∧ (t.date.day < u.date.day ∨ t.date.day = u.date.day ∧ (t.hour < u.hour ∨
    t.hour = u.hour ∧ (t.minute < u.minute ∨ t.minute = u.minute ∧ t.second < u.second))))

theorem Before.seconds_lt (h : Before t u) (ht : t.Plain) (hu : u.Plain) : t.seconds < u.seconds := by
  have hlate : t.secondOfDay < 86400 := by
    have := ht.hour
    have := ht.minute
    have := ht.second
    unfold secondOfDay
    omega
  have hearly : 0 ≤ u.secondOfDay := by
    unfold secondOfDay
    omega
  have hdays : t.date.number < u.date.number ∨ t.date = u.date ∧ t.secondOfDay < u.secondOfDay := by
    by_cases hsame : t.date = u.date
    · refine .inr ⟨hsame, ?_⟩
      have := ht.minute
      have := ht.second
      have := hu.minute
      have := hu.second
      unfold Before at h
      unfold secondOfDay
      rw [hsame] at h
      omega
    · refine .inl (Date.number_lt ht.date hu.date ?_)
      have hdiffer : ¬(t.date.year = u.date.year ∧ t.date.month = u.date.month ∧ t.date.day = u.date.day) := by
        rwa [Date.eq_iff] at hsame
      unfold Before at h
      omega
  unfold seconds
  rw [ht.offset, hu.offset]
  rcases hdays with hlt | ⟨heq, hlt⟩
  · omega
  · rw [heq]
    omega

theorem before_trichotomy (t u : Timestamp) :
    Before t u ∨ (t.date = u.date ∧ t.hour = u.hour ∧ t.minute = u.minute ∧ t.second = u.second) ∨ Before u t := by
  rw [Date.eq_iff]
  unfold Before
  omega

/-- **The order of timestamps by their texts.** -/
theorem Plain.text_lt_iff (ht : t.Plain) (hu : u.Plain) :
    Text.bytes t.text < Text.bytes u.text ↔ t.seconds < u.seconds ∨
      t.seconds = u.seconds ∧ (Hides u.nanos t.nanos ∨ t.nanos < u.nanos ∧ ¬Hides t.nanos u.nanos) := by
  rw [ht.text_eq, hu.text_eq, Text.bytes_ofList (chars_ascii t), Text.bytes_ofList (chars_ascii u),
    ← fraction_lt_iff ht.nanos hu.nanos]
  have hbounds : ∀ {v : Timestamp}, v.Plain → v.date.year.natAbs < 10 ^ 4 ∧ v.date.month < 10 ^ 2 ∧
      v.date.day < 10 ^ 2 ∧ v.hour < 10 ^ 2 ∧ v.minute < 10 ^ 2 ∧ v.second < 10 ^ 2 := by
    intro v hv
    have := hv.year_nonneg
    have := hv.year_le
    have := hv.date.month_le
    have := hv.date.day_le
    have := Date.monthLength_le v.date.year v.date.month
    have := hv.hour
    have := hv.minute
    have := hv.second
    omega
  obtain ⟨hyear, hmonth, hday, hhour, hminute, hsecond⟩ := hbounds ht
  obtain ⟨hyear', hmonth', hday', hhour', hminute', hsecond'⟩ := hbounds hu
  simp only [chars, Text.codes_append, Text.codes_cons]
  rw [padded_append_lt_iff (by decide) hyear hyear', List.cons_lt_cons_self,
    padded_append_lt_iff (by decide) hmonth hmonth', List.cons_lt_cons_self,
    padded_append_lt_iff (by decide) hday hday', List.cons_lt_cons_self,
    padded_append_lt_iff (by decide) hhour hhour', List.cons_lt_cons_self,
    padded_append_lt_iff (by decide) hminute hminute', List.cons_lt_cons_self,
    padded_append_lt_iff (by decide) hsecond hsecond']
  generalize (codes (fractionText t.nanos) ++ _ < codes (fractionText u.nanos) ++ _) = later
  have hlt : t.date.year.natAbs < u.date.year.natAbs ↔ t.date.year < u.date.year := by
    have := ht.year_nonneg
    have := hu.year_nonneg
    omega
  have heq : t.date.year.natAbs = u.date.year.natAbs ↔ t.date.year = u.date.year := by
    have := ht.year_nonneg
    have := hu.year_nonneg
    omega
  rw [hlt, heq]
  -- By the fields of the timestamps, either comes before the other, or their seconds are the same.
  rcases before_trichotomy t u with hbefore | ⟨hdate, hhour, hminute, hsecond⟩ | hbefore
  · refine iff_of_true ?_ (.inl (hbefore.seconds_lt ht hu))
    unfold Before at hbefore
    tauto
  · have hseconds : t.seconds = u.seconds := by
      rw [seconds, seconds, secondOfDay, secondOfDay, hdate, hhour, hminute, hsecond, ht.offset, hu.offset]
    simp [hdate, hhour, hminute, hsecond, hseconds]
  · have := hbefore.seconds_lt hu ht
    refine iff_of_false ?_ (by omega)
    unfold Before at hbefore
    omega

end Timestamp

end Forager
