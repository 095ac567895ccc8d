import Forager.Timestamp
import Mathlib.Tactic.MkIffOfInductiveProp
import Mathlib.Tactic.Ring

/-!
# Days and moments

* `Date.Valid`, `Timestamp.Valid` : days of the calendar and times of day;
* `Date.number_lt` : days are numbered in the order of year, month and day;
* `Date.shift_spec` : days earlier and later;
* `Timestamp.utc_valid`, `Timestamp.seconds_utc` : universal time keeps the moment.
-/

namespace Forager

set_option autoImplicit false

namespace Date

@[mk_iff] structure Valid (d : Date) : Prop where
  month_pos : 1 ≤ d.month
  month_le : d.month ≤ 12
  day_pos : 1 ≤ d.day
  day_le : d.day ≤ monthLength d.year d.month

instance (d : Date) : Decidable d.Valid := decidable_of_iff _ d.valid_iff.symm

theorem eq_iff {d e : Date} : d = e ↔ d.year = e.year ∧ d.month = e.month ∧ d.day = e.day := by
  cases d
  cases e
  simp

theorem monthLength_le (year : Int) (month : Nat) : monthLength year month ≤ 31 := by
  unfold monthLength
  split
  · split <;> omega
  · split <;> omega

theorem monthLength_pos (year : Int) (month : Nat) : 28 ≤ monthLength year month := by
  unfold monthLength
  split
  · split <;> omega
  · split <;> omega

theorem daysBefore_succ (year : Int) {month : Nat} (h : 1 ≤ month) :
    daysBefore year (month + 1) = daysBefore year month + monthLength year month := by
  have hsum : ∀ n, (List.range n).foldr (fun i n => monthLength year (i + 1) + n) 0 =
      ((List.range n).map fun i => monthLength year (i + 1)).sum := fun n => by
    rw [List.sum, List.foldr_map]
  obtain ⟨n, rfl⟩ : ∃ n, month = n + 1 := ⟨month - 1, by omega⟩
  unfold daysBefore
  rw [hsum, hsum, Nat.add_sub_cancel, Nat.add_sub_cancel, List.range_succ, List.map_append, List.sum_append]
  simp

/-- Months begin after the days of the months before. -/
theorem daysBefore_lt (year : Int) {month later : Nat} (h : 1 ≤ month) (hlater : month < later) :
    daysBefore year month + monthLength year month ≤ daysBefore year later := by
  induction hlater with
  | refl => rw [daysBefore_succ year h]
  | step hle ih =>
    rw [daysBefore_succ year (by simp at hle; omega)]
    omega

def yearLength (year : Int) : Nat := if isLeap year then 366 else 365

theorem daysBefore_december (year : Int) : daysBefore year 12 + 31 = yearLength year := by
  unfold daysBefore yearLength
  simp only [List.range, List.range.loop, List.foldr, monthLength]
  cases isLeap year <;> rfl

def yearStart (year : Int) : Int := 365 * (year - 1) + (year - 1) / 4 - (year - 1) / 100 + (year - 1) / 400

theorem number_eq (d : Date) : d.number = yearStart d.year + (daysBefore d.year d.month + d.day : Nat) := by
  simp only [number, yearStart]
  omega

theorem yearStart_succ (year : Int) : yearStart (year + 1) = yearStart year + yearLength year := by
  have hleap : isLeap year = true ↔ year % 4 = 0 ∧ (year % 100 ≠ 0 ∨ year % 400 = 0) := by
    simp [isLeap]
  have hquarter : year / 4 = (year - 1) / 4 + if year % 4 = 0 then 1 else 0 := by split <;> omega
  have hcentury : year / 100 = (year - 1) / 100 + if year % 100 = 0 then 1 else 0 := by split <;> omega
  have hcycle : year / 400 = (year - 1) / 400 + if year % 400 = 0 then 1 else 0 := by split <;> omega
  have hdivides : (year % 100 = 0 → year % 4 = 0) ∧ (year % 400 = 0 → year % 100 = 0) := by omega
  unfold yearStart yearLength
  rw [add_sub_cancel_right, hquarter, hcentury, hcycle]
  by_cases h : isLeap year = true
  · have := hleap.mp h
    rw [if_pos h]
    omega
  · have := mt hleap.mpr h
    rw [if_neg h]
    omega

/-- Years begin after the days of the years before. -/
theorem yearStart_lt {year later : Int} (h : year < later) : yearStart year + yearLength year ≤ yearStart later := by
  obtain ⟨n, rfl⟩ : ∃ n : Nat, later = year + 1 + n := ⟨(later - year - 1).toNat, by omega⟩
  clear h
  induction n with
  | zero => simp [yearStart_succ]
  | succ n ih =>
    rw [Nat.cast_succ, ← add_assoc, yearStart_succ]
    omega

section

variable {d e : Date}

theorem Valid.ordinal_le (h : d.Valid) : daysBefore d.year d.month + d.day ≤ yearLength d.year := by
  have hday := h.day_le
  rw [← daysBefore_december]
  rcases Nat.lt_or_ge d.month 12 with hmonth | hmonth
  · have := daysBefore_lt d.year h.month_pos hmonth
    omega
  · have hdecember : d.month = 12 := Nat.le_antisymm h.month_le hmonth
    rw [hdecember] at hday ⊢
    have : monthLength d.year 12 = 31 := rfl
    omega

/-- Days are numbered in order. -/
theorem number_lt (hd : d.Valid) (he : e.Valid)
    (h : d.year < e.year ∨ d.year = e.year ∧ (d.month < e.month ∨ d.month = e.month ∧ d.day < e.day)) :
    d.number < e.number := by
  rw [number_eq, number_eq]
  rcases h with hyear | ⟨hyear, hmonth | ⟨hmonth, hday⟩⟩
  · have hstart := yearStart_lt hyear
    have hlast := hd.ordinal_le
    have hfirst := he.day_pos
    omega
  · have hstart := daysBefore_lt d.year hd.month_pos hmonth
    have hlast := hd.day_le
    have hfirst := he.day_pos
    rw [← hyear]
    omega
  · rw [hyear, hmonth]
    omega

/-! ## Days before and after -/

theorem next_valid (h : d.Valid) : d.next.Valid := by
  unfold next
  split
  · exact ⟨h.month_pos, h.month_le, by simp, by simpa using ‹_›⟩
  · split
    · have := monthLength_pos d.year (d.month + 1)
      exact ⟨by simp, by simp only; omega, by simp, by simp only; omega⟩
    · exact ⟨by simp, by simp, by simp, Nat.le_of_ble_eq_true rfl⟩

theorem number_next (h : d.Valid) : d.next.number = d.number + 1 := by
  have hday := h.day_le
  unfold next
  split
  · simp only [number_eq]
    omega
  · split
    · simp only [number_eq, daysBefore_succ d.year h.month_pos]
      omega
    · have hmonth : d.month = 12 := by have := h.month_le; omega
      have hyear := daysBefore_december d.year
      have hlength : monthLength d.year 12 = 31 := rfl
      have hjanuary : daysBefore (d.year + 1) 1 = 0 := rfl
      simp only [number_eq, yearStart_succ, hmonth, hjanuary] at *
      omega

theorem previous_valid (h : d.Valid) : d.previous.Valid := by
  have hday := h.day_le
  unfold previous
  split
  · exact ⟨h.month_pos, h.month_le, by simp only; omega, by simp only; omega⟩
  · split
    · have := monthLength_pos d.year (d.month - 1)
      have := h.month_le
      exact ⟨by simp only; omega, by simp only; omega, by simp only; omega, le_rfl⟩
    · exact ⟨by simp, by simp, by simp, le_rfl⟩

theorem next_previous (h : d.Valid) : d.previous.next = d := by
  have hday := h.day_le
  have hmonth := h.month_le
  obtain ⟨year, month, day⟩ := d
  unfold previous
  split
  · rw [next, if_pos (by simp only at *; omega)]
    simp only at *
    rw [Nat.sub_add_cancel (by omega)]
  · have hfirst : day = 1 := by have := h.day_pos; simp only at *; omega
    split
    · rw [next, if_neg (lt_irrefl _), if_pos (by simp only at *; omega)]
      simp only at *
      rw [Nat.sub_add_cancel (by omega), hfirst]
    · have hjanuary : month = 1 := by have := h.month_pos; simp only at *; omega
      have hlast : ¬31 < monthLength (year - 1) 12 := lt_irrefl 31
      rw [next, if_neg hlast, if_neg (lt_irrefl 12), hfirst, hjanuary]
      simp

theorem number_previous (h : d.Valid) : d.previous.number = d.number - 1 := by
  have hnext := number_next (previous_valid h)
  rw [next_previous h] at hnext
  omega

theorem repeat_next (h : d.Valid) (n : Nat) :
    (Nat.repeat next n d).Valid ∧ (Nat.repeat next n d).number = d.number + n := by
  induction n with
  | zero => exact ⟨h, (add_zero _).symm⟩
  | succ n ih =>
    refine ⟨next_valid ih.1, (number_next ih.1).trans ?_⟩
    rw [ih.2]
    omega

theorem repeat_previous (h : d.Valid) (n : Nat) :
    (Nat.repeat previous n d).Valid ∧ (Nat.repeat previous n d).number = d.number - n := by
  induction n with
  | zero => exact ⟨h, (sub_zero _).symm⟩
  | succ n ih =>
    refine ⟨previous_valid ih.1, (number_previous ih.1).trans ?_⟩
    rw [ih.2]
    omega

theorem shift_spec (h : d.Valid) (n : Int) : (d.shift n).Valid ∧ (d.shift n).number = d.number + n := by
  cases n with
  | ofNat n => exact repeat_next h n
  | negSucc n =>
    obtain ⟨hvalid, hnumber⟩ := repeat_previous h (n + 1)
    exact ⟨hvalid, hnumber.trans (by omega)⟩

end

end Date

namespace Timestamp

/-- Whether the date and the time of day are valid. -/
@[mk_iff] structure Valid (t : Timestamp) : Prop where
  date : t.date.Valid
  hour : t.hour < 24
  minute : t.minute < 60
  second : t.second < 60
  nanos : t.nanos < 1000000000

instance (t : Timestamp) : Decidable t.Valid := decidable_of_iff _ t.valid_iff.symm

variable {t : Timestamp}

theorem utc_valid (h : t.Valid) : t.utc.Valid := by
  unfold utc ofSeconds
  generalize t.secondOfDay - t.offset * 60 = seconds
  exact ⟨(Date.shift_spec h.date _).1, by simp only; omega, by simp only; omega, by simp only; omega, h.nanos⟩

def seconds (t : Timestamp) : Int := t.date.number * 86400 + t.secondOfDay - t.offset * 60

theorem instant_eq (t : Timestamp) : t.instant = t.seconds * 1000000000 + t.nanos := rfl

theorem seconds_utc (h : t.Valid) : t.utc.seconds = t.seconds := by
  unfold seconds utc ofSeconds
  rw [(Date.shift_spec h.date _).2]
  simp only [secondOfDay]
  omega

end Timestamp

end Forager
