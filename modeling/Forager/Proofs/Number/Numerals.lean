import Mathlib.Data.List.Basic
import Mathlib.Tactic.Common
import Forager.Number.Layout
import Forager.Number.Read

/-!
# Reading numerals

* `Digits cs` : the characters are decimal digits;
* `Written cs v f` : `cs` is a sequence of digits with at most one point, of value `v` without the point, and with `f`
  digits after it;
* `Denotes cs v e` : `cs` is a numeral for `v * 10 ^ e`;
* `Denotes.real?_eq` : a numeral with a sign is read as the number it denotes.
-/

namespace Forager.Number

set_option autoImplicit false

/-! ## Digits -/

def Digits (cs : List Char) : Prop := ∀ c ∈ cs, c.isDigit = true

theorem Digits.append {as bs : List Char} (ha : Digits as) (hb : Digits bs) : Digits (as ++ bs) := by
  intro c hc
  rcases List.mem_append.mp hc with h | h
  · exact ha c h
  · exact hb c h

theorem digits_toDigits (n : Nat) : Digits (Nat.toDigits 10 n) := fun _ hc =>
  Nat.isDigit_of_mem_toDigits (by decide) (by decide) hc

theorem digits_zeros (n : Nat) : Digits (List.replicate n '0') := fun c hc => by
  rw [List.eq_of_mem_replicate hc]
  rfl

theorem isDigit_bounds {c : Char} (h : c.isDigit = true) : 48 ≤ c.toNat ∧ c.toNat ≤ 57 := by
  simp only [Char.isDigit, Bool.and_eq_true, decide_eq_true_eq, ge_iff_le, UInt32.le_iff_toNat_le] at h
  exact h

theorem digitOf?_ten {c : Char} (h : c.isDigit = true) : digitOf? 10 c = some (c.toNat - '0'.toNat) := by
  have hlt : c.toNat - '0'.toNat < 10 := by
    have := isDigit_bounds h
    have : '0'.toNat = 48 := rfl
    omega
  simp only [digitOf?, digitValue?, if_pos h, Option.filter_some, hlt, decide_true, if_true]

theorem ne_of_isDigit {c d : Char} (h : c.isDigit = true) (hd : d.isDigit = false) : c ≠ d := by
  rintro rfl
  rw [h] at hd
  cases hd

def isNumeral (c : Char) : Bool := c.isDigit || c = '.' || c = 'e' || c = '+' || c = '-'

theorem isNumeral_of_isDigit {c : Char} (h : c.isDigit = true) : isNumeral c = true := by
  simp [isNumeral, h]

theorem toLower_of_isNumeral {c : Char} (h : isNumeral c = true) : c.toLower = c := by
  simp only [isNumeral, Bool.or_eq_true, decide_eq_true_eq] at h
  rcases h with (((h | rfl) | rfl) | rfl) | rfl
  · have hbounds := isDigit_bounds h
    unfold Char.toLower
    rw [dif_neg]
    rintro ⟨hA, -⟩
    have : 65 ≤ c.toNat := UInt32.le_iff_toNat_le.mp hA
    omega
  all_goals rfl

/-- No numeral has a letter other than the mark of the exponent. -/
theorem toLower_ne_of_isNumeral {c d : Char} (h : isNumeral c = true) (hd : isNumeral d = false) : c.toLower ≠ d := by
  rintro rfl
  rw [toLower_of_isNumeral h, h] at hd
  cases hd

/-! ## Mantissas -/

/-- A sequence of digits with at most one point. -/
inductive Written : List Char → Nat → Nat → Prop where
  | whole {ds : List Char} (hds : Digits ds) (hne : ds ≠ []) : Written ds (Nat.ofDigitChars 10 ds 0) 0
  | point {ds fs : List Char} (hds : Digits ds) (hne : ds ≠ []) (hfs : Digits fs) :
    Written (ds ++ '.' :: fs) (Nat.ofDigitChars 10 (ds ++ fs) 0) fs.length

/-- Scanning digits accumulates their value. -/
theorem scan_digits {ds : List Char} (hds : Digits ds) (m : Mantissa) (rest : List Char) :
    Mantissa.scan 10 m (ds ++ rest) =
      Mantissa.scan 10 ⟨Nat.ofDigitChars 10 ds m.value, if m.pointed then m.fraction + ds.length else m.fraction,
        m.pointed, m.seen || !ds.isEmpty⟩ rest := by
  induction ds generalizing m with
  | nil =>
    obtain ⟨value, fraction, pointed, seen⟩ := m
    cases pointed <;> simp
  | cons c ds ih =>
    have hc := hds c List.mem_cons_self
    rw [List.cons_append, Mantissa.scan, if_neg (ne_of_isDigit hc rfl), if_neg (ne_of_isDigit hc rfl),
      digitOf?_ten hc]
    simp only
    rw [ih fun x hx => hds x (List.mem_cons_of_mem c hx), Nat.ofDigitChars_cons, Nat.mul_comm]
    cases m.pointed <;> simp [Nat.add_assoc, Nat.add_comm 1]

/-- What stops the scan: nothing, or the mark of an exponent. -/
inductive Stops : List Char → Prop where
  | nil : Stops []
  | mark (cs : List Char) : Stops ('e' :: cs)

theorem scan_stops {rest : List Char} (h : Stops rest) (m : Mantissa) : Mantissa.scan 10 m rest = (m, rest) := by
  cases h with
  | nil => rfl
  | mark cs => rfl

theorem Written.scan_eq {cs rest : List Char} {v f : Nat} (h : Written cs v f) (hrest : Stops rest) :
    ∃ pointed, Mantissa.scan 10 ⟨0, 0, false, false⟩ (cs ++ rest) = (⟨v, f, pointed, true⟩, rest) := by
  cases h with
  | whole hds hne =>
    refine ⟨false, ?_⟩
    rw [scan_digits hds, scan_stops hrest]
    simp [hne]
  | point hds hne hfs =>
    refine ⟨true, ?_⟩
    rw [List.append_assoc, scan_digits hds, List.cons_append, Mantissa.scan, if_neg (by decide), if_pos rfl]
    simp only [Bool.false_eq_true, if_false]
    rw [scan_digits hfs, scan_stops hrest]
    simp [hne, Nat.ofDigitChars_append]

/-! ## Exponents -/

theorem le_ofDigitChars (cs : List Char) (n : Nat) : n ≤ Nat.ofDigitChars 10 cs n := by
  rw [Nat.ofDigitChars_eq_ofDigitChars_zero]
  have := Nat.one_le_pow cs.length 10 (by decide)
  have := Nat.le_mul_of_pos_left n this
  omega

/-- As long as its value is not cut off, an exponent is read as it stands. -/
theorem scanExponent_eq {cs : List Char} (hcs : Digits cs) {n : Nat} (h : Nat.ofDigitChars 10 cs n < 10000) :
    scanExponent n cs = some (Nat.ofDigitChars 10 cs n) := by
  induction cs generalizing n with
  | nil => rfl
  | cons c cs ih =>
    have hc := hcs c List.mem_cons_self
    have hsmall : n < 10000 := Nat.lt_of_le_of_lt (le_ofDigitChars (c :: cs) n) h
    rw [Nat.ofDigitChars_cons] at h ⊢
    rw [scanExponent, if_neg (ne_of_isDigit hc rfl), digitOf?_ten hc]
    simp only
    rw [if_pos hsmall, Nat.mul_comm n]
    exact ih (fun x hx => hcs x (List.mem_cons_of_mem c hx)) h

theorem exponent?_exponentText (w : ExponentWidth) {e : Int} (he : e.natAbs < 10000) :
    exponent? (exponentText w e) = some e := by
  have hdigits : ∀ k, Digits (List.replicate k '0' ++ Nat.toDigits 10 e.natAbs) := fun k =>
    (digits_zeros k).append (digits_toDigits _)
  have hvalue : ∀ k, Nat.ofDigitChars 10 (List.replicate k '0' ++ Nat.toDigits 10 e.natAbs) 0 = e.natAbs := by
    intro k
    rw [Nat.ofDigitChars_append, Nat.ofDigitChars_replicate_zero, Nat.mul_zero, Nat.ofDigitChars_ten_toDigits]
  have hread : ∀ k, ∃ c cs, List.replicate k '0' ++ Nat.toDigits 10 e.natAbs = c :: cs ∧ c.isDigit = true ∧
      scanExponent 0 (c :: cs) = some e.natAbs := by
    intro k
    match hcs : List.replicate k '0' ++ Nat.toDigits 10 e.natAbs with
    | [] => exact absurd (List.append_eq_nil_iff.mp hcs).2 Nat.toDigits_ne_nil
    | c :: cs =>
      have hscan := scanExponent_eq (hdigits k) (n := 0) (by rw [hvalue]; exact he)
      rw [hvalue, hcs] at hscan
      exact ⟨c, cs, rfl, hdigits k c (by rw [hcs]; exact List.mem_cons_self), hscan⟩
  unfold exponent? exponentText
  by_cases hneg : e < 0
  · obtain ⟨c, cs, hcs, hc, hscan⟩ := hread (w.negative - (Nat.toDigits 10 e.natAbs).length)
    simp only [if_pos hneg, splitSign, hcs, hc, hscan, if_true]
    change some (-(e.natAbs : Int)) = some e
    rw [show -(e.natAbs : Int) = e by omega]
  · obtain ⟨c, cs, hcs, hc, hscan⟩ := hread (w.positive - (Nat.toDigits 10 e.natAbs).length)
    simp only [if_neg hneg, splitSign, hcs, hc, hscan, if_true]
    change some (e.natAbs : Int) = some e
    rw [show (e.natAbs : Int) = e by omega]

/-! ## Numerals -/

/-- A numeral for `v * 10 ^ e`. -/
inductive Denotes : List Char → Nat → Int → Prop where
  | plain {cs : List Char} {v f : Nat} (h : Written cs v f) : Denotes cs v (-f)
  | scaled {cs : List Char} {v f : Nat} (h : Written cs v f) (w : ExponentWidth) {k : Int} (hk : k.natAbs < 10000) :
    Denotes (cs ++ 'e' :: exponentText w k) v (k - f)

theorem Written.isNumeral {cs : List Char} {v f : Nat} (h : Written cs v f) : ∀ c ∈ cs, isNumeral c = true := by
  cases h with
  | whole hds hne => exact fun c hc => isNumeral_of_isDigit (hds c hc)
  | point hds hne hfs =>
    intro c hc
    rcases List.mem_append.mp hc with hc | hc
    · exact isNumeral_of_isDigit (hds c hc)
    · rcases List.mem_cons.mp hc with rfl | hc
      · rfl
      · exact isNumeral_of_isDigit (hfs c hc)

theorem isNumeral_exponentText (w : ExponentWidth) (e : Int) : ∀ c ∈ exponentText w e, isNumeral c = true := by
  intro c hc
  rcases List.mem_cons.mp hc with rfl | hc
  · split <;> rfl
  · exact isNumeral_of_isDigit (((digits_zeros _).append (digits_toDigits _)) c hc)

theorem Denotes.isNumeral {cs : List Char} {v : Nat} {e : Int} (h : Denotes cs v e) :
    ∀ c ∈ cs, isNumeral c = true := by
  cases h with
  | plain h => exact h.isNumeral
  | scaled h w hk =>
    intro c hc
    rcases List.mem_append.mp hc with hc | hc
    · exact h.isNumeral c hc
    · rcases List.mem_cons.mp hc with rfl | hc
      · rfl
      · exact isNumeral_exponentText w _ c hc

theorem Written.head {cs : List Char} {v f : Nat} (h : Written cs v f) :
    ∃ c rest, cs = c :: rest ∧ c.isDigit = true := by
  cases h with
  | whole hds hne =>
    obtain ⟨c, rest, rfl⟩ := List.exists_cons_of_ne_nil hne
    exact ⟨c, rest, rfl, hds c List.mem_cons_self⟩
  | point hds hne hfs =>
    obtain ⟨c, rest, rfl⟩ := List.exists_cons_of_ne_nil hne
    exact ⟨c, _, rfl, hds c List.mem_cons_self⟩

theorem Denotes.head {cs : List Char} {v : Nat} {e : Int} (h : Denotes cs v e) :
    ∃ c rest, cs = c :: rest ∧ c.isDigit = true := by
  cases h with
  | plain h => exact h.head
  | scaled h w hk =>
    obtain ⟨c, rest, rfl, hc⟩ := h.head
    exact ⟨c, _, rfl, hc⟩

/-! ## Reading -/

/-- Without a mark of the base a numeral is decimal. -/
theorem magnitude?_eq_decimal? {cs : List Char} (h : ∀ c ∈ cs, isNumeral c = true) :
    magnitude? cs = magnitude?.decimal? cs := by
  unfold magnitude?
  split
  · rename_i x rest
    have hx := h x (List.mem_cons_of_mem _ List.mem_cons_self)
    rw [if_neg (toLower_ne_of_isNumeral hx rfl)]
  · rfl

theorem Denotes.magnitude?_eq {cs : List Char} {v : Nat} {e : Int} (h : Denotes cs v e) :
    magnitude? cs = some (ofDecimal v e) := by
  rw [magnitude?_eq_decimal? h.isNumeral]
  cases h with
  | plain h =>
    obtain ⟨pointed, hscan⟩ := h.scan_eq .nil
    rw [List.append_nil] at hscan
    rw [magnitude?.decimal?, hscan]
    rfl
  | scaled h w hk =>
    obtain ⟨pointed, hscan⟩ := h.scan_eq (.mark (exponentText w _))
    rw [magnitude?.decimal?, hscan]
    simp only [exponent?_exponentText w hk]
    rfl

theorem separates_of_isNumeral {cs : List Char} (h : ∀ c ∈ cs, isNumeral c = true) {before : Before}
    (hb : before ≠ .underscore) (hex : Bool) : separates hex before cs = true := by
  induction cs generalizing before with
  | nil => simpa [separates] using hb
  | cons c cs ih =>
    have hc := h c List.mem_cons_self
    have hrest := fun x hx => h x (List.mem_cons_of_mem c hx)
    have hne : c ≠ '_' := by
      rintro rfl
      cases hc
    rw [separates]
    by_cases hdigit : (digitOf? (if hex then 16 else 10) c).isSome = true
    · rw [if_pos hdigit]
      exact ih hrest (by decide)
    · rw [if_neg hdigit, if_neg hne, ih hrest (by decide)]
      simpa using hb

theorem isNumeral_splitSign {cs : List Char} (h : ∀ c ∈ cs, isNumeral c = true) :
    ∀ c ∈ (splitSign cs).2, isNumeral c = true := by
  intro c hc
  unfold splitSign at hc
  split at hc
  · exact h c (List.mem_cons_of_mem _ hc)
  · exact h c (List.mem_cons_of_mem _ hc)
  · exact h c hc

theorem underscoresFit_of_isNumeral {cs : List Char} (h : ∀ c ∈ cs, isNumeral c = true) :
    underscoresFit cs = true := by
  have hsplit := isNumeral_splitSign h
  unfold underscoresFit
  split
  · rename_i b rest heq
    rw [heq] at hsplit
    have hb := hsplit b (List.mem_cons_of_mem _ List.mem_cons_self)
    rw [if_neg (toLower_ne_of_isNumeral hb rfl), if_neg]
    · exact separates_of_isNumeral hsplit (by decide) _
    · simp [toLower_ne_of_isNumeral hb (d := 'b') rfl, toLower_ne_of_isNumeral hb (d := 'o') rfl]
  · exact separates_of_isNumeral hsplit (by decide) _

/-- Every named value has an `n` in its name. -/
theorem named?_of_isNumeral {cs : List Char} (h : ∀ c ∈ cs, isNumeral c = true) : named? cs = none := by
  have hno : ∀ (ds word : List Char), (∀ c ∈ ds, isNumeral c = true) → 'n' ∈ word → ds.map Char.toLower ≠ word := by
    rintro ds word hds hn rfl
    obtain ⟨c, hc, hlower⟩ := List.mem_map.mp hn
    exact toLower_ne_of_isNumeral (hds c hc) rfl hlower
  have hword : ∀ word : String, 'n' ∈ word.toList → String.ofList ((splitSign cs).2.map Char.toLower) ≠ word := by
    rintro word hn rfl
    rw [String.toList_ofList] at hn
    exact hno _ _ (isNumeral_splitSign h) hn rfl
  unfold named?
  simp only [hword "inf" (by decide), hword "infinity" (by decide), hno cs "nan".toList h (by decide), decide_false,
    Bool.or_self, Bool.false_eq_true, if_false]

def signed (negative : Bool) (cs : List Char) : List Char := if negative then '-' :: cs else cs

theorem isNumeral_signed {cs : List Char} (h : ∀ c ∈ cs, isNumeral c = true) (negative : Bool) :
    ∀ c ∈ signed negative cs, isNumeral c = true := by
  cases negative with
  | false => exact h
  | true =>
    intro c hc
    rcases List.mem_cons.mp hc with rfl | hc
    · rfl
    · exact h c hc

theorem splitSign_signed {cs : List Char} (h : ∃ c rest, cs = c :: rest ∧ c.isDigit = true) (negative : Bool) :
    splitSign (signed negative cs) = (negative, cs) := by
  cases negative with
  | true => rfl
  | false =>
    obtain ⟨c, rest, rfl, hc⟩ := h
    rw [signed, if_neg (by decide)]
    unfold splitSign
    split
    · rename_i heq
      cases heq
      cases hc
    · rename_i heq
      cases heq
      cases hc
    · rfl

/-- **Numerals are read** as the numbers they denote, if there are such doubles. -/
theorem Denotes.real?_eq {cs : List Char} {v : Nat} {e : Int} (h : Denotes cs v e) (negative : Bool)
    (hfinite : isFinite (ofDecimal v e) = true) :
    real? (String.ofList (signed negative cs)) = .ok (if negative then -ofDecimal v e else ofDecimal v e) := by
  have hsigned := isNumeral_signed h.isNumeral negative
  unfold real?
  simp only [String.toList_ofList, named?_of_isNumeral hsigned, splitSign_signed h.head, h.magnitude?_eq,
    underscoresFit_of_isNumeral hsigned, hfinite, Bool.not_true, Bool.false_eq_true, if_false]

end Forager.Number
