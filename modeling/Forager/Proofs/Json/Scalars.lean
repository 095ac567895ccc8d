import Forager.Json.Parse
import Forager.Proofs.Number.RoundTrip

/-!
# Strings and numbers in JSON

* `Quotable source` : what stands between quotes and is scanned up to the closing one;
* `quotable_escape`, `unescape_escape` : escaped texts are, and they read back;
* `Numeral cs` : the numbers of JSON, which `scanNumber` reads up to where they end;
* `numeral_toString`, `numeral_text` : the texts of integers and of finite doubles are such numbers.
-/

namespace Forager.Json

set_option autoImplicit false

open Number (Digits signed)

/-! ## Strings -/

/-- Whether this can stand between quotes. -/
def Quotable (source : List Char) : Prop := ∀ rest, scanString (source ++ '"' :: rest) = some (source, rest)

/-- The ways in which a character is written between quotes. -/
inductive Escaped : Char → List Char → Prop where
  | short {c letter : Char} (h : (c, letter) ∈ shortEscapes) : Escaped c ['\\', letter]
  | code {c a₁ a₂ a₃ a₄ : Char} (h : c.toNat < 0xD800) (hcode : hex4? [a₁, a₂, a₃, a₄] = some (c.toNat, [])) :
    Escaped c ['\\', 'u', a₁, a₂, a₃, a₄]
  | plain {c : Char} (hquote : c ≠ '"') (hback : c ≠ '\\') (h : 0x20 ≤ c.toNat) : Escaped c [c]

theorem digitValue?_digitChar : ∀ n < 16, Number.digitValue? (Nat.digitChar n) = some n := by decide

theorem hex4?_hex {n : Nat} (h : n < 0x10000) : hex4? (Text.hex 4 n) = some (n, []) := by
  have hdigit : ∀ k, Number.digitValue? (Nat.digitChar (k % 16)) = some (k % 16) := fun k =>
    digitValue?_digitChar _ (Nat.mod_lt k (by decide))
  have hhex : Text.hex 4 n = [Nat.digitChar (n / 4096 % 16), Nat.digitChar (n / 256 % 16), Nat.digitChar (n / 16 % 16),
      Nat.digitChar (n / 1 % 16)] := rfl
  rw [hhex]
  simp only [hex4?, hdigit, Option.bind_eq_bind, Option.bind_some, Option.pure_def, Option.some.injEq, Prod.mk.injEq,
    and_true]
  omega

theorem escaped_escapeChar (c : Char) : Escaped c (escapeChar c) := by
  unfold escapeChar
  split
  · rename_i x letter hfind
    obtain rfl : x = c := by simpa using List.find?_some hfind
    exact .short (List.mem_of_find?_eq_some hfind)
  · rename_i hfind
    have hshort : ∀ p ∈ shortEscapes, p.1 ≠ c := fun p hp => by
      simpa using List.find?_eq_none.mp hfind p hp
    split
    · rename_i hcode
      have hsmall : c.toNat < 0xD800 := by
        simp only [isEscapedByCode, Bool.or_eq_true, decide_eq_true_eq] at hcode
        rcases hcode with ((((h | rfl) | rfl) | rfl) | h) | h <;> first | omega | decide
      exact .code hsmall (hex4?_hex (by omega))
    · rename_i hcode
      simp only [isEscapedByCode, Bool.or_eq_true, decide_eq_true_eq, not_or] at hcode
      exact .plain (hshort ('"', '"') (by decide)).symm (hshort ('\\', '\\') (by decide)).symm (by omega)

/-- One character more between the quotes. -/
theorem Escaped.scanString_append {c : Char} {written : List Char} (h : Escaped c written) (cs : List Char) :
    scanString (written ++ cs) = (scanString cs).map fun (source, after) => (written ++ source, after) := by
  cases h with
  | short hmem =>
    simp only [shortEscapes, List.mem_cons, Prod.mk.injEq, List.not_mem_nil, or_false] at hmem
    rcases hmem with ⟨-, rfl⟩ | ⟨-, rfl⟩ | ⟨-, rfl⟩ | ⟨-, rfl⟩ | ⟨-, rfl⟩ | ⟨-, rfl⟩ | ⟨-, rfl⟩ <;> rfl
  | code hsmall hcode =>
    simp only [List.cons_append, List.nil_append]
    rw [scanString]
    simp only [hcode, Option.isSome_some, if_true]
  | plain hquote hback hprint =>
    rw [List.cons_append, List.nil_append, scanString.eq_def]
    split <;> simp_all

theorem Escaped.unescapeFrom_append {c : Char} {written : List Char} (h : Escaped c written) (cs : List Char) :
    unescapeFrom none (written ++ cs) = c :: unescapeFrom none cs := by
  cases h with
  | short hmem =>
    simp only [shortEscapes, List.mem_cons, Prod.mk.injEq, List.not_mem_nil, or_false] at hmem
    rcases hmem with ⟨rfl, rfl⟩ | ⟨rfl, rfl⟩ | ⟨rfl, rfl⟩ | ⟨rfl, rfl⟩ | ⟨rfl, rfl⟩ | ⟨rfl, rfl⟩ | ⟨rfl, rfl⟩ <;> rfl
  | code hsmall hcode =>
    have hlow : isLowHalf c.toNat = false := by simp [isLowHalf]; omega
    have hhigh : isHighHalf c.toNat = false := by simp [isHighHalf]; omega
    simp only [List.cons_append, List.nil_append]
    rw [unescapeFrom]
    simp [hcode, hlow, hhigh, unescapeFrom.lone, Char.ofNat_toNat]
  | plain hquote hback hprint =>
    rw [List.cons_append, List.nil_append, unescapeFrom.eq_def]
    split <;> simp_all [unescapeFrom.lone]

/-- Escaped texts stand between quotes. -/
theorem quotable_escape (text : String) : Quotable (escape text) := by
  intro rest
  unfold escape
  induction text.toList with
  | nil => rfl
  | cons c cs ih =>
    rw [List.flatMap_cons, List.append_assoc, (escaped_escapeChar c).scanString_append, ih]
    rfl

/-- **Strings read back.** -/
@[simp] theorem unescape_escape (text : String) : unescape (escape text) = text := by
  have hchars : ∀ cs : List Char, unescapeFrom none (cs.flatMap escapeChar) = cs := by
    intro cs
    induction cs with
    | nil => rfl
    | cons c cs ih => rw [List.flatMap_cons, (escaped_escapeChar c).unescapeFrom_append, ih]
  rw [unescape, escape, hchars, String.ofList_toList]

/-! ## Numbers -/

/-- Digits without superfluous zeros. -/
inductive Whole : List Char → Prop where
  | zero : Whole ['0']
  | digits {c : Char} {cs : List Char} (h : Digits (c :: cs)) (hc : c ≠ '0') : Whole (c :: cs)

/-- A point with digits after it, or nothing. -/
inductive Fraction : List Char → Prop where
  | none : Fraction []
  | digits {ds : List Char} (h : Digits ds) (hne : ds ≠ []) : Fraction ('.' :: ds)

/-- A power of ten with its sign, or nothing. -/
inductive Exponent : List Char → Prop where
  | none : Exponent []
  | digits {sign : Char} {ds : List Char} (hsign : sign = '+' ∨ sign = '-') (h : Digits ds) (hne : ds ≠ []) :
    Exponent ('e' :: sign :: ds)

inductive Numeral : List Char → Prop where
  | mk (negative : Bool) {whole fraction exponent : List Char} (hwhole : Whole whole) (hfraction : Fraction fraction)
    (hexponent : Exponent exponent) : Numeral (signed negative (whole ++ (fraction ++ exponent)))

/-- What may follow a number: nothing that could belong to it. -/
def Follows (rest : List Char) : Prop :=
  ∀ c ∈ rest.head?, c.isDigit = false ∧ c ≠ '.' ∧ c ≠ 'e' ∧ c ≠ 'E'

theorem scanDigits_append {ds rest : List Char} (hds : Digits ds) (hne : ds ≠ [])
    (hrest : ∀ c ∈ rest.head?, c.isDigit = false) : scanDigits (ds ++ rest) = some (ds, rest) := by
  have hstop : rest.takeWhile Char.isDigit = [] ∧ rest.dropWhile Char.isDigit = rest := by
    cases rest with
    | nil => exact ⟨rfl, rfl⟩
    | cons c rest =>
      have hc := hrest c rfl
      simp [hc]
  have htake : (ds ++ rest).takeWhile Char.isDigit = ds := by
    rw [List.takeWhile_append_of_pos hds, hstop.1, List.append_nil]
  have hdrop : (ds ++ rest).dropWhile Char.isDigit = rest := by
    rw [List.dropWhile_append_of_pos hds, hstop.2]
  unfold scanDigits
  rw [htake, hdrop]
  simp [hne]

theorem Whole.scan {ds rest : List Char} (h : Whole ds) (hrest : ∀ c ∈ rest.head?, c.isDigit = false) :
    scanInteger (ds ++ rest) = some (ds, rest) := by
  cases h with
  | zero => rfl
  | digits hds hc =>
    rw [List.cons_append, scanInteger.eq_def]
    split
    · rename_i heq
      cases heq
      exact absurd rfl hc
    · rw [← List.cons_append]
      exact scanDigits_append hds (by simp) hrest

theorem Fraction.scan {cs rest : List Char} (h : Fraction cs) (hrest : ∀ c ∈ rest.head?, c.isDigit = false ∧ c ≠ '.') :
    scanFraction (cs ++ rest) = some (cs, rest) := by
  cases h with
  | none =>
    rw [List.nil_append, scanFraction.eq_def]
    split
    · exact absurd rfl (hrest '.' rfl).2
    · rfl
  | digits hds hne =>
    rw [List.cons_append, scanFraction, scanDigits_append hds hne fun c hc => (hrest c hc).1]
    rfl

theorem Exponent.scan {cs rest : List Char} (h : Exponent cs) (hrest : Follows rest) :
    scanExponent (cs ++ rest) = some (cs, rest) := by
  cases h with
  | none =>
    cases rest with
    | nil => rfl
    | cons c rest =>
      obtain ⟨-, -, hlower, hupper⟩ := hrest c rfl
      simp [scanExponent, hlower, hupper]
  | digits hsign hds hne =>
    have hscan := scanDigits_append hds hne fun c hc => (hrest c hc).1
    rcases hsign with rfl | rfl <;> simp [scanExponent, scanSign, hscan]

theorem Whole.head {ds : List Char} (h : Whole ds) : ∃ c rest, ds = c :: rest ∧ c.isDigit = true := by
  cases h with
  | zero => exact ⟨'0', [], rfl, rfl⟩
  | @digits c cs hds hc => exact ⟨c, cs, rfl, hds c List.mem_cons_self⟩

/-- A fraction and an exponent begin with nothing that a digit could be, and what follows them neither. -/
theorem Fraction.follows {cs rest : List Char} (h : Fraction cs) (hrest : ∀ c ∈ rest.head?, c.isDigit = false) :
    ∀ c ∈ (cs ++ rest).head?, c.isDigit = false := by
  cases h with
  | none => exact hrest
  | digits hds hne => simp

theorem Exponent.follows {cs rest : List Char} (h : Exponent cs) (hrest : Follows rest) :
    ∀ c ∈ (cs ++ rest).head?, c.isDigit = false ∧ c ≠ '.' := by
  cases h with
  | none => exact fun c hc => ⟨(hrest c hc).1, (hrest c hc).2.1⟩
  | digits hsign hds hne => simp

/-- **Numbers are scanned** up to where they end. -/
theorem Numeral.scan {cs rest : List Char} (h : Numeral cs) (hrest : Follows rest) :
    scanNumber (cs ++ rest) = some (cs, rest) := by
  obtain ⟨negative, hwhole, hfraction, hexponent⟩ := h
  rename_i whole fraction exponent
  have hafter := hexponent.follows hrest
  have hscan : ∀ sign, (do
      let (whole, cs) ← scanInteger (whole ++ (fraction ++ (exponent ++ rest)))
      let (fraction, cs) ← scanFraction cs
      let (exponent, cs) ← scanExponent cs
      return (sign ++ whole ++ fraction ++ exponent, cs)) = some (sign ++ (whole ++ (fraction ++ exponent)), rest) := by
    intro sign
    rw [hwhole.scan (hfraction.follows fun c hc => (hafter c hc).1)]
    simp only [Option.bind_eq_bind, Option.bind_some, hfraction.scan hafter, hexponent.scan hrest]
    simp
  cases negative with
  | true => simpa [scanNumber, signed] using hscan ['-']
  | false =>
    obtain ⟨c, ds, hds, hc⟩ := hwhole.head
    rw [hds] at hscan
    have hsign : c ≠ '-' := Number.ne_of_isDigit hc rfl
    rw [hds]
    simpa [scanNumber, signed, hsign] using hscan []

/-! ## Texts of numbers -/

/-- Digits whose value needs all of them begin with no zero. -/
theorem head?_ne_zero {ds : List Char} (h : Digits ds) (hle : 10 ^ (ds.length - 1) ≤ Nat.ofDigitChars 10 ds 0) :
    ds.head? ≠ some '0' := by
  cases ds with
  | nil => simp
  | cons c ds =>
    intro hc
    obtain rfl : c = '0' := by simpa using hc
    have hlt := Number.ofDigitChars_lt fun x hx => h x (List.mem_cons_of_mem '0' hx)
    rw [Nat.ofDigitChars_cons] at hle
    simp only [List.length_cons, Nat.add_sub_cancel, Nat.mul_zero, Nat.sub_self, Nat.add_zero] at hle
    omega

theorem whole_of_head? {ds : List Char} (h : Digits ds) (hne : ds ≠ []) (hhead : ds.head? ≠ some '0') : Whole ds := by
  cases ds with
  | nil => exact absurd rfl hne
  | cons c ds => exact .digits h fun hc => hhead (by rw [hc]; rfl)

theorem whole_toDigits (n : Nat) : Whole (Nat.toDigits 10 n) := by
  rcases Nat.eq_zero_or_pos n with rfl | hn
  · exact .zero
  · refine whole_of_head? (Number.digits_toDigits n) Nat.toDigits_ne_nil (head?_ne_zero (Number.digits_toDigits n) ?_)
    rw [Nat.ofDigitChars_ten_toDigits]
    by_contra hlt
    have hlength := Nat.length_toDigits_pos (b := 10) (n := n)
    rcases Nat.eq_or_lt_of_le hlength with hone | hmore
    · rw [← hone] at hlt
      exact hlt hn
    · have := (Nat.length_toDigits_le_iff (b := 10) (by decide) (by omega)).mpr (Nat.lt_of_not_le hlt)
      omega

/-- Integers are written as numbers of JSON. -/
theorem numeral_toString (n : Int) : Numeral (toString n).toList := by
  rw [Number.toString_eq_signed, String.toList_ofList]
  simpa using Numeral.mk (decide (n < 0)) (whole_toDigits n.natAbs) .none .none

theorem stands_head? {d : Number.Decimal} {m : Nat} {q : Int} (h : d.Stands m q) : d.digits.head? ≠ some '0' := by
  refine head?_ne_zero h.digits ?_
  have hpoint : d.point - 1 = d.point - d.digits.length + (d.digits.length - 1 : Nat) := by
    have := List.length_pos_of_ne_nil h.nonempty
    omega
  have hlow := h.low
  rw [hpoint, Number.ten_zpow_add_nat, Number.Decimal.value] at hlow
  exact_mod_cast le_of_mul_le_mul_right hlow (Number.ten_zpow_pos _)

theorem exponent_exponentText (w : Number.ExponentWidth) (e : Int) : Exponent ('e' :: Number.exponentText w e) := by
  unfold Number.exponentText
  refine .digits ?_ ((Number.digits_zeros _).append (Number.digits_toDigits _)) (by simp [Nat.toDigits_ne_nil])
  split
  · exact .inr rfl
  · exact .inl rfl

/-- The digits of a decimal, with a point or an exponent where the layout puts one. -/
theorem numeral_write (l : Number.Layout) {d : Number.Decimal} (hne : d.digits ≠ []) (hd : Digits d.digits)
    (hhead : d.digits.head? ≠ some '0') (negative : Bool) : Numeral (signed negative (l.write d)) := by
  have hempty : d.digits.isEmpty = false := by simpa using hne
  have hmk : ∀ {whole fraction exponent : List Char}, Whole whole → Fraction fraction → Exponent exponent →
      ∀ cs, cs = whole ++ (fraction ++ exponent) → Numeral (signed negative cs) := by
    rintro whole fraction exponent hw hf he cs rfl
    exact .mk negative hw hf he
  have htake : ∀ n, 0 < n → Whole (d.digits.take n) := by
    intro n hn
    refine whole_of_head? (fun c hc => hd c (List.mem_of_mem_take hc)) ?_ ?_
    · simp [hne]
      omega
    · rwa [List.head?_take, if_neg (by omega)]
  unfold Number.Layout.write
  rw [hempty, Bool.false_or]
  split
  · unfold Number.Decimal.positional
    rw [hempty, if_neg (by decide)]
    split
    · exact hmk .zero (.digits ((Number.digits_zeros (-d.point).toNat).append hd) (by simp [hne])) .none _ (by simp)
    · rename_i hpoint
      dsimp only
      split
      · have hwhole : Whole (d.digits ++ List.replicate (d.point.toNat - d.digits.length) '0') :=
          whole_of_head? (hd.append (Number.digits_zeros _)) (by simp [hne])
            (by simpa [List.head?_append, hne] using hhead)
        exact hmk hwhole .none .none _ (by simp)
      · rename_i hlength
        have hdrop : d.digits.drop d.point.toNat ≠ [] := by
          simp only [ne_eq, List.drop_eq_nil_iff]
          exact hlength
        exact hmk (htake d.point.toNat (by omega)) (.digits (fun c hc => hd c (List.mem_of_mem_drop hc)) hdrop) .none _
          (by simp)
  · have hone := htake 1 (by decide)
    unfold Number.Decimal.scientific
    split
    · rename_i hnil
      exact absurd hnil hne
    · rename_i c hc
      rw [hc] at hone
      exact hmk hone .none (exponent_exponentText l.exponent (d.point - 1)) _ (by simp)
    · rename_i c rest hrest hc
      rw [hc] at hone hd
      exact hmk hone (.digits (fun x hx => hd x (List.mem_cons_of_mem c hx)) (by simpa using hrest))
        (exponent_exponentText l.exponent (d.point - 1)) _ (by simp)

/-- Finite doubles are written as numbers of JSON, in every layout. -/
theorem numeral_text (l : Number.Layout) {x : Float} (h : Number.isFinite x = true) : Numeral (l.text x).toList := by
  obtain ⟨negative, m, q, hx, hm⟩ := Number.shape_of_isFinite h
  unfold Number.Layout.text
  rw [hx]
  dsimp only
  rw [String.toList_ofList]
  rcases hm with rfl | hc
  · exact .mk negative .zero .none .none
  · have hd := Number.shortest_stands hc
    exact numeral_write l hd.nonempty hd.digits (stands_head? hd) negative

end Forager.Json
