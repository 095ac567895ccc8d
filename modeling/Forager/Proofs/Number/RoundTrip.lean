import Forager.Proofs.Number.Numerals
import Forager.Proofs.Number.Shortest

/-!
# Number texts read back

* `denoting_write` : a layout writes numerals for the decimals it is given;
* `real?_text` : in every layout the text of a finite double is read as that double;
* `integer?_toString` : so is the text of an integer of 64 bits.
-/

namespace Forager.Number

set_option autoImplicit false

/-- A number of so many digits is bounded. -/
theorem ofDigitChars_lt {ds : List Char} (h : Digits ds) : Nat.ofDigitChars 10 ds 0 < 10 ^ ds.length := by
  induction ds with
  | nil => simp
  | cons c ds ih =>
    have hbounds := isDigit_bounds (h c List.mem_cons_self)
    have hzero : '0'.toNat = 48 := rfl
    have hrest := ih fun x hx => h x (List.mem_cons_of_mem c hx)
    rw [Nat.ofDigitChars_cons, Nat.ofDigitChars_eq_ofDigitChars_zero, List.length_cons, Nat.pow_succ]
    have hdigit : 10 * 0 + (c.toNat - '0'.toNat) ≤ 9 := by omega
    have := Nat.mul_le_mul_left (10 ^ ds.length) hdigit
    omega

/-! ## Layouts -/

/-- Whether a numeral denotes a number. -/
def Denoting (cs : List Char) (x : ℚ) : Prop := ∃ v e, Denotes cs v e ∧ (v : ℚ) * 10 ^ e = x

/-- With zeros filled in, the digits keep their value. -/
theorem denoting_positional {d : Decimal} (hne : d.digits ≠ []) (hd : Digits d.digits) :
    Denoting d.positional d.value := by
  have hempty : d.digits.isEmpty = false := by simpa using hne
  unfold Decimal.positional Decimal.value
  rw [hempty, if_neg (by decide)]
  split
  · rename_i hpoint
    obtain ⟨k, hk⟩ : ∃ k : Nat, d.point = -(k : Int) := ⟨(-d.point).toNat, by omega⟩
    rw [hk, neg_neg, Int.toNat_natCast]
    have hwritten : Written ('0' :: '.' :: (List.replicate k '0' ++ d.digits)) _ _ :=
      .point (digits_zeros 1) (by simp) ((digits_zeros k).append hd)
    refine ⟨_, _, .plain hwritten, ?_⟩
    have hzeros : List.replicate 1 '0' ++ (List.replicate k '0' ++ d.digits) =
        List.replicate (1 + k) '0' ++ d.digits := by
      rw [← List.append_assoc, List.replicate_append_replicate]
    rw [hzeros, Nat.ofDigitChars_append, Nat.ofDigitChars_replicate_zero, Nat.mul_zero, List.length_append,
      List.length_replicate]
    congr 2
    push_cast
    ring
  · rename_i hpoint
    obtain ⟨n, hn⟩ := Int.eq_ofNat_of_zero_le (show 0 ≤ d.point by omega)
    simp only [hn, Int.toNat_natCast]
    split
    · rename_i hlen
      refine ⟨_, _, .plain (.whole (hd.append (digits_zeros _)) (by simp [hne])), ?_⟩
      rw [Nat.ofDigitChars_append, Nat.ofDigitChars_replicate_zero,
        show (n : Int) - d.digits.length = 0 + (n - d.digits.length : Nat) by omega, ten_zpow_add_nat]
      push_cast
      ring
    · rename_i hlen
      have htake : d.digits.take n ≠ [] := by
        intro h
        rcases List.take_eq_nil_iff.mp h with h | h
        · omega
        · exact hne h
      refine ⟨_, _, .plain (.point (fun c hc => hd c (List.mem_of_mem_take hc)) htake
        fun c hc => hd c (List.mem_of_mem_drop hc)), ?_⟩
      rw [List.take_append_drop, List.length_drop]
      congr 2
      omega

theorem denoting_scientific {d : Decimal} (w : ExponentWidth) (hne : d.digits ≠ []) (hd : Digits d.digits)
    (hpoint : (d.point - 1).natAbs < 10000) : Denoting (d.scientific w) d.value := by
  obtain ⟨digits, point⟩ := d
  unfold Decimal.scientific Decimal.value
  match digits with
  | [] => exact absurd rfl hne
  | [c] =>
    refine ⟨_, _, .scaled (.whole hd (by simp)) w hpoint, ?_⟩
    simp
  | c :: c' :: rest =>
    have hc : Digits [c] := fun x hx => hd x (List.mem_cons.mpr (Or.inl (List.mem_singleton.mp hx)))
    refine ⟨_, _, .scaled (.point hc (by simp) fun x hx => hd x (List.mem_cons_of_mem c hx)) w hpoint, ?_⟩
    congr 2
    simp only [List.length_cons]
    push_cast
    ring

/-- The digits of a finite double, and none for zero. -/
theorem denoting_write (l : Layout) {m : Nat} {q : Int} (h : m = 0 ∨ Canonical m q) :
    Denoting (l.write (.shortest m q)) (Decimal.shortest m q).value := by
  rcases h with rfl | hc
  · have hzero : Denotes ['0'] 0 (-(0 : Nat)) := .plain (.whole (digits_zeros 1) (by simp))
    refine ⟨_, _, hzero, ?_⟩
    simp [Decimal.shortest, Decimal.value]
  · have hd := shortest_stands hc
    have hempty : (Decimal.shortest m q).digits.isEmpty = false := by simpa using hd.nonempty
    unfold Layout.write
    rw [hempty, Bool.false_or]
    split
    · exact denoting_positional hd.nonempty hd.digits
    · obtain ⟨hlow, hhigh⟩ := hd.rounds.bounds hc
      have hleast := ten_zpow_lt_iff.mp ((two_zpow_bounds.1.trans_le hlow).trans hd.high)
      have hmost := ten_zpow_lt_iff.mp ((hd.low.trans_lt hhigh).trans two_zpow_bounds.2)
      exact denoting_scientific l.exponent hd.nonempty hd.digits (by omega)

/-- A numeral without a point may have one, followed by a zero. -/
theorem Denoting.append_point {cs : List Char} {x : ℚ} (h : Denoting cs x) (hpoint : '.' ∉ cs) (hmark : 'e' ∉ cs) :
    Denoting (cs ++ ['.', '0']) x := by
  obtain ⟨v, e, hcs, rfl⟩ := h
  cases hcs with
  | scaled hw w hk => exact absurd (List.mem_append_right _ List.mem_cons_self) hmark
  | plain hw =>
    cases hw with
    | point hds hne hfs => exact absurd (List.mem_append_right _ List.mem_cons_self) hpoint
    | whole hds hne =>
      refine ⟨_, _, .plain (.point hds hne (digits_zeros 1)), ?_⟩
      rw [Nat.ofDigitChars_append, Nat.ofDigitChars_cons, Nat.ofDigitChars_nil, Nat.sub_self, Nat.add_zero]
      simp only [List.length_singleton, Nat.cast_one, zpow_neg_one, Nat.cast_zero, neg_zero, zpow_zero]
      push_cast
      ring

/-! ## Reading back -/

theorem ofDecimal_zero (e : Int) : ofDecimal 0 e = 0.0 := rfl

/-- A numeral for the shortest decimal of a double is read as the double. -/
theorem Denoting.real?_eq {cs : List Char} {x : Float} {negative : Bool} {m : Nat} {q : Int}
    (hx : shape x = .finite negative m q) (h : Denoting cs (Decimal.shortest m q).value) :
    real? (String.ofList (signed negative cs)) = .ok x := by
  obtain ⟨v, e, hcs, hvalue⟩ := h
  by_cases hm : m = 0
  · subst hm
    have hzero : (v : ℚ) * 10 ^ e = 0 := by
      rw [hvalue]
      simp [Decimal.shortest, Decimal.value]
    have hv : v = 0 := by exact_mod_cast (mul_eq_zero.mp hzero).resolve_right (ten_zpow_pos e).ne'
    subst hv
    rw [hcs.real?_eq negative (by rw [ofDecimal_zero]; decide +kernel), ofDecimal_zero, ← eq_zero_of_shape hx]
  · obtain ⟨hc, hdouble⟩ := eq_double_of_shape hx hm
    have hrounds := (shortest_stands hc).rounds
    rw [← hvalue] at hrounds
    have hv : 0 < v := by
      rcases Nat.eq_zero_or_pos v with rfl | hpos
      · have hlow := (hrounds.bounds hc).1
        rw [Nat.cast_zero, zero_mul] at hlow
        exact absurd hlow (not_le.mpr (two_zpow_pos _))
      · exact hpos
    have hread := ofDecimal_eq hv hc hrounds
    have hfinite : isFinite (ofDecimal v e) = true := by
      rw [hread, isFinite, shape_double hc]
    rw [hcs.real?_eq negative hfinite, hread, neg_double hc, hdouble]
    cases negative <;> rfl

theorem shape_of_isFinite {x : Float} (h : isFinite x = true) :
    ∃ negative m q, shape x = .finite negative m q ∧ (m = 0 ∨ Canonical m q) := by
  unfold isFinite at h
  split at h
  · rename_i negative m q hx
    refine ⟨negative, m, q, hx, ?_⟩
    by_cases hm : m = 0
    · exact Or.inl hm
    · exact Or.inr (eq_double_of_shape hx hm).1
  · cases h

/-- **Number texts read back**: in every layout the text of a finite double is read as that double. -/
theorem real?_text (l : Layout) {x : Float} (h : isFinite x = true) : real? (l.text x) = .ok x := by
  obtain ⟨negative, m, q, hx, hm⟩ := shape_of_isFinite h
  unfold Layout.text
  rw [hx]
  exact (denoting_write l hm).real?_eq hx

theorem isNumeral_text (l : Layout) {x : Float} (h : isFinite x = true) :
    ∀ c ∈ (l.text x).toList, isNumeral c = true := by
  obtain ⟨negative, m, q, hx, hm⟩ := shape_of_isFinite h
  obtain ⟨v, e, hdenotes, -⟩ := denoting_write l hm
  unfold Layout.text
  rw [hx, String.toList_ofList]
  exact isNumeral_signed hdenotes.isNumeral negative

/-! ## Integers -/

theorem scanNatural_eq {cs : List Char} (hcs : Digits cs) {n : Nat} (h : Nat.ofDigitChars 10 cs n < wordSize)
    (separated : Bool) : scanNatural 10 separated n cs = .ok (Nat.ofDigitChars 10 cs n) := by
  induction cs generalizing n with
  | nil => rfl
  | cons c cs ih =>
    have hc := hcs c List.mem_cons_self
    rw [Nat.ofDigitChars_cons] at h ⊢
    have hstep : 10 * n + (c.toNat - '0'.toNat) < wordSize := (le_ofDigitChars cs _).trans_lt h
    rw [scanNatural, if_neg (by simp [ne_of_isDigit hc (d := '_') rfl]), digitOf?_ten hc]
    simp only [Nat.mul_comm n, if_pos hstep]
    exact ih (fun x hx => hcs x (List.mem_cons_of_mem c hx)) h

theorem natural?_toDigits {n : Nat} (h : n < wordSize) (separated : Bool) :
    natural? 10 separated (Nat.toDigits 10 n) = .ok n := by
  have hvalue : Nat.ofDigitChars 10 (Nat.toDigits 10 n) 0 = n := Nat.ofDigitChars_ten_toDigits
  have hempty : (Nat.toDigits 10 n).isEmpty = false := List.isEmpty_eq_false_iff.mpr Nat.toDigits_ne_nil
  rw [natural?, hempty, if_neg (by decide), scanNatural_eq (digits_toDigits n) (by rwa [hvalue]), hvalue]

theorem toString_eq_signed (n : Int) :
    toString n = String.ofList (signed (decide (n < 0)) (Nat.toDigits 10 n.natAbs)) := by
  rw [Int.toString_eq_repr, Int.repr_eq_if]
  by_cases hneg : n < 0
  · rw [if_neg (by omega), decide_eq_true hneg, show (-n).toNat = n.natAbs by omega]
    apply String.toList_injective
    rw [String.toList_append, Nat.toList_repr, String.toList_ofList, String.toList_ofList]
    rfl
  · rw [if_pos (by omega), decide_eq_false hneg, show n.toNat = n.natAbs by omega]
    exact Nat.repr_eq_ofList_toDigits

theorem isNumeral_toString (n : Int) : ∀ c ∈ (toString n).toList, isNumeral c = true := by
  rw [toString_eq_signed, String.toList_ofList]
  exact isNumeral_signed (fun c hc => isNumeral_of_isDigit (digits_toDigits _ c hc)) _

/-- The text of an integer of 64 bits is read as that integer. -/
theorem integer?_toString {n : Int} (hleast : leastInt ≤ n) (hgreatest : n ≤ greatestInt) :
    integer? (toString n) = .ok n := by
  have hrange : inRange n = .ok n := if_pos ⟨hleast, hgreatest⟩
  unfold leastInt at hleast
  unfold greatestInt at hgreatest
  have hword : n.natAbs < wordSize := by
    unfold wordSize
    omega
  have hhead : ∃ c rest, Nat.toDigits 10 n.natAbs = c :: rest ∧ c.isDigit = true := by
    obtain ⟨c, rest, h⟩ := List.exists_cons_of_ne_nil (Nat.toDigits_ne_nil (n := n.natAbs) (b := 10))
    exact ⟨c, rest, h, digits_toDigits _ c (by rw [h]; exact List.mem_cons_self)⟩
  have hsign : (if decide (n < 0) = true then -(n.natAbs : Int) else n.natAbs) = n := by
    by_cases hneg : n < 0
    · rw [decide_eq_true hneg, if_pos rfl]
      omega
    · rw [decide_eq_false hneg, if_neg (by decide)]
      omega
  unfold integer?
  rw [toString_eq_signed, String.toList_ofList, splitSign_signed hhead]
  simp only [natural?_toDigits hword]
  change inRange (if decide (n < 0) = true then -(n.natAbs : Int) else n.natAbs) = .ok n
  rw [hsign, hrange]

end Forager.Number
