import Mathlib.Data.List.Lex
import Mathlib.Data.List.TakeWhile
import Mathlib.Data.Prod.Lex
import Mathlib.Tactic.Ring
import Forager.Proofs.Number.Numerals
import Forager.Proofs.Text.Bytes
import Forager.Text.Natural

/-!
# The natural order of names

Every piece of a name has a key, three numbers in lexicographic order, and names are compared by the keys of their
pieces. So the natural order is a strict total order.

* `value run`, `zeros run` : the number that a run of digits stands for, and how many zeros lead it; `runLess_iff` :
  runs are ordered by the one and then by the other;
* `keys name` : the keys of the pieces of a name, from which the name can be recovered (`keys_injective`);
* `less_iff` : the natural order is the lexicographic order of keys;
* `less_runs` : what it says of names that part at runs of digits;
* `Compared a b answer` : the comparison of two names round by round, which always ends (`compared_iff`);
* `Ordered.eq_sort` : there is one order of names that is natural.
-/

namespace Forager.Text.Natural

set_option autoImplicit false

/-! ## Runs of digits -/

def value (run : List UInt8) : Nat := run.foldl (fun n b => 10 * n + (b.toNat - 48)) 0

def zeros (run : List UInt8) : Nat := (run.takeWhile (· == 0x30)).length

/-- All bytes are digits. -/
def Digital (bs : List UInt8) : Prop := ∀ b ∈ bs, isDigit b = true

instance (bs : List UInt8) : Decidable (Digital bs) := List.decidableBAll _ bs

theorem isDigit_iff {b : UInt8} : isDigit b = true ↔ 48 ≤ b.toNat ∧ b.toNat ≤ 57 := by
  simp only [isDigit, Bool.and_eq_true, decide_eq_true_eq, UInt8.le_iff_toNat_le]
  rfl

theorem isDigit_eq_false {b : UInt8} : isDigit b = false ↔ b.toNat < 48 ∨ 57 < b.toNat := by
  rw [← Bool.not_eq_true, isDigit_iff]
  omega

theorem foldl_digits (bs : List UInt8) (n : Nat) :
    bs.foldl (fun n b => 10 * n + (b.toNat - 48)) n = n * 10 ^ bs.length + value bs := by
  induction bs generalizing n with
  | nil => simp [value]
  | cons b bs ih =>
    rw [value, List.foldl_cons, List.foldl_cons, ih, ih, List.length_cons, pow_succ]
    ring

theorem value_cons (b : UInt8) (bs : List UInt8) : value (b :: bs) = (b.toNat - 48) * 10 ^ bs.length + value bs := by
  rw [value, List.foldl_cons, foldl_digits]
  simp

theorem value_lt {bs : List UInt8} (h : Digital bs) : value bs < 10 ^ bs.length := by
  induction bs with
  | nil => simp [value]
  | cons b bs ih =>
    obtain ⟨hb, hbs⟩ := List.forall_mem_cons.mp h
    have hrest := ih hbs
    have hdigit : b.toNat - 48 ≤ 9 := by
      have := isDigit_iff.mp hb
      omega
    calc value (b :: bs) = (b.toNat - 48) * 10 ^ bs.length + value bs := value_cons b bs
      _ < 9 * 10 ^ bs.length + 10 ^ bs.length := by
        have := Nat.mul_le_mul_right (10 ^ bs.length) hdigit
        omega
      _ = 10 ^ (b :: bs).length := by
        rw [List.length_cons, pow_succ]
        ring

/-- Of two numbers with as many digits, the one with the greater first digit is greater, whatever follows. -/
theorem value_cons_lt {a b : UInt8} {as bs : List UInt8} (ha : Digital (a :: as)) (hb : isDigit b = true)
    (hlength : as.length = bs.length) (h : a < b) : value (a :: as) < value (b :: bs) := by
  obtain ⟨ha, has⟩ := List.forall_mem_cons.mp ha
  have hlow := isDigit_iff.mp ha
  have hhigh := isDigit_iff.mp hb
  have hstep : a.toNat - 48 + 1 ≤ b.toNat - 48 := by
    have := UInt8.lt_iff_toNat_lt.mp h
    omega
  have hrest := value_lt has
  have hmul := Nat.mul_le_mul_right (10 ^ bs.length) hstep
  rw [value_cons, value_cons, hlength]
  rw [hlength] at hrest
  rw [Nat.add_mul, Nat.one_mul] at hmul
  omega

/-- Numbers with as many digits compare as their digits do. -/
theorem value_lt_iff {as bs : List UInt8} (ha : Digital as) (hb : Digital bs) (hlength : as.length = bs.length) :
    value as < value bs ↔ bytesLess as bs = true := by
  induction as generalizing bs with
  | nil =>
    obtain rfl : bs = [] := List.length_eq_zero_iff.mp hlength.symm
    simp [bytesLess]
  | cons a as ih =>
    cases bs with
    | nil => cases hlength
    | cons b bs =>
      rw [List.length_cons, List.length_cons, Nat.add_right_cancel_iff] at hlength
      have hda := List.forall_mem_cons.mp ha
      have hdb := List.forall_mem_cons.mp hb
      rw [bytesLess]
      split
      · rename_i hsame
        subst hsame
        rw [← ih hda.2 hdb.2 hlength, value_cons, value_cons, hlength]
        omega
      · rename_i hne
        rw [decide_eq_true_iff]
        refine ⟨fun h => (UInt8.lt_or_lt_of_ne hne).resolve_right fun hba => ?_, value_cons_lt ha hdb.1 hlength⟩
        have hgt := value_cons_lt hb hda.1 hlength.symm hba
        omega

theorem bytesLess_total {as bs : List UInt8} (hlength : as.length = bs.length) (hne : as ≠ bs) :
    bytesLess as bs = true ∨ bytesLess bs as = true := by
  induction as generalizing bs with
  | nil => exact absurd (List.length_eq_zero_iff.mp hlength.symm).symm hne
  | cons a as ih =>
    cases bs with
    | nil => cases hlength
    | cons b bs =>
      by_cases hab : a = b
      · subst hab
        simp only [bytesLess, if_true]
        exact ih (Nat.succ.inj hlength) fun h => hne (h ▸ rfl)
      · simpa [bytesLess, hab, Ne.symm hab] using UInt8.lt_or_lt_of_ne hab

/-- Digits that stand for one number are the same, if there are as many. -/
theorem eq_of_value {as bs : List UInt8} (ha : Digital as) (hb : Digital bs) (hlength : as.length = bs.length)
    (h : value as = value bs) : as = bs := by
  by_contra hne
  rcases bytesLess_total hlength hne with hless | hless
  · have := (value_lt_iff ha hb hlength).mpr hless
    omega
  · have := (value_lt_iff hb ha hlength.symm).mpr hless
    omega

/-! ## Leading zeros -/

theorem digital_significant {m : List UInt8} (h : Digital m) : Digital (significant m) := fun b hb =>
  h b ((List.dropWhile_sublist _).subset hb)

theorem value_significant (m : List UInt8) : value (significant m) = value m := by
  induction m with
  | nil => rfl
  | cons b m ih =>
    rw [significant, List.dropWhile_cons]
    split
    · rename_i hzero
      rw [beq_iff_eq] at hzero
      rw [value_cons, hzero, ← ih]
      simp [significant]
    · rfl

theorem length_eq_zeros (m : List UInt8) : m.length = zeros m + (significant m).length := by
  rw [zeros, significant, ← List.length_append, List.takeWhile_append_dropWhile]

/-- The first significant digit is not zero. -/
theorem le_value_significant {m : List UInt8} (hm : Digital m) (hne : significant m ≠ []) :
    10 ^ ((significant m).length - 1) ≤ value m := by
  rw [← value_significant]
  have hdigits := digital_significant hm
  have hfirst : ((significant m).head hne == 0x30) = false := List.head_dropWhile_not _ hne
  generalize significant m = bs at hne hdigits hfirst
  cases bs with
  | nil => exact absurd rfl hne
  | cons b bs =>
    have hb := isDigit_iff.mp (hdigits b List.mem_cons_self)
    have hb0 : b.toNat ≠ 48 := by
      intro h
      rw [List.head_cons, beq_eq_false_iff_ne] at hfirst
      exact hfirst (UInt8.toNat_inj.mp h)
    have hmul := Nat.mul_le_mul_right (10 ^ bs.length) (show 1 ≤ b.toNat - 48 by omega)
    rw [value_cons, List.length_cons, Nat.add_sub_cancel]
    omega

/-- More significant digits make a greater number. -/
theorem value_lt_of_length {m n : List UInt8} (hm : Digital m) (hn : Digital n)
    (h : (significant m).length < (significant n).length) : value m < value n := by
  have hne : significant n ≠ [] := List.ne_nil_of_length_pos (by omega)
  calc value m = value (significant m) := (value_significant m).symm
    _ < 10 ^ (significant m).length := value_lt (digital_significant hm)
    _ ≤ 10 ^ ((significant n).length - 1) := Nat.pow_le_pow_right (by omega) (by omega)
    _ ≤ value n := le_value_significant hn hne

/-- Runs are ordered by the numbers they stand for and then by their leading zeros. -/
theorem runLess_iff {m n : List UInt8} (hm : Digital m) (hn : Digital n) :
    runLess m n = true ↔ value m < value n ∨ value m = value n ∧ zeros m < zeros n := by
  have hlm := length_eq_zeros m
  have hln := length_eq_zeros n
  unfold runLess
  split
  · rename_i hlength
    rw [decide_eq_true_iff]
    rcases Nat.lt_or_gt_of_ne hlength with hlt | hgt
    · have := value_lt_of_length hm hn hlt
      omega
    · have := value_lt_of_length hn hm hgt
      omega
  · rename_i hlength
    rw [not_ne_iff] at hlength
    have hdm := digital_significant hm
    have hdn := digital_significant hn
    split
    · rename_i hne
      have hvalues : value m ≠ value n := by
        rw [← value_significant m, ← value_significant n]
        exact fun h => hne (eq_of_value hdm hdn hlength h)
      rw [← value_lt_iff hdm hdn hlength, value_significant, value_significant]
      omega
    · rename_i hsame
      rw [not_ne_iff] at hsame
      have hvalues : value m = value n := by rw [← value_significant m, ← value_significant n, hsame]
      rw [decide_eq_true_iff]
      omega

/-- The number and the leading zeros determine a run. -/
theorem eq_of_value_zeros {m n : List UInt8} (hm : Digital m) (hn : Digital n) (hvalue : value m = value n)
    (hzeros : zeros m = zeros n) : m = n := by
  have hlength : (significant m).length = (significant n).length := by
    rcases Nat.lt_trichotomy (significant m).length (significant n).length with hlt | heq | hgt
    · have := value_lt_of_length hm hn hlt
      omega
    · exact heq
    · have := value_lt_of_length hn hm hgt
      omega
  have hsame : significant m = significant n :=
    eq_of_value (digital_significant hm) (digital_significant hn) hlength (by
      rw [value_significant, value_significant, hvalue])
  have hfront : ∀ l : List UInt8, l.takeWhile (· == 0x30) = List.replicate (zeros l) 0x30 := fun l =>
    List.eq_replicate_iff.mpr ⟨rfl, fun b hb => eq_of_beq (List.mem_takeWhile_imp (p := (· == 0x30)) hb)⟩
  calc m = List.replicate (zeros m) 0x30 ++ significant m := by
        rw [← hfront, significant, List.takeWhile_append_dropWhile]
    _ = List.replicate (zeros n) 0x30 ++ significant n := by rw [hzeros, hsame]
    _ = n := by rw [← hfront, significant, List.takeWhile_append_dropWhile]

/-! ## Pieces -/

def Piece.bytes : Piece → List UInt8
  | .number first others => first :: others
  | .other byte => [byte]

/-- Numbers are made of digits, and other pieces are not digits. -/
def Piece.Proper : Piece → Prop
  | .number first others => Digital (first :: others)
  | .other byte => isDigit byte = false

theorem proper_pieces (bs : List UInt8) : ∀ p ∈ pieces bs, p.Proper := by
  induction bs with
  | nil => simp [pieces]
  | cons b bs ih =>
    rw [pieces]
    split
    · rename_i hb
      split
      · rename_i c others more hpieces
        rw [hpieces] at ih
        obtain ⟨hfirst, hmore⟩ := List.forall_mem_cons.mp ih
        exact List.forall_mem_cons.mpr ⟨List.forall_mem_cons.mpr ⟨hb, hfirst⟩, hmore⟩
      · exact List.forall_mem_cons.mpr ⟨List.forall_mem_cons.mpr ⟨hb, by simp⟩, ih⟩
    · rename_i hb
      exact List.forall_mem_cons.mpr ⟨by simpa [Piece.Proper] using hb, ih⟩

/-- Nothing is lost in the pieces. -/
theorem flatMap_pieces (bs : List UInt8) : (pieces bs).flatMap Piece.bytes = bs := by
  induction bs with
  | nil => rfl
  | cons b bs ih =>
    rw [pieces]
    split
    · split
      · rename_i c others more hpieces
        rw [hpieces] at ih
        rw [List.flatMap_cons] at ih ⊢
        exact congrArg (b :: ·) ih
      · rw [List.flatMap_cons, ih]
        rfl
    · rw [List.flatMap_cons, ih]
      rfl

theorem pieces_injective : Function.Injective pieces := by
  intro a b h
  rw [← flatMap_pieces a, ← flatMap_pieces b, h]

theorem pieces_eq_nil {bs : List UInt8} : pieces bs = [] ↔ bs = [] :=
  ⟨fun h => pieces_injective h, fun h => h ▸ rfl⟩

/-- The key of a piece: its place among the bytes, where all numbers stand together, the number and its zeros. -/
def Piece.key : Piece → ℕ ×ₗ ℕ ×ₗ ℕ
  | .number first others => toLex (48, toLex (value (first :: others), zeros (first :: others)))
  | .other byte => toLex (byte.toNat, toLex (0, 0))

/-- Pieces are ordered by their keys. -/
theorem Piece.less_iff {p q : Piece} (hp : p.Proper) (hq : q.Proper) : p.less q = true ↔ p.key < q.key := by
  cases p with
  | number a as =>
    cases q with
    | number b bs =>
      rw [less, runLess_iff hp hq, key, key, Prod.Lex.toLex_lt_toLex, Prod.Lex.toLex_lt_toLex]
      simp
    | other b =>
      have ha := isDigit_iff.mp (hp a List.mem_cons_self)
      have hb := isDigit_eq_false.mp hq
      rw [less, decide_eq_true_iff, UInt8.lt_iff_toNat_lt, key, key, Prod.Lex.toLex_lt_toLex]
      simp only
      omega
  | other a =>
    have ha := isDigit_eq_false.mp hp
    cases q with
    | number b bs =>
      have hb := isDigit_iff.mp (hq b List.mem_cons_self)
      rw [less, decide_eq_true_iff, UInt8.lt_iff_toNat_lt, key, key, Prod.Lex.toLex_lt_toLex]
      simp only
      omega
    | other b =>
      rw [less, decide_eq_true_iff, UInt8.lt_iff_toNat_lt, key, key, Prod.Lex.toLex_lt_toLex]
      simp

theorem Piece.eq_of_key {p q : Piece} (hp : p.Proper) (hq : q.Proper) (h : p.key = q.key) : p = q := by
  cases p with
  | number a as =>
    cases q with
    | number b bs =>
      simp only [key, EmbeddingLike.apply_eq_iff_eq, Prod.mk.injEq, true_and] at h
      obtain ⟨rfl, rfl⟩ := List.cons.inj (eq_of_value_zeros hp hq h.1 h.2)
      rfl
    | other b =>
      have hb := isDigit_eq_false.mp hq
      simp only [key, EmbeddingLike.apply_eq_iff_eq, Prod.mk.injEq] at h
      omega
  | other a =>
    have ha := isDigit_eq_false.mp hp
    cases q with
    | number b bs =>
      simp only [key, EmbeddingLike.apply_eq_iff_eq, Prod.mk.injEq] at h
      omega
    | other b =>
      simp only [key, EmbeddingLike.apply_eq_iff_eq, Prod.mk.injEq, and_true] at h
      rw [UInt8.toNat_inj.mp h]

/-! ## Names -/

def keys (name : List UInt8) : List (ℕ ×ₗ ℕ ×ₗ ℕ) := (pieces name).map Piece.key

theorem keys_injective : Function.Injective keys := by
  have hmap : ∀ ps qs : List Piece, (∀ p ∈ ps, p.Proper) → (∀ q ∈ qs, q.Proper) → ps.map Piece.key = qs.map Piece.key →
      ps = qs := by
    intro ps
    induction ps with
    | nil =>
      intro qs _ _ h
      exact (List.map_eq_nil_iff.mp h.symm).symm
    | cons p ps ih =>
      intro qs hps hqs h
      cases qs with
      | nil => cases h
      | cons q qs =>
        obtain ⟨hp, hps⟩ := List.forall_mem_cons.mp hps
        obtain ⟨hq, hqs⟩ := List.forall_mem_cons.mp hqs
        obtain ⟨hkey, hrest⟩ := List.cons.inj h
        rw [Piece.eq_of_key hp hq hkey, ih qs hps hqs hrest]
  intro a b h
  exact pieces_injective (hmap _ _ (proper_pieces a) (proper_pieces b) h)

theorem piecesLess_iff {ps qs : List Piece} (hps : ∀ p ∈ ps, p.Proper) (hqs : ∀ q ∈ qs, q.Proper) :
    piecesLess ps qs = true ↔ ps.map Piece.key < qs.map Piece.key := by
  induction ps generalizing qs with
  | nil =>
    cases qs with
    | nil => simp [piecesLess]
    | cons q qs => simp [piecesLess]
  | cons p ps ih =>
    cases qs with
    | nil => simp [piecesLess]
    | cons q qs =>
      obtain ⟨hp, hps'⟩ := List.forall_mem_cons.mp hps
      obtain ⟨hq, hqs'⟩ := List.forall_mem_cons.mp hqs
      rw [piecesLess, List.map_cons, List.map_cons, List.cons_lt_cons_iff]
      split
      · rename_i hsame
        subst hsame
        rw [ih hps' hqs']
        simp
      · rename_i hne
        have hkeys : p.key ≠ q.key := fun h => hne (Piece.eq_of_key hp hq h)
        rw [Piece.less_iff hp hq]
        simp [hkeys]

/-- **The natural order** is the lexicographic order of keys. -/
theorem less_iff (a b : List UInt8) : less a b = true ↔ keys a < keys b :=
  piecesLess_iff (proper_pieces a) (proper_pieces b)

/-! ## Names that part at runs of digits -/

structure Run (bs : List UInt8) : Prop where
  ne_nil : bs ≠ []
  digital : Digital bs

/-- The name does not go on with a digit. -/
def Breaks (bs : List UInt8) : Prop := ∀ b ∈ bs.head?, isDigit b = false

instance (bs : List UInt8) : Decidable (Breaks bs) := Option.decidableForallMem bs.head?

/-- The name does not end in a digit. -/
def Closed (bs : List UInt8) : Prop := ∀ b ∈ bs.getLast?, isDigit b = false

instance (bs : List UInt8) : Decidable (Closed bs) := Option.decidableForallMem bs.getLast?

theorem pieces_other {b : UInt8} (hb : isDigit b = false) (bs : List UInt8) :
    pieces (b :: bs) = .other b :: pieces bs := by
  rw [pieces, hb]
  rfl

theorem pieces_breaks {bs : List UInt8} (h : Breaks bs) (c : UInt8) (others : List UInt8) (more : List Piece) :
    pieces bs ≠ .number c others :: more := by
  cases bs with
  | nil => simp [pieces]
  | cons b bs =>
    rw [pieces_other (h b rfl)]
    simp

/-- A run of digits that is not continued is one piece. -/
theorem pieces_number {b : UInt8} {run bs : List UInt8} (hrun : Digital (b :: run)) (hbs : Breaks bs) :
    pieces (b :: run ++ bs) = .number b run :: pieces bs := by
  induction run generalizing b with
  | nil =>
    rw [List.cons_append, pieces, if_pos (hrun b List.mem_cons_self)]
    split
    · rename_i hnumber
      exact absurd hnumber (pieces_breaks hbs _ _ _)
    · rfl
  | cons c run ih =>
    obtain ⟨hb, hrest⟩ := List.forall_mem_cons.mp hrun
    rw [List.cons_append, pieces, if_pos hb, ih hrest]

theorem pieces_append {front : List UInt8} (hfront : Closed front) (back : List UInt8) :
    pieces (front ++ back) = pieces front ++ pieces back := by
  induction front with
  | nil => rfl
  | cons b front ih =>
    by_cases hnil : front = []
    · subst hnil
      have hb := hfront b rfl
      rw [List.cons_append, pieces_other hb, pieces_other hb]
      rfl
    · have hclosed : Closed front := by
        intro c hc
        refine hfront c ?_
        rwa [List.getLast?_cons_of_ne_nil hnil]
      obtain ⟨p, more, hpieces⟩ := List.exists_cons_of_ne_nil (mt pieces_eq_nil.mp hnil)
      rw [List.cons_append, pieces, pieces, ih hclosed, hpieces, List.cons_append]
      split
      · cases p <;> rfl
      · rfl

theorem piecesLess_append (ps qs rs : List Piece) : piecesLess (ps ++ qs) (ps ++ rs) = piecesLess qs rs := by
  induction ps with
  | nil => rfl
  | cons p ps ih => rw [List.cons_append, List.cons_append, piecesLess, if_pos rfl, ih]

/-- **Runs of digits** compare as numbers, then by their leading zeros; only after equal runs does the rest count. -/
theorem less_runs {front m n s t : List UInt8} (hfront : Closed front) (hm : Run m) (hn : Run n) (hs : Breaks s)
    (ht : Breaks t) :
    less (front ++ (m ++ s)) (front ++ (n ++ t)) = true ↔
      value m < value n ∨ value m = value n ∧ (zeros m < zeros n ∨ zeros m = zeros n ∧ less s t = true) := by
  obtain ⟨a, as, rfl⟩ := List.exists_cons_of_ne_nil hm.ne_nil
  obtain ⟨b, bs, rfl⟩ := List.exists_cons_of_ne_nil hn.ne_nil
  rw [less, pieces_append hfront, pieces_append hfront, piecesLess_append, pieces_number hm.digital hs,
    pieces_number hn.digital ht, piecesLess]
  split
  · rename_i hsame
    obtain ⟨rfl, rfl⟩ := Piece.number.inj hsame
    simp [less]
  · rename_i hne
    have hruns : ¬(value (a :: as) = value (b :: bs) ∧ zeros (a :: as) = zeros (b :: bs)) := by
      rintro ⟨hvalue, hzeros⟩
      obtain ⟨rfl, rfl⟩ := List.cons.inj (eq_of_value_zeros hm.digital hn.digital hvalue hzeros)
      exact hne rfl
    rw [Piece.less, runLess_iff hm.digital hn.digital]
    constructor
    · rintro (hlt | ⟨hvalue, hzeros⟩)
      · exact .inl hlt
      · exact .inr ⟨hvalue, .inl hzeros⟩
    · rintro (hlt | ⟨hvalue, hzeros | ⟨hzeros, -⟩⟩)
      · exact .inl hlt
      · exact .inr ⟨hvalue, hzeros⟩
      · exact absurd ⟨hvalue, hzeros⟩ hruns

/-! ## Numbered names -/

theorem value_codes {cs : List Char} (h : Number.Digits cs) : value (codes cs) = Nat.ofDigitChars 10 cs 0 := by
  rw [value, codes, List.foldl_map, Nat.ofDigitChars]
  apply List.foldl_ext
  intro n c hc
  have hbounds := Number.isDigit_bounds (h c hc)
  change 10 * n + (c.toNat % 256 - 48) = 10 * n + (c.toNat - 48)
  rw [Nat.mod_eq_of_lt (by omega)]

/-- The decimal digits of a number are a run that stands for it. -/
theorem run_toDigits (n : Nat) : Run (codes (Nat.toDigits 10 n)) ∧ value (codes (Nat.toDigits 10 n)) = n := by
  refine ⟨⟨by simp [codes], fun b hb => ?_⟩, ?_⟩
  · obtain ⟨c, hc, rfl⟩ := List.mem_map.mp hb
    have hbounds := Number.isDigit_bounds (Number.digits_toDigits n c hc)
    rw [isDigit_iff]
    change 48 ≤ c.toNat % 256 ∧ c.toNat % 256 ≤ 57
    rw [Nat.mod_eq_of_lt (by omega)]
    exact hbounds
  · rw [value_codes (Number.digits_toDigits n), Nat.ofDigitChars_ten_toDigits]

/-- A number, a point and an ending. -/
theorem toList_numbered (n : Nat) : (s!"{n}.sexp").toList = Nat.toDigits 10 n ++ ['.', 's', 'e', 'x', 'p'] := by
  have hdigits : (toString n).toList = Nat.toDigits 10 n := String.toList_ofList
  rw [String.toList_append, hdigits]
  rfl

theorem bytes_numbered (n : Nat) :
    bytes s!"{n}.sexp" = codes (Nat.toDigits 10 n) ++ codes ['.', 's', 'e', 'x', 'p'] := by
  have hname : s!"{n}.sexp" = String.ofList (Nat.toDigits 10 n ++ ['.', 's', 'e', 'x', 'p']) := by
    rw [← String.toList_inj, toList_numbered, String.toList_ofList]
  rw [hname, bytes_ofList, codes_append]
  intro c hc
  rcases List.mem_append.mp hc with hdigit | hrest
  · have := Number.isDigit_bounds (Number.digits_toDigits n c hdigit)
    omega
  · have hascii : ['.', 's', 'e', 'x', 'p'].all (·.toNat < 128) = true := by decide
    simpa using List.all_eq_true.mp hascii c hrest

theorem less_numbered {i j : Nat} (h : i < j) : less (bytes s!"{i}.sexp") (bytes s!"{j}.sexp") = true := by
  have hbreaks : Breaks (codes ['.', 's', 'e', 'x', 'p']) := by
    intro b hb
    cases hb
    decide
  have hclosed : Closed [] := by simp [Closed]
  have hruns := less_runs hclosed (run_toDigits i).1 (run_toDigits j).1 hbreaks hbreaks
  rw [bytes_numbered, bytes_numbered]
  exact hruns.mpr (.inl (by rw [(run_toDigits i).2, (run_toDigits j).2]; exact h))

/-! ## Round by round -/

/-- The comparison of two names round by round. A round looks at two runs of digits or else at two bytes; if they
differ, they decide, and if not, the comparison goes on behind them, up to the end of a name. -/
inductive Compared : List UInt8 → List UInt8 → Bool → Prop where
  | ended {a b : List UInt8} (h : a = [] ∨ b = []) : Compared a b (a.length < b.length)
  | runs {a b : UInt8} {as bs : List UInt8} (ha : isDigit a = true) (hb : isDigit b = true)
      (h : (a :: as).takeWhile isDigit ≠ (b :: bs).takeWhile isDigit) :
      Compared (a :: as) (b :: bs) (runLess ((a :: as).takeWhile isDigit) ((b :: bs).takeWhile isDigit))
  | sameRun {a b : UInt8} {as bs : List UInt8} {answer : Bool} (ha : isDigit a = true) (hb : isDigit b = true)
      (h : (a :: as).takeWhile isDigit = (b :: bs).takeWhile isDigit)
      (rest : Compared ((a :: as).dropWhile isDigit) ((b :: bs).dropWhile isDigit) answer) :
      Compared (a :: as) (b :: bs) answer
  | bytes {a b : UInt8} {as bs : List UInt8} (hdigits : ¬(isDigit a = true ∧ isDigit b = true)) (h : a ≠ b) :
      Compared (a :: as) (b :: bs) (a < b)
  | sameByte {a : UInt8} {as bs : List UInt8} {answer : Bool} (ha : isDigit a = false)
      (rest : Compared as bs answer) : Compared (a :: as) (a :: bs) answer

/-- A name that begins with a digit is a run and what follows it. -/
theorem pieces_takeWhile {b : UInt8} (hb : isDigit b = true) (bs : List UInt8) :
    pieces (b :: bs) = .number b (bs.takeWhile isDigit) :: pieces (bs.dropWhile isDigit) := by
  have hrun : Digital (b :: bs.takeWhile isDigit) :=
    List.forall_mem_cons.mpr ⟨hb, fun c hc => List.mem_takeWhile_imp hc⟩
  have hbreaks : Breaks (bs.dropWhile isDigit) := by
    intro c hc
    have hnot := List.head?_dropWhile_not isDigit bs
    rwa [Option.mem_def.mp hc] at hnot
  rw [← pieces_number hrun hbreaks, List.cons_append, List.takeWhile_append_dropWhile]

theorem Compared.less_eq {a b : List UInt8} {answer : Bool} (h : Compared a b answer) : answer = less a b := by
  induction h with
  | @ended a b h =>
    unfold less
    rcases h with rfl | rfl
    · cases b with
      | nil => rfl
      | cons b bs =>
        obtain ⟨p, ps, hpieces⟩ := List.exists_cons_of_ne_nil (mt pieces_eq_nil.mp (List.cons_ne_nil b bs))
        rw [hpieces]
        rfl
    · cases a with
      | nil => rfl
      | cons a as =>
        obtain ⟨p, ps, hpieces⟩ := List.exists_cons_of_ne_nil (mt pieces_eq_nil.mp (List.cons_ne_nil a as))
        rw [hpieces]
        rfl
  | @runs a b as bs ha hb h =>
    rw [List.takeWhile_cons_of_pos ha, List.takeWhile_cons_of_pos hb] at h ⊢
    rw [less, pieces_takeWhile ha, pieces_takeWhile hb, piecesLess, if_neg]
    · rfl
    · rintro hsame
      obtain ⟨rfl, hrest⟩ := Piece.number.inj hsame
      exact h (by rw [hrest])
  | @sameRun a b as bs answer ha hb h rest ih =>
    rw [List.takeWhile_cons_of_pos ha, List.takeWhile_cons_of_pos hb] at h
    rw [List.dropWhile_cons_of_pos ha, List.dropWhile_cons_of_pos hb] at ih
    obtain ⟨rfl, hrest⟩ := List.cons.inj h
    rw [less, pieces_takeWhile ha, pieces_takeWhile hb, piecesLess, if_pos (by rw [hrest]), ih]
    rfl
  | @bytes a b as bs hdigits h =>
    cases ha : isDigit a with
    | true =>
      have hb : isDigit b = false := by simpa [ha] using hdigits
      rw [less, pieces_takeWhile ha, pieces_other hb, piecesLess, if_neg (by simp)]
      rfl
    | false =>
      cases hb : isDigit b with
      | true =>
        rw [less, pieces_other ha, pieces_takeWhile hb, piecesLess, if_neg (by simp)]
        rfl
      | false =>
        rw [less, pieces_other ha, pieces_other hb, piecesLess, if_neg (by simpa using h)]
        rfl
  | @sameByte a as bs answer ha rest ih =>
    rw [less, pieces_other ha, pieces_other ha, piecesLess, if_pos rfl, ih]
    rfl

/-- Every round leaves less of the first name. -/
theorem exists_compared (a b : List UInt8) : ∃ answer, Compared a b answer := by
  induction hlength : a.length using Nat.strong_induction_on generalizing a b with
  | _ n ih =>
    subst hlength
    cases a with
    | nil => exact ⟨_, .ended (.inl rfl)⟩
    | cons a as =>
      cases b with
      | nil => exact ⟨_, .ended (.inr rfl)⟩
      | cons b bs =>
        by_cases hdigits : isDigit a = true ∧ isDigit b = true
        · obtain ⟨ha, hb⟩ := hdigits
          by_cases hrun : (a :: as).takeWhile isDigit = (b :: bs).takeWhile isDigit
          · have hshorter : ((a :: as).dropWhile isDigit).length < (a :: as).length := by
              rw [List.dropWhile_cons_of_pos ha, List.length_cons]
              exact Nat.lt_succ_of_le (List.dropWhile_sublist _).length_le
            obtain ⟨answer, hrest⟩ := ih _ hshorter _ ((b :: bs).dropWhile isDigit) rfl
            exact ⟨answer, .sameRun ha hb hrun hrest⟩
          · exact ⟨_, .runs ha hb hrun⟩
        · by_cases hab : a = b
          · subst hab
            obtain ⟨answer, hrest⟩ := ih as.length (by simp) as bs rfl
            exact ⟨answer, .sameByte (by simpa using hdigits) hrest⟩
          · exact ⟨_, .bytes hdigits hab⟩

/-- **Every comparison ends**, with the answer of the natural order. -/
theorem compared_iff (a b : List UInt8) (answer : Bool) : Compared a b answer ↔ answer = less a b := by
  refine ⟨Compared.less_eq, ?_⟩
  rintro rfl
  obtain ⟨answer, h⟩ := exists_compared a b
  exact h.less_eq ▸ h

/-! ## The order -/

theorem less_irrefl (a : List UInt8) : less a a = false := by
  rw [← Bool.not_eq_true, less_iff]
  exact lt_irrefl _

theorem less_trans {a b c : List UInt8} (hab : less a b = true) (hbc : less b c = true) : less a c = true := by
  rw [less_iff] at hab hbc ⊢
  exact hab.trans hbc

theorem less_trichotomy {a b : List UInt8} (h : a ≠ b) : less a b = !less b a := by
  have hkeys : keys a ≠ keys b := fun hab => h (keys_injective hab)
  rw [Bool.eq_not_iff, ne_eq, Bool.eq_iff_iff, less_iff, less_iff]
  rcases lt_or_gt_of_ne hkeys with hlt | hgt
  · simp [hlt, hlt.not_gt]
  · simp [hgt, hgt.not_gt]

/-- **The natural order is a strict total order.** No name comes before itself, the order is transitive, and of two
names exactly one comes before the other. Names that part at runs of digits are ordered by the numbers, however long,
then by their leading zeros and then by the rest, so that numbered names are in the order of their numbers. And
comparing two names round by round always comes to an end and to this answer. -/
theorem natural_order :
    (∀ a, less a a = false) ∧ (∀ a b c, less a b = true → less b c = true → less a c = true) ∧
    (∀ a b, a ≠ b → Xor (less a b = true) (less b a = true)) ∧
    (∀ front m n s t, Closed front → Run m → Run n → Breaks s → Breaks t →
      (less (front ++ (m ++ s)) (front ++ (n ++ t)) = true ↔
        value m < value n ∨ value m = value n ∧ (zeros m < zeros n ∨ zeros m = zeros n ∧ less s t = true))) ∧
    (∀ i j : Nat, i < j → less (bytes s!"{i}.sexp") (bytes s!"{j}.sexp") = true) ∧
    ∀ a b answer, Compared a b answer ↔ answer = less a b := by
  refine ⟨less_irrefl, fun a b c => less_trans, fun a b hne => ?_, ?_, fun i j => less_numbered, compared_iff⟩
  · have hone := less_trichotomy hne
    cases hba : less b a with
    | false => exact .inl ⟨by rw [hone, hba]; rfl, by simp⟩
    | true => exact .inr ⟨rfl, by rw [hone, hba]; simp⟩
  · intro front m n s t hfront hm hn hs ht
    exact less_runs hfront hm hn hs ht

/-- Pages with the numbers 2, 02 and 10, and files with the numbers 9 and 10. -/
theorem natural_order_pages :
    less (codes ['p', '2', '.']) (codes ['p', '0', '2', '.']) = true ∧
    less (codes ['p', '0', '2', '.']) (codes ['p', '1', '0', '.']) = true ∧
    less (codes ['p', '2', '.']) (codes ['p', '1', '0', '.']) = true ∧
    less (codes ['p', '1', '0', '.']) (codes ['p', '2', '.']) = false ∧
    less (bytes "9.sexp") (bytes "10.sexp") = true := by
  obtain ⟨-, htrans, hone, hruns, hnumbered, -⟩ := natural_order
  have hbreaks : Breaks (codes ['.']) := by decide
  have hpages := fun m n hm hn =>
    hruns (codes ['p']) m n (codes ['.']) (codes ['.']) (by decide) hm hn hbreaks hbreaks
  have htwo : Run (codes ['2']) := ⟨by decide, by decide⟩
  have hpadded : Run (codes ['0', '2']) := ⟨by decide, by decide⟩
  have hten : Run (codes ['1', '0']) := ⟨by decide, by decide⟩
  have hzero := (hpages _ _ htwo hpadded).mpr (by decide)
  have hvalue := (hpages _ _ hpadded hten).mpr (by decide)
  have hboth := htrans _ _ _ hzero hvalue
  refine ⟨hzero, hvalue, hboth, ?_, hnumbered 9 10 (by decide)⟩
  rcases hone (codes ['p', '2', '.']) (codes ['p', '1', '0', '.']) (by decide) with ⟨-, hnot⟩ | ⟨-, hnot⟩
  · simpa using hnot
  · exact absurd hboth hnot

/-! ## Sorted names -/

/-- The names are in natural order. -/
def Ordered (names : List String) : Prop := names.Pairwise fun a b => less (bytes b) (bytes a) = false

theorem not_less_iff (a b : List UInt8) : less b a = false ↔ keys a ≤ keys b := by
  rw [← Bool.not_eq_true, less_iff, not_lt]

theorem sort_perm (names : List String) : (sort names).Perm names := List.mergeSort_perm _ _

theorem ordered_sort (names : List String) : Ordered (sort names) := by
  have hle : ∀ a b : String, (!less (bytes b) (bytes a)) = true ↔ keys (bytes a) ≤ keys (bytes b) := by
    intro a b
    rw [Bool.not_eq_true', not_less_iff]
  have hsorted : (sort names).Pairwise fun a b => (!less (bytes b) (bytes a)) = true := by
    refine List.pairwise_mergeSort (fun a b c hab hbc => ?_) (fun a b => ?_) names
    · exact (hle a c).mpr (((hle a b).mp hab).trans ((hle b c).mp hbc))
    · rw [Bool.or_eq_true]
      exact (le_total _ _).imp (hle a b).mpr (hle b a).mpr
  exact hsorted.imp fun h => by simpa using h

/-- There is one order of names that is natural. So it does not matter how names are sorted, nor how they stood
before. -/
theorem Ordered.eq_sort {names sorted : List String} (h : Ordered sorted) (hperm : sorted.Perm names) :
    sort names = sorted := by
  refine List.Perm.eq_of_pairwise ?_ (ordered_sort names) h ((sort_perm names).trans hperm.symm)
  intro a b _ _ hab hba
  rw [not_less_iff] at hab hba
  exact bytes_inj.mp (keys_injective (le_antisymm hab hba))

end Forager.Text.Natural
