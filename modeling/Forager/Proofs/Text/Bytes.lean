import Mathlib.Data.List.Basic
import Mathlib.Tactic.Common
import Forager.Text.Utf8

/-!
# The bytes of texts

* `cut_inj` : where a text is cut at a character, its parts are known;
* `bytes_inj` : texts with the same bytes are the same; `bytes_append` : the bytes of two texts in a row;
* `codes cs` : characters as bytes; `bytes_ofList` : the bytes of an ASCII text are its characters;
* `codes_append_lt_iff` : the first difference of two texts decides their order.
-/

namespace Forager.Text

set_option autoImplicit false

/-- Texts that are cut at the first of some character fall into the same parts. -/
theorem cut_inj {cut : Char} {a b r s : List Char} (ha : cut ∉ a) (hb : cut ∉ b) (h : a ++ cut :: r = b ++ cut :: s) :
    a = b ∧ r = s := by
  induction a generalizing b with
  | nil =>
    cases b with
    | nil => exact ⟨rfl, (List.cons.inj h).2⟩
    | cons d b => exact absurd ((List.cons.inj h).1 ▸ List.mem_cons_self) hb
  | cons c a ih =>
    cases b with
    | nil => exact absurd ((List.cons.inj h).1 ▸ List.mem_cons_self) ha
    | cons d b =>
      obtain ⟨rfl, htail⟩ := List.cons.inj h
      obtain ⟨rfl, hrest⟩ := ih (List.not_mem_of_not_mem_cons ha) (List.not_mem_of_not_mem_cons hb) htail
      exact ⟨rfl, hrest⟩

theorem toList_loop (bytes : ByteArray) (i : Nat) (r : List UInt8) :
    ByteArray.toList.loop bytes i r = r.reverse ++ bytes.data.toList.drop i := by
  fun_induction ByteArray.toList.loop bytes i r with
  | case1 i r h ih =>
    have hi : i < bytes.data.toList.length := by simpa using h
    rw [ih, List.drop_eq_getElem_cons hi]
    simp [ByteArray.get!, h]
  | case2 i r h =>
    have hi : bytes.data.toList.length ≤ i := by simpa using h
    rw [List.drop_eq_nil_of_le hi, List.append_nil]

theorem bytes_eq (text : String) : bytes text = text.toByteArray.data.toList := by
  rw [bytes, String.toUTF8_eq_toByteArray, ByteArray.toList, toList_loop]
  rfl

theorem bytes_inj {a b : String} : bytes a = bytes b ↔ a = b := by
  rw [bytes_eq, bytes_eq, Array.toList_inj, ← ByteArray.ext_iff, String.toByteArray_inj]

theorem bytes_append (a b : String) : bytes (a ++ b) = bytes a ++ bytes b := by
  rw [bytes_eq, bytes_eq, bytes_eq, String.toByteArray_append, ByteArray.data_append, Array.toList_append]

def codes (cs : List Char) : List UInt8 := cs.map Char.toUInt8

theorem codes_append (as bs : List Char) : codes (as ++ bs) = codes as ++ codes bs := List.map_append

theorem codes_cons (c : Char) (cs : List Char) : codes (c :: cs) = c.toUInt8 :: codes cs := rfl

/-- The bytes of an ASCII text are its characters. -/
theorem bytes_ofList {cs : List Char} (h : ∀ c ∈ cs, c.toNat < 128) : bytes (String.ofList cs) = codes cs := by
  have hflat : cs.flatMap String.utf8EncodeChar = codes cs := by
    induction cs with
    | nil => rfl
    | cons c cs ih =>
      have hc : c.utf8Size = 1 := by
        rw [Char.utf8Size_eq_one_iff, UInt32.le_iff_toNat_le]
        exact Nat.le_of_lt_succ (h c List.mem_cons_self)
      rw [List.flatMap_cons, String.utf8EncodeChar_eq_singleton hc, ih fun x hx => h x (List.mem_cons_of_mem c hx)]
      rfl
  rw [bytes_eq, String.toByteArray_ofList, List.utf8Encode, hflat]
  simp

theorem toUInt8_lt {c d : Char} (hc : c.toNat < 128) (hd : d.toNat < 128) :
    c.toUInt8 < d.toUInt8 ↔ c.toNat < d.toNat := by
  rw [UInt8.lt_iff_toNat_lt]
  change c.toNat % 256 < d.toNat % 256 ↔ _
  rw [Nat.mod_eq_of_lt (by omega), Nat.mod_eq_of_lt (by omega)]

theorem toUInt8_inj {c d : Char} (hc : c.toNat < 128) (hd : d.toNat < 128) : c.toUInt8 = d.toUInt8 ↔ c = d := by
  refine ⟨fun h => Char.toNat_inj.mp ?_, fun h => h ▸ rfl⟩
  have hnat : c.toNat % 256 = d.toNat % 256 := congrArg UInt8.toNat h
  rwa [Nat.mod_eq_of_lt (by omega), Nat.mod_eq_of_lt (by omega)] at hnat

/-- Unless one text begins the other, what follows them makes no difference to their order. -/
theorem codes_append_lt_iff {as bs : List Char} (ha : ∀ c ∈ as, c.toNat < 128) (hb : ∀ c ∈ bs, c.toNat < 128)
    (hab : ¬as <+: bs) (hba : ¬bs <+: as) (xs ys xs' ys' : List UInt8) :
    codes as ++ xs < codes bs ++ ys ↔ codes as ++ xs' < codes bs ++ ys' := by
  induction as generalizing bs with
  | nil => exact absurd List.nil_prefix hab
  | cons a as ih =>
    cases bs with
    | nil => exact absurd List.nil_prefix hba
    | cons b bs =>
      obtain ⟨ha, has⟩ := List.forall_mem_cons.mp ha
      obtain ⟨hb, hbs⟩ := List.forall_mem_cons.mp hb
      rw [codes_cons, codes_cons, List.cons_append, List.cons_append, List.cons_append, List.cons_append,
        List.cons_lt_cons_iff, List.cons_lt_cons_iff, toUInt8_inj ha hb]
      by_cases hsame : a = b
      · subst hsame
        simp only [List.prefix_cons_inj] at hab hba
        rw [ih has hbs hab hba]
      · simp only [hsame, false_and]

end Forager.Text
