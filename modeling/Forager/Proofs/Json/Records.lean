import Forager.Archive.Record
import Forager.Proofs.Json.RoundTrip

/-!
# Records read back

What is filled in from a text, a number, a list and an object that were written from a value, and that none of them is
written with a character that is special in HTML.
-/

namespace Forager.Json

set_option autoImplicit false

namespace Fits

variable {n : Nat}

theorem ofText (text : String) : Fits n (Json.ofText text) := .string (quotable_escape text)

theorem ofInt (k : Int) : Fits n (Json.ofInt k) := .number (numeral_toString k)

theorem ofFloat? {x : Float} {j : Json} (h : Json.ofFloat? x = some j) : Fits n j := by
  unfold Json.ofFloat? Number.json? at h
  split at h
  · rename_i hx
    cases h
    exact .number (numeral_text _ hx)
  · cases h

/-- An object with texts for keys. -/
theorem ofFields {fields : List (String × Json)} (h : ∀ f ∈ fields, Fits n f.2) :
    Fits (n + 1) (Json.ofFields fields) := by
  refine .object (fun f hf => ?_) fun f hf => ?_
  · obtain ⟨g, -, rfl⟩ := List.mem_map.mp hf
    exact quotable_escape g.1
  · obtain ⟨g, hg, rfl⟩ := List.mem_map.mp hf
    exact h g hg

theorem ofTexts (texts : List String) : Fits (n + 1) (Json.ofTexts texts) := by
  refine .array fun j hj => ?_
  obtain ⟨text, -, rfl⟩ := List.mem_map.mp hj
  exact ofText text

end Fits

/-! ## Special characters -/

/-- Whether none of these characters is one that is written by its code point. -/
def HtmlSafe (cs : List Char) : Prop := ∀ c ∈ cs, isEscapedByCode c = false

theorem HtmlSafe.append {as bs : List Char} (ha : HtmlSafe as) (hb : HtmlSafe bs) : HtmlSafe (as ++ bs) :=
  List.forall_mem_append.mpr ⟨ha, hb⟩

theorem HtmlSafe.cons {c : Char} {cs : List Char} (hc : isEscapedByCode c = false) (h : HtmlSafe cs) :
    HtmlSafe (c :: cs) :=
  List.forall_mem_cons.mpr ⟨hc, h⟩

theorem htmlSafe_digits {ds : List Char} (h : Number.Digits ds) : HtmlSafe ds := by
  have hall : ∀ n < 58, 48 ≤ n → isEscapedByCode (Char.ofNat n) = false := by decide
  intro c hc
  have hbounds := Number.isDigit_bounds (h c hc)
  rw [← Char.ofNat_toNat c]
  exact hall c.toNat (by omega) (by omega)

theorem Numeral.htmlSafe {cs : List Char} (h : Numeral cs) : HtmlSafe cs := by
  obtain @⟨negative, whole, fraction, exponent, hwhole, hfraction, hexponent⟩ := h
  have hsafe : HtmlSafe (whole ++ (fraction ++ exponent)) := by
    refine .append ?_ (.append ?_ ?_)
    · cases hwhole with
      | zero => exact .cons rfl (List.forall_mem_nil _)
      | digits h hc => exact htmlSafe_digits h
    · cases hfraction with
      | none => exact List.forall_mem_nil _
      | digits h hne => exact .cons rfl (htmlSafe_digits h)
    · cases hexponent with
      | none => exact List.forall_mem_nil _
      | digits hsign h hne =>
        refine .cons rfl (.cons ?_ (htmlSafe_digits h))
        rcases hsign with rfl | rfl <;> rfl
  cases negative with
  | false => exact hsafe
  | true => exact .cons rfl hsafe

theorem htmlSafe_escapeChar (c : Char) : HtmlSafe (escapeChar c) := by
  have hletter : ∀ p ∈ shortEscapes, isEscapedByCode p.2 = false := by decide
  have hhex : ∀ n < 16, isEscapedByCode (Nat.digitChar n) = false := by decide
  unfold escapeChar
  split
  · rename_i hfind
    exact .cons rfl (.cons (hletter _ (List.mem_of_find?_eq_some hfind)) (List.forall_mem_nil _))
  · split
    · refine .cons rfl (.cons rfl fun d hd => ?_)
      obtain ⟨i, -, rfl⟩ := List.mem_map.mp (List.mem_reverse.mp hd)
      exact hhex _ (Nat.mod_lt _ (by decide))
    · rename_i hcode
      exact .cons (Bool.not_eq_true _ ▸ hcode) (List.forall_mem_nil _)

theorem htmlSafe_quoted_escape (text : String) : HtmlSafe (quoted (escape text)) := by
  refine .cons rfl (.append (fun c hc => ?_) (.cons rfl (List.forall_mem_nil _)))
  obtain ⟨d, -, hd⟩ := List.mem_flatMap.mp hc
  exact htmlSafe_escapeChar d c hd

theorem htmlSafe_ofInt (k : Int) : HtmlSafe (ofInt k).chars := (numeral_toString k).htmlSafe

theorem htmlSafe_ofFloat? {x : Float} {j : Json} (h : ofFloat? x = some j) : HtmlSafe j.chars := by
  unfold ofFloat? Number.json? at h
  split at h
  · rename_i hx
    cases h
    exact (numeral_text _ hx).htmlSafe
  · cases h

theorem htmlSafe_array {items : List Json} (h : ∀ j ∈ items, HtmlSafe j.chars) : HtmlSafe (array items).chars := by
  have hmore : ∀ items : List Json, (∀ j ∈ items, HtmlSafe j.chars) → HtmlSafe (charsItems items) := by
    intro items h
    induction items with
    | nil => exact .cons rfl (List.forall_mem_nil _)
    | cons item items ih =>
      obtain ⟨hitem, hitems⟩ := List.forall_mem_cons.mp h
      exact .cons rfl (.append hitem (ih hitems))
  cases items with
  | nil => exact .cons rfl (.cons rfl (List.forall_mem_nil _))
  | cons item items =>
    obtain ⟨hitem, hitems⟩ := List.forall_mem_cons.mp h
    exact .cons rfl (.append hitem (hmore items hitems))

theorem htmlSafe_ofTexts (texts : List String) : HtmlSafe (ofTexts texts).chars := by
  refine htmlSafe_array fun j hj => ?_
  obtain ⟨text, -, rfl⟩ := List.mem_map.mp hj
  exact htmlSafe_quoted_escape text

theorem htmlSafe_ofFields {fields : List (String × Json)} (h : ∀ f ∈ fields, HtmlSafe f.2.chars) :
    HtmlSafe (ofFields fields).chars := by
  have hmore : ∀ fields : List (String × Json), (∀ f ∈ fields, HtmlSafe f.2.chars) →
      HtmlSafe (charsFields (fields.map fun f => (escape f.1, f.2))) := by
    intro fields h
    induction fields with
    | nil => exact .cons rfl (List.forall_mem_nil _)
    | cons field fields ih =>
      obtain ⟨hfield, hfields⟩ := List.forall_mem_cons.mp h
      exact .cons rfl (.append (htmlSafe_quoted_escape field.1) (.cons rfl (.append hfield (ih hfields))))
  cases fields with
  | nil => exact .cons rfl (.cons rfl (List.forall_mem_nil _))
  | cons field fields =>
    obtain ⟨hfield, hfields⟩ := List.forall_mem_cons.mp h
    exact .cons rfl (.append (htmlSafe_quoted_escape field.1) (.cons rfl (.append hfield (hmore fields hfields))))

namespace Fill

theorem text_ofText (blank text : String) : Fill.text blank (Json.ofText text) = some text :=
  congrArg some (unescape_escape text)

theorem integer_integerJson (blank n : Int64) : Fill.integer blank (Archive.integerJson n) = some n := by
  have hread : Number.integer? (String.ofList (toString n.toInt).toList) = .ok n.toInt := by
    rw [String.ofList_toList]
    exact Number.integer?_toString n.le_toInt (Int.le_of_lt_add_one n.toInt_lt)
  change (Number.integer? (String.ofList (toString n.toInt).toList)).toOption.map Int64.ofInt = some n
  rw [hread]
  exact congrArg some (Int64.ofInt_toInt n)

theorem real_ofFloat? {x : Float} {j : Json} (h : Json.ofFloat? x = some j) (blank : Float) :
    Fill.real blank j = some x := by
  unfold Json.ofFloat? Number.json? at h
  split at h
  · rename_i hx
    cases h
    change (Number.real? (String.ofList (Number.Layout.json.text x).toList)).toOption = some x
    rw [String.ofList_toList, Number.real?_text _ hx]
    rfl
  · cases h

/-- Fields are filled in one after the other. -/
theorem record_ofFields_cons {ρ : Type} (fields : List (String × Fill ρ)) (r : ρ) (key : String) (j : Json)
    (rest : List (String × Json)) :
    record fields r (ofFields ((key, j) :: rest)) =
      (match find? fields key with
        | some fill => fill r j
        | none => some r) >>= fun r => record fields r (ofFields rest) := by
  conv_rhs => rw [← unescape_escape key]
  rfl

theorem record_ofFields_nil {ρ : Type} (fields : List (String × Fill ρ)) (r : ρ) :
    record fields r (ofFields []) = some r := rfl

theorem read?_pretty {α : Type} (fill : Fill α) (blank : α) {n : Nat} {j : Json} (h : Fits n j)
    (hn : n ≤ nestingLimit) :
    fill.read? blank j.pretty = fill blank j := by
  unfold read?
  rw [parse?_pretty h hn]
  rfl

theorem read?_print {α : Type} (fill : Fill α) (blank : α) {n : Nat} {j : Json} (h : Fits n j) (hn : n ≤ nestingLimit) :
    fill.read? blank j.print = fill blank j := by
  unfold read?
  rw [parse?_print h hn]
  rfl

end Fill

end Forager.Json
