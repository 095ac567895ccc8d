import Forager.Proofs.Json.Scalars

/-!
# JSON values read back

* `Fits n j` : the strings and numbers of the value `j` are well written, and it has at most `n` levels;
* `Style` : a way to write values, with blanks between their parts;
* `value?_write` : such a value is read from what a style makes of it;
* `parse?_pretty`, `parse?_print` : so is the whole text, over several lines or without blanks.
-/

namespace Forager.Json

set_option autoImplicit false

/-- Values of at most so many levels whose strings and numbers are well written. -/
inductive Fits : Nat → Json → Prop where
  | null {n : Nat} : Fits n .null
  | bool {n : Nat} (b : Bool) : Fits n (.bool b)
  | number {n : Nat} {source : List Char} (h : Numeral source) : Fits n (.number source)
  | string {n : Nat} {source : List Char} (h : Quotable source) : Fits n (.string source)
  | array {n : Nat} {items : List Json} (h : ∀ j ∈ items, Fits n j) : Fits (n + 1) (.array items)
  | object {n : Nat} {fields : List (List Char × Json)} (hkeys : ∀ f ∈ fields, Quotable f.1)
    (h : ∀ f ∈ fields, Fits n f.2) : Fits (n + 1) (.object fields)

/-! ## Blanks -/

theorem skipBlanks_cons {c : Char} (h : isBlank c = false) (cs : List Char) : skipBlanks (c :: cs) = c :: cs := by
  simp [skipBlanks, h]

theorem skipBlanks_append {blanks : List Char} (h : ∀ c ∈ blanks, isBlank c = true) (cs : List Char) :
    skipBlanks (blanks ++ cs) = skipBlanks cs :=
  List.dropWhile_append_of_pos h

theorem blank_newline (level : Nat) : ∀ c ∈ newline level, isBlank c = true := by
  intro c hc
  rcases List.mem_cons.mp hc with rfl | hc
  · rfl
  · rw [List.eq_of_mem_replicate hc]
    rfl

/-! ## Styles -/

/-- Whether a value has no parts. -/
def isFlat : Json → Bool
  | .array (_ :: _) | .object (_ :: _) => false
  | _ => true

/-- A way to write values: blanks before each item and field and before the end, by their level, and after each colon.
-/
structure Style where
  gap : Nat → List Char
  colon : List Char
  write : Nat → Json → List Char
  items : Nat → List Json → List Char
  fields : Nat → List (List Char × Json) → List Char
  blank_gap (level : Nat) : ∀ c ∈ gap level, isBlank c = true
  blank_colon : ∀ c ∈ colon, isBlank c = true
  write_flat (level : Nat) {j : Json} (h : j.isFlat = true) : write level j = chars j
  write_array (level : Nat) (item : Json) (rest : List Json) :
    write level (.array (item :: rest)) = '[' :: (gap (level + 1) ++ (write (level + 1) item ++ items level rest))
  write_object (level : Nat) (key : List Char) (j : Json) (rest : List (List Char × Json)) :
    write level (.object ((key, j) :: rest)) =
      '{' :: (gap (level + 1) ++ (quoted key ++ ':' :: (colon ++ (write (level + 1) j ++ fields level rest))))
  items_nil (level : Nat) : items level [] = gap level ++ [']']
  items_cons (level : Nat) (item : Json) (rest : List Json) :
    items level (item :: rest) = ',' :: (gap (level + 1) ++ (write (level + 1) item ++ items level rest))
  fields_nil (level : Nat) : fields level [] = gap level ++ ['}']
  fields_cons (level : Nat) (key : List Char) (j : Json) (rest : List (List Char × Json)) :
    fields level ((key, j) :: rest) =
      ',' :: (gap (level + 1) ++ (quoted key ++ ':' :: (colon ++ (write (level + 1) j ++ fields level rest))))

def Style.indented : Style where
  gap := newline
  colon := [' ']
  write := layout
  items := layoutItems
  fields := layoutFields
  blank_gap := blank_newline
  blank_colon := by simp [isBlank]
  write_flat level j h := by
    unfold isFlat at h
    split at h <;> simp_all [layout]
  write_array level item rest := by simp [layout]
  write_object level key j rest := by simp [layout]
  items_nil level := rfl
  items_cons level item rest := by simp [layoutItems]
  fields_nil level := rfl
  fields_cons level key j rest := by simp [layoutFields]

def Style.compact : Style where
  gap _ := []
  colon := []
  write _ := chars
  items _ := charsItems
  fields _ := charsFields
  blank_gap := by simp
  blank_colon := by simp
  write_flat _ _ _ := rfl
  write_array _ _ _ := rfl
  write_object _ _ _ _ := rfl
  items_nil _ := rfl
  items_cons _ _ _ := rfl
  fields_nil _ := rfl
  fields_cons _ _ _ _ := rfl

/-- A character that begins a value. -/
def Opens (c : Char) : Prop := isBlank c = false ∧ c ≠ ']'

theorem Numeral.head {cs : List Char} (h : Numeral cs) : ∃ c rest, cs = c :: rest ∧ (c = '-' ∨ c.isDigit = true) := by
  obtain ⟨negative, hwhole, hfraction, hexponent⟩ := h
  obtain ⟨c, rest, rfl, hc⟩ := hwhole.head
  cases negative with
  | true => exact ⟨'-', _, rfl, .inl rfl⟩
  | false => exact ⟨c, _, rfl, .inr hc⟩

theorem ne_of_sign_or_digit {c d : Char} (hc : c = '-' ∨ c.isDigit = true) (hsign : d ≠ '-')
    (hd : d.isDigit = false) : c ≠ d := by
  rintro rfl
  rcases hc with hc | hc
  · exact hsign hc
  · rw [hd] at hc
    cases hc

theorem Numeral.opens {c : Char} {cs : List Char} (h : Numeral (c :: cs)) : Opens c := by
  obtain ⟨d, ds, heq, hd⟩ := h.head
  obtain ⟨rfl, rfl⟩ := List.cons.inj heq
  refine ⟨?_, ne_of_sign_or_digit hd (by decide) rfl⟩
  simp [isBlank, ne_of_sign_or_digit hd (d := ' ') (by decide) rfl, ne_of_sign_or_digit hd (d := '\t') (by decide) rfl,
    ne_of_sign_or_digit hd (d := '\n') (by decide) rfl, ne_of_sign_or_digit hd (d := '\r') (by decide) rfl]

namespace Style

variable (s : Style)

theorem write_opens {n : Nat} {j : Json} (h : Fits n j) (level : Nat) :
    ∃ c cs, s.write level j = c :: cs ∧ Opens c := by
  cases h with
  | null => exact ⟨'n', _, s.write_flat level rfl, rfl, by decide⟩
  | bool b => cases b with
    | true => exact ⟨'t', _, s.write_flat level rfl, rfl, by decide⟩
    | false => exact ⟨'f', _, s.write_flat level rfl, rfl, by decide⟩
  | number hsource =>
    obtain ⟨c, cs, rfl, -⟩ := hsource.head
    exact ⟨c, cs, s.write_flat level rfl, hsource.opens⟩
  | string hsource => exact ⟨'"', _, s.write_flat level rfl, rfl, by decide⟩
  | @array n items hitems => cases items with
    | nil => exact ⟨'[', _, s.write_flat level rfl, rfl, by decide⟩
    | cons item items => exact ⟨'[', _, s.write_array level item items, rfl, by decide⟩
  | @object n fields hkeys hfields => cases fields with
    | nil => exact ⟨'{', _, s.write_flat level rfl, rfl, by decide⟩
    | cons field fields => exact ⟨'{', _, s.write_object level field.1 field.2 fields, rfl, by decide⟩

end Style

/-! ## Values -/

theorem value?_number {cs rest : List Char} (h : Numeral cs) (hrest : Follows rest) (fuel depth : Nat) :
    value? (fuel + 1) depth (cs ++ rest) = some (.number cs, rest) := by
  obtain ⟨c, cs', rfl, hc⟩ := h.head
  have hblank : skipBlanks (c :: cs' ++ rest) = c :: (cs' ++ rest) := skipBlanks_cons h.opens.1 _
  rw [value?, hblank]
  have hne : ∀ {d : Char} {ds es : List Char}, d ≠ '-' → d.isDigit = false → c :: ds ≠ d :: es := fun hsign hd heq =>
    ne_of_sign_or_digit hc hsign hd (List.cons.inj heq).1
  split
  · rename_i heq
    exact absurd heq (hne (by decide) rfl)
  · rename_i heq
    exact absurd heq (hne (by decide) rfl)
  · rename_i heq
    exact absurd heq (hne (by decide) rfl)
  · rename_i heq
    exact absurd heq (hne (by decide) rfl)
  · rename_i heq
    exact absurd heq (hne (by decide) rfl)
  · rename_i heq
    exact absurd heq (hne (by decide) rfl)
  · rw [← List.cons_append, h.scan hrest]
    rfl

/-- Whether the value is read from what the style makes of it, wherever that stands. -/
def Reads (s : Style) (n : Nat) (j : Json) : Prop :=
  ∀ (level depth fuel : Nat) (rest : List Char), depth + n ≤ nestingLimit → Follows rest →
    (s.write level j).length ≤ fuel → value? fuel depth (s.write level j ++ rest) = some (j, rest)

theorem value?_skip {cs cs' : List Char} (h : skipBlanks cs = skipBlanks cs') (fuel depth : Nat) :
    value? fuel depth cs = value? fuel depth cs' := by
  cases fuel with
  | zero => rw [value?, value?]
  | succ fuel => rw [value?, value?, h]

theorem field?_skip {cs cs' : List Char} (h : skipBlanks cs = skipBlanks cs') (fuel depth : Nat) :
    field? fuel depth cs = field? fuel depth cs' := by
  cases fuel with
  | zero => rw [field?, field?]
  | succ fuel => rw [field?, field?, h]

theorem follows_cons {c : Char} (h : c.isDigit = false ∧ c ≠ '.' ∧ c ≠ 'e' ∧ c ≠ 'E') (cs : List Char) :
    Follows (c :: cs) := by
  intro x hx
  cases hx
  exact h

/-- A number ends at a blank. -/
theorem follows_blanks {blanks cs : List Char} (h : ∀ c ∈ blanks, isBlank c = true) (hcs : Follows cs) :
    Follows (blanks ++ cs) := by
  cases blanks with
  | nil => exact hcs
  | cons c blanks =>
    have hc : ((c = ' ' ∨ c = '\t') ∨ c = '\n') ∨ c = '\r' := by simpa [isBlank] using h c List.mem_cons_self
    rcases hc with ((rfl | rfl) | rfl) | rfl <;> exact follows_cons (by decide) _

section

variable {s : Style} {n : Nat}

theorem follows_items (level : Nat) (items : List Json) (rest : List Char) : Follows (s.items level items ++ rest) := by
  cases items with
  | nil =>
    rw [s.items_nil, List.append_assoc]
    exact follows_blanks (s.blank_gap level) (follows_cons (by decide) _)
  | cons item items =>
    rw [s.items_cons]
    exact follows_cons (by decide) _

theorem follows_fields (level : Nat) (fields : List (List Char × Json)) (rest : List Char) :
    Follows (s.fields level fields ++ rest) := by
  cases fields with
  | nil =>
    rw [s.fields_nil, List.append_assoc]
    exact follows_blanks (s.blank_gap level) (follows_cons (by decide) _)
  | cons field fields =>
    rw [s.fields_cons level field.1 field.2]
    exact follows_cons (by decide) _

theorem items?_write {items : List Json} (h : ∀ j ∈ items, Reads s n j) {level depth fuel : Nat}
    (hdepth : depth + n ≤ nestingLimit) (hfuel : (s.items level items).length ≤ fuel) (rest : List Char) :
    items? fuel depth (s.items level items ++ rest) = some (items, rest) := by
  induction items generalizing fuel with
  | nil =>
    rw [s.items_nil, List.length_append, List.length_singleton] at hfuel
    obtain ⟨fuel, rfl⟩ : ∃ k, fuel = k + 1 := ⟨fuel - 1, by omega⟩
    rw [s.items_nil, List.append_assoc, List.singleton_append, items?, skipBlanks_append (s.blank_gap level),
      skipBlanks_cons rfl]
    rfl
  | cons item items ih =>
    obtain ⟨hitem, hitems⟩ := List.forall_mem_cons.mp h
    simp only [s.items_cons, List.length_cons, List.length_append] at hfuel
    obtain ⟨fuel, rfl⟩ : ∃ k, fuel = k + 1 := ⟨fuel - 1, by omega⟩
    have hfirst : value? fuel depth (s.gap (level + 1) ++ (s.write (level + 1) item ++
        (s.items level items ++ rest))) = some (item, s.items level items ++ rest) :=
      (value?_skip (skipBlanks_append (s.blank_gap _) _) fuel depth).trans
        (hitem (level + 1) depth fuel _ hdepth (follows_items level items rest) (by omega))
    have hrest : items? fuel depth (s.items level items ++ rest) = some (items, rest) := ih hitems (by omega)
    rw [s.items_cons, List.cons_append, List.append_assoc, List.append_assoc, items?, skipBlanks_cons rfl]
    simp only [hfirst, hrest, Option.bind_eq_bind, Option.bind_some]
    rfl

theorem field?_write {key : List Char} {j : Json} (hkey : Quotable key) (h : Reads s n j)
    (level : Nat) {depth fuel : Nat} {rest : List Char} (hdepth : depth + n ≤ nestingLimit) (hrest : Follows rest)
    (hfuel : (s.write level j).length < fuel) :
    field? fuel depth (quoted key ++ ':' :: (s.colon ++ (s.write level j ++ rest))) = some ((key, j), rest) := by
  obtain ⟨fuel, rfl⟩ : ∃ k, fuel = k + 1 := ⟨fuel - 1, by omega⟩
  have hvalue : value? fuel depth (s.colon ++ (s.write level j ++ rest)) = some (j, rest) :=
    (value?_skip (skipBlanks_append s.blank_colon _) fuel depth).trans (h level depth fuel rest hdepth hrest (by omega))
  rw [quoted, List.cons_append, List.append_assoc, List.singleton_append, field?, skipBlanks_cons (by decide)]
  simp only [hkey _, Option.bind_eq_bind, Option.bind_some, skipBlanks_cons (c := ':') (by decide), hvalue]
  rfl

theorem fields?_write {fields : List (List Char × Json)} (hkeys : ∀ f ∈ fields, Quotable f.1)
    (h : ∀ f ∈ fields, Reads s n f.2) {level depth fuel : Nat} (hdepth : depth + n ≤ nestingLimit)
    (hfuel : (s.fields level fields).length ≤ fuel) (rest : List Char) :
    fields? fuel depth (s.fields level fields ++ rest) = some (fields, rest) := by
  induction fields generalizing fuel with
  | nil =>
    rw [s.fields_nil, List.length_append, List.length_singleton] at hfuel
    obtain ⟨fuel, rfl⟩ : ∃ k, fuel = k + 1 := ⟨fuel - 1, by omega⟩
    rw [s.fields_nil, List.append_assoc, List.singleton_append, fields?, skipBlanks_append (s.blank_gap level),
      skipBlanks_cons rfl]
    rfl
  | cons field fields ih =>
    obtain ⟨key, j⟩ := field
    obtain ⟨hkey, hkeys⟩ := List.forall_mem_cons.mp hkeys
    obtain ⟨hj, hfields⟩ := List.forall_mem_cons.mp h
    simp only [s.fields_cons, quoted, List.length_cons, List.length_append] at hfuel
    obtain ⟨fuel, rfl⟩ : ∃ k, fuel = k + 1 := ⟨fuel - 1, by omega⟩
    have hfirst : field? fuel depth (s.gap (level + 1) ++ (quoted key ++ ':' :: (s.colon ++
        (s.write (level + 1) j ++ (s.fields level fields ++ rest))))) =
          some ((key, j), s.fields level fields ++ rest) :=
      (field?_skip (skipBlanks_append (s.blank_gap _) _) fuel depth).trans
        (field?_write hkey hj (level + 1) hdepth (follows_fields level fields rest) (by dsimp only; omega))
    have hrest : fields? fuel depth (s.fields level fields ++ rest) = some (fields, rest) :=
      ih hkeys hfields (by omega)
    rw [s.fields_cons, List.cons_append, fields?, skipBlanks_cons rfl]
    simp only [List.append_assoc, List.cons_append, hfirst, hrest, Option.bind_eq_bind, Option.bind_some]
    rfl

theorem reads_array {items : List Json} (hitems : ∀ j ∈ items, Fits n j) (ih : ∀ j ∈ items, Reads s n j) :
    Reads s (n + 1) (.array items) := by
  intro level depth fuel rest hdepth hrest hfuel
  cases items with
  | nil =>
    rw [s.write_flat level rfl] at hfuel ⊢
    obtain ⟨fuel, rfl⟩ : ∃ k, fuel = k + 1 := ⟨fuel - 1, by simp [chars] at hfuel; omega⟩
    change value? (fuel + 1) depth ('[' :: ']' :: rest) = _
    rw [value?, skipBlanks_cons rfl]
    exact if_neg (show ¬nestingLimit ≤ depth by omega)
  | cons item items =>
    obtain ⟨hitem, -⟩ := List.forall_mem_cons.mp hitems
    obtain ⟨ihitem, ihrest⟩ := List.forall_mem_cons.mp ih
    simp only [s.write_array, List.length_cons, List.length_append] at hfuel
    obtain ⟨fuel, rfl⟩ : ∃ k, fuel = k + 1 := ⟨fuel - 1, by omega⟩
    have hfirst : value? fuel (depth + 1) (s.write (level + 1) item ++ (s.items level items ++ rest)) =
        some (item, s.items level items ++ rest) :=
      ihitem (level + 1) (depth + 1) fuel _ (by omega) (follows_items level items rest) (by omega)
    have hmore : items? fuel (depth + 1) (s.items level items ++ rest) = some (items, rest) :=
      items?_write ihrest (by omega) (by omega) rest
    obtain ⟨c, cs, hwrite, hopens⟩ := s.write_opens hitem (level + 1)
    rw [s.write_array, List.cons_append, List.append_assoc, List.append_assoc, value?, skipBlanks_cons rfl]
    refine (if_neg (show ¬nestingLimit ≤ depth by omega)).trans ?_
    rw [hwrite, List.cons_append] at hfirst ⊢
    rw [skipBlanks_append (s.blank_gap (level + 1)), skipBlanks_cons hopens.1]
    split
    · rename_i heq
      exact absurd (List.cons.inj heq).1 hopens.2
    · simp only [hfirst, hmore, Option.bind_eq_bind, Option.bind_some]
      rfl

theorem reads_object {fields : List (List Char × Json)} (hkeys : ∀ f ∈ fields, Quotable f.1)
    (ih : ∀ f ∈ fields, Reads s n f.2) : Reads s (n + 1) (.object fields) := by
  intro level depth fuel rest hdepth hrest hfuel
  cases fields with
  | nil =>
    rw [s.write_flat level rfl] at hfuel ⊢
    obtain ⟨fuel, rfl⟩ : ∃ k, fuel = k + 1 := ⟨fuel - 1, by simp [chars] at hfuel; omega⟩
    change value? (fuel + 1) depth ('{' :: '}' :: rest) = _
    rw [value?, skipBlanks_cons rfl]
    exact if_neg (show ¬nestingLimit ≤ depth by omega)
  | cons field fields =>
    obtain ⟨key, j⟩ := field
    obtain ⟨hkey, hkeys⟩ := List.forall_mem_cons.mp hkeys
    obtain ⟨ihj, ihrest⟩ := List.forall_mem_cons.mp ih
    simp only [s.write_object, quoted, List.length_cons, List.length_append] at hfuel
    obtain ⟨fuel, rfl⟩ : ∃ k, fuel = k + 1 := ⟨fuel - 1, by omega⟩
    have hfirst : field? fuel (depth + 1) (quoted key ++ ':' :: (s.colon ++
        (s.write (level + 1) j ++ (s.fields level fields ++ rest)))) =
          some ((key, j), s.fields level fields ++ rest) :=
      field?_write hkey ihj (level + 1) (by omega) (follows_fields level fields rest) (by dsimp only; omega)
    have hmore : fields? fuel (depth + 1) (s.fields level fields ++ rest) = some (fields, rest) :=
      fields?_write hkeys ihrest (by omega) (by omega) rest
    rw [s.write_object, List.cons_append, value?, skipBlanks_cons rfl]
    refine (if_neg (show ¬nestingLimit ≤ depth by omega)).trans ?_
    simp only [List.append_assoc, List.cons_append]
    rw [quoted, List.cons_append] at hfirst ⊢
    rw [skipBlanks_append (s.blank_gap (level + 1)), skipBlanks_cons rfl]
    split
    · rename_i heq
      exact absurd (List.cons.inj heq).1 (by decide)
    · simp only [hfirst, hmore, Option.bind_eq_bind, Option.bind_some]
      rfl

end

/-- **Values read back.** -/
theorem value?_write (s : Style) {n : Nat} {j : Json} (h : Fits n j) : Reads s n j := by
  induction h with
  | null =>
    intro level depth fuel rest hdepth hrest hfuel
    rw [s.write_flat level rfl] at hfuel ⊢
    obtain ⟨fuel, rfl⟩ : ∃ k, fuel = k + 1 := ⟨fuel - 1, by simp [chars] at hfuel; omega⟩
    rw [value?]
    rfl
  | bool b =>
    intro level depth fuel rest hdepth hrest hfuel
    rw [s.write_flat level rfl] at hfuel ⊢
    obtain ⟨fuel, rfl⟩ : ∃ k, fuel = k + 1 := ⟨fuel - 1, by cases b <;> simp [chars] at hfuel <;> omega⟩
    cases b with
    | true =>
      rw [value?]
      rfl
    | false =>
      rw [value?]
      rfl
  | number hsource =>
    intro level depth fuel rest hdepth hrest hfuel
    rw [s.write_flat level rfl] at hfuel ⊢
    obtain ⟨c, cs, rfl, hc⟩ := hsource.head
    obtain ⟨fuel, rfl⟩ : ∃ k, fuel = k + 1 := ⟨fuel - 1, by simp [chars] at hfuel; omega⟩
    exact value?_number hsource hrest fuel depth
  | string hsource =>
    intro level depth fuel rest hdepth hrest hfuel
    rw [s.write_flat level rfl] at hfuel ⊢
    obtain ⟨fuel, rfl⟩ : ∃ k, fuel = k + 1 := ⟨fuel - 1, by simp [chars, quoted] at hfuel; omega⟩
    rw [chars, quoted, List.cons_append, List.append_assoc, List.singleton_append, value?, skipBlanks_cons rfl]
    simp only [hsource rest, Option.map_some]
  | array hitems ih => exact reads_array hitems ih
  | object hkeys hfields ih => exact reads_object hkeys ih

/-! ## Texts -/

/-- The text of a value in some style, with blanks after it. -/
theorem parse?_write (s : Style) {n : Nat} {j : Json} (h : Fits n j) (hn : n ≤ nestingLimit) (blanks : List Char)
    (hblanks : ∀ c ∈ blanks, isBlank c = true) : parse? (String.ofList (s.write 0 j ++ blanks)) = some j := by
  have hfollows : Follows (blanks ++ []) := follows_blanks hblanks (by simp [Follows])
  rw [List.append_nil] at hfollows
  have hread : value? ((s.write 0 j ++ blanks).length + 1) 0 (s.write 0 j ++ blanks) = some (j, blanks) :=
    value?_write s h 0 0 _ _ (by omega) hfollows (by simp; omega)
  have hend : skipBlanks blanks = [] := by simpa [skipBlanks] using hblanks
  unfold parse?
  dsimp only
  rw [String.toList_ofList, hread]
  simp [hend]

/-- **Texts read back**: the text of a value of at most ten thousand levels is read as that value. -/
theorem parse?_pretty {n : Nat} {j : Json} (h : Fits n j) (hn : n ≤ nestingLimit) : parse? j.pretty = some j :=
  parse?_write .indented h hn ['\n'] (by simp [isBlank])

theorem parse?_print {n : Nat} {j : Json} (h : Fits n j) (hn : n ≤ nestingLimit) : parse? j.print = some j := by
  have hread := parse?_write .compact h hn [] (by simp)
  rwa [List.append_nil] at hread

end Forager.Json
