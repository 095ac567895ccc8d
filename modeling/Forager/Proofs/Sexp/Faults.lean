import Forager.Proofs.Sexp.RoundTrip

/-!
# Where a text goes wrong

Of the text before it, a scan needs to know only how many lists are open and whether one was begun. From every such
state the text can be completed, so a scan fails at the first character after which this is no longer possible, or at
the end of a text that lacks something.

* `Nesting`, `Nesting.read` : such a state, and what a character makes of it; `Nesting.complete` : how to complete it;
* `fault_read`, `fault_reject`, `fault_readAll` : what the fault of a scan has to do with it;
* `accepted_iff`, `extensible_iff` : the texts that are accepted, and those that begin one;
* `fault_located` : which fault a text has, and where.
-/

namespace Forager.Sexp

set_option autoImplicit false

/-! ## States of a scan -/

/-- How many lists are open, and whether one was begun. -/
@[ext] structure Nesting where
  depth : Nat
  found : Bool
  begun : depth ≠ 0 → found = true

namespace Nesting

/-- Before the first list. -/
def start : Nesting := ⟨0, false, fun h => absurd rfl h⟩

/-- After the one list. -/
def done : Nesting := ⟨0, true, fun _ => rfl⟩

/-- What a character makes of the state, if it may stand there. -/
def read (n : Nesting) (c : Char) : Option Nesting :=
  if c = '(' then
    if n.depth = 0 && n.found then none else some ⟨n.depth + 1, true, fun _ => rfl⟩
  else if c = ')' then
    if h : n.depth = 0 then none else some ⟨n.depth - 1, n.found, fun _ => n.begun h⟩
  else if Text.isSpace c then some n
  else if c = '\uFFFD' then none
  else if n.depth = 0 then none
  else some n

def readAll (n : Nesting) (cs : List Char) : Option Nesting := cs.foldlM read n

@[simp] theorem readAll_nil (n : Nesting) : n.readAll [] = some n := rfl

@[simp] theorem readAll_cons (n : Nesting) (c : Char) (cs : List Char) :
    n.readAll (c :: cs) = (n.read c).bind (·.readAll cs) := rfl

theorem readAll_append (n : Nesting) (cs ds : List Char) : n.readAll (cs ++ ds) = (n.readAll cs).bind (·.readAll ds) :=
  List.foldlM_append

/-- The shortest text that completes the list. -/
def rest (n : Nesting) : List Char := if n.found then List.replicate n.depth ')' else ['(', ')']

/-- **Every state can be completed.** -/
theorem complete (n : Nesting) : n.readAll n.rest = some done := by
  obtain ⟨depth, found, hbegun⟩ := n
  cases found with
  | true =>
    induction depth with
    | zero => rfl
    | succ depth ih => exact ih fun _ => rfl
  | false =>
    obtain rfl : depth = 0 := by
      by_contra hd
      cases hbegun hd
    rfl

/-- Where reading gets stuck. -/
theorem exists_stuck {n : Nesting} {cs : List Char} (h : n.readAll cs = none) :
    ∃ before c after n', cs = before ++ c :: after ∧ n.readAll before = some n' ∧ n'.read c = none := by
  induction cs generalizing n with
  | nil => cases h
  | cons c cs ih =>
    cases hc : n.read c with
    | none => exact ⟨[], c, cs, n, rfl, rfl, hc⟩
    | some m =>
      rw [readAll_cons, hc] at h
      obtain ⟨before, d, after, n', rfl, hbefore, hd⟩ := ih h
      exact ⟨c :: before, d, after, n', rfl, by rw [readAll_cons, hc]; exact hbefore, hd⟩

theorem read_space (n : Nesting) {c : Char} (h : Text.isSpace c = true) : n.read c = some n := by
  have hopen : c ≠ '(' := by
    rintro rfl
    exact absurd h (by decide)
  have hclose : c ≠ ')' := by
    rintro rfl
    exact absurd h (by decide)
  rw [read, if_neg hopen, if_neg hclose, if_pos h]

/-- A list that was begun stays begun, and outside of lists only white space does not begin one. -/
theorem found_of_read {n m : Nesting} {c : Char} (h : n.read c = some m)
    (hbegins : n.found = true ∨ n.depth = 0 ∧ Text.isSpace c = false) : m.found = true := by
  unfold read at h
  grind

theorem found_of_readAll {n m : Nesting} {cs : List Char} (h : n.readAll cs = some m) (hn : n.found = true) :
    m.found = true := by
  induction cs generalizing n with
  | nil =>
    cases h
    exact hn
  | cons c cs ih =>
    obtain ⟨n', hc, h⟩ := Option.bind_eq_some_iff.mp h
    exact ih h (found_of_read hc (.inl hn))

/-- As long as no list was begun there is white space only. -/
theorem found_eq_false_iff {cs : List Char} {n : Nesting} (h : start.readAll cs = some n) :
    n.found = false ↔ cs.all Text.isSpace = true := by
  induction cs with
  | nil =>
    cases h
    exact ⟨fun _ => rfl, fun _ => rfl⟩
  | cons c cs ih =>
    rw [List.all_cons]
    cases hspace : Text.isSpace c with
    | true =>
      rw [readAll_cons, read_space start hspace] at h
      rw [Bool.true_and]
      exact ih h
    | false =>
      obtain ⟨m, hc, h⟩ := Option.bind_eq_some_iff.mp h
      rw [found_of_readAll h (found_of_read hc (.inr ⟨rfl, hspace⟩)), Bool.false_and]
      exact ⟨fun h => (by cases h), fun h => by cases h⟩

end Nesting

/-! ## Faults -/

theorem byteWidth_toList (text : String) : byteWidth text.toList = text.utf8ByteSize := by
  have hall : ∀ cs : List Char, (String.ofList cs).utf8ByteSize = byteWidth cs := by
    intro cs
    induction cs with
    | nil => rfl
    | cons c cs ih =>
      rw [String.ofList_cons, String.utf8ByteSize_append, ih, String.utf8ByteSize_singleton]
      rfl
  rw [← hall, String.ofList_toList]

/-- What is wrong with a character that may not stand where it does. -/
def rejection (c : Char) : Fault := if c = '\uFFFD' then .notText else .outside

/-- What is wrong with a text that ends in this state. -/
def Nesting.lack (n : Nesting) : Option Fault :=
  if 0 < n.depth then some .unterminated else if n.found then none else some .empty

theorem fault_pending (cs : List Char) (offset depth : Nat) (found : Bool) (pending pending' : List Char) :
    (scanFrom offset depth found pending cs).fault = (scanFrom offset depth found pending' cs).fault := by
  induction cs generalizing offset depth found pending pending' with
  | nil => simp only [scanFrom]
  | cons c cs ih =>
    simp only [scanFrom]
    grind [Scan.after]

section

variable {n m : Nesting} {c : Char} (offset : Nat) (pending cs : List Char)

-- A scan and a state split on the same tests.

theorem fault_read (h : n.read c = some m) :
    (scanFrom offset n.depth n.found pending (c :: cs)).fault =
      (scanFrom (offset + c.utf8Size) m.depth m.found pending cs).fault := by
  unfold Nesting.read at h
  rw [scanFrom]
  grind [Scan.after, fault_pending]

theorem fault_reject (h : n.read c = none) :
    (scanFrom offset n.depth n.found pending (c :: cs)).fault = some ⟨rejection c, offset⟩ := by
  unfold Nesting.read at h
  rw [scanFrom, rejection]
  grind

theorem fault_end : (scanFrom offset n.depth n.found pending []).fault = n.lack.map (⟨·, offset⟩) := by
  rw [scanFrom, Nesting.lack]
  grind

end

/-- A scan goes on from the state that the text before it leaves. -/
theorem fault_readAll {n m : Nesting} {cs : List Char} (h : n.readAll cs = some m) (offset : Nat)
    (pending ds : List Char) :
    (scanFrom offset n.depth n.found pending (cs ++ ds)).fault =
      (scanFrom (offset + byteWidth cs) m.depth m.found pending ds).fault := by
  induction cs generalizing n offset with
  | nil =>
    cases h
    rfl
  | cons c cs ih =>
    obtain ⟨n', hc, h⟩ := Option.bind_eq_some_iff.mp h
    rw [List.cons_append, fault_read offset pending _ hc, ih h, Nat.add_assoc]
    rfl

/-- The fault of a text that gets stuck, and of one that does not. -/
theorem fault_of_stuck {n : Nesting} {before after : List Char} {c : Char} (h : Nesting.start.readAll before = some n)
    (hc : n.read c = none) :
    (scan (String.ofList (before ++ c :: after))).fault = some ⟨rejection c, byteWidth before⟩ := by
  have hstuck := fault_readAll h 0 [] (c :: after)
  rw [Nat.zero_add, fault_reject _ _ _ hc] at hstuck
  rw [scan, String.toList_ofList]
  exact hstuck

theorem fault_of_readAll {n : Nesting} {text : String} (h : Nesting.start.readAll text.toList = some n) :
    (scan text).fault = n.lack.map (⟨·, text.utf8ByteSize⟩) := by
  have hend := fault_readAll h 0 [] []
  rw [List.append_nil, Nat.zero_add, byteWidth_toList, fault_end] at hend
  exact hend

/-! ## Texts that can be completed -/

/-- Whether a text is read. -/
def Accepted (text : String) : Prop := ∃ t, parse text = .ok t

/-- Whether a text can be extended to one that is read. -/
def Extensible (text : String) : Prop := ∃ more, Accepted (text ++ more)

/-- What is read or not is decided by the scan. -/
theorem parse_error_iff (text : String) (e : ParseError) : parse text = .error e ↔ (scan text).fault = some e := by
  cases hfault : (scan text).fault with
  | some e' => simp [parse, hfault]
  | none =>
    obtain ⟨hclean, items, hitems⟩ := (scan_fault_iff text).mp hfault
    have hok : parse text = .ok (.list items) :=
      (parse_eq_ok_iff text _).mpr ⟨Spells.readable ⟨hclean, hitems⟩, hclean, hitems⟩
    rw [hok]
    exact ⟨fun h => (by cases h), fun h => by cases h⟩

theorem accepted_iff_fault (text : String) : Accepted text ↔ (scan text).fault = none := by
  unfold Accepted
  cases hparse : parse text with
  | ok t =>
    refine ⟨fun _ => ?_, fun _ => ⟨t, rfl⟩⟩
    cases hfault : (scan text).fault with
    | none => rfl
    | some e =>
      rw [(parse_error_iff text e).mpr hfault] at hparse
      cases hparse
  | error e =>
    rw [(parse_error_iff text e).mp hparse]
    exact ⟨fun ⟨t, ht⟩ => (by cases ht), fun h => by cases h⟩

theorem Nesting.lack_eq_none_iff {n : Nesting} : n.lack = none ↔ n = .done := by
  unfold lack
  constructor
  · intro h
    split at h
    · cases h
    · split at h
      · exact Nesting.ext (Nat.eq_zero_of_not_pos ‹_›) ‹_›
      · cases h
  · rintro rfl
    rfl

/-- A text is accepted if it leaves the state after the one list. -/
theorem accepted_iff (text : String) : Accepted text ↔ Nesting.start.readAll text.toList = some .done := by
  rw [accepted_iff_fault]
  cases h : Nesting.start.readAll text.toList with
  | some n => rw [fault_of_readAll h, Option.map_eq_none_iff, Nesting.lack_eq_none_iff, Option.some.injEq]
  | none =>
    obtain ⟨before, c, after, n, hsplit, hbefore, hc⟩ := Nesting.exists_stuck h
    rw [← String.ofList_toList (s := text), hsplit, fault_of_stuck hbefore hc]
    exact ⟨fun h => (by cases h), fun h => by cases h⟩

/-- A text begins one that is accepted if it does not get stuck. -/
theorem extensible_iff (text : String) : Extensible text ↔ ∃ n, Nesting.start.readAll text.toList = some n := by
  unfold Extensible
  constructor
  · rintro ⟨more, hmore⟩
    rw [accepted_iff, String.toList_append, Nesting.readAll_append] at hmore
    obtain ⟨n, hn, -⟩ := Option.bind_eq_some_iff.mp hmore
    exact ⟨n, hn⟩
  · rintro ⟨n, hn⟩
    refine ⟨String.ofList n.rest, ?_⟩
    rw [accepted_iff, String.toList_append, String.toList_ofList, Nesting.readAll_append, hn]
    exact n.complete

/-- What is wrong with a text that is not accepted, though it can be completed. -/
def lacking (text : String) : Fault := if text.toList.all Text.isSpace then .empty else .unterminated

theorem Nesting.lack_eq {n : Nesting} {text : String} (h : Nesting.start.readAll text.toList = some n)
    (hn : n ≠ .done) : n.lack = some (lacking text) := by
  have hfound := Nesting.found_eq_false_iff h
  unfold lack lacking
  cases hf : n.found with
  | false =>
    have hdepth : ¬ 0 < n.depth := fun hd => by
      rw [n.begun (by omega)] at hf
      cases hf
    rw [if_neg hdepth, if_neg (by decide), if_pos (hfound.mp hf)]
  | true =>
    have hdepth : 0 < n.depth := Nat.pos_of_ne_zero fun hd => hn (Nesting.ext hd hf)
    rw [if_pos hdepth, if_neg fun hall => by rw [hfound.mpr hall] at hf; cases hf]

/-- A text that can be completed up to a character and not beyond it. -/
theorem parse_of_stuck {before : String} {c : Char} (after : String) (hbefore : Extensible before)
    (hc : ¬ Extensible (before.push c)) :
    parse (before.push c ++ after) = .error ⟨rejection c, before.utf8ByteSize⟩ := by
  obtain ⟨n, hn⟩ := (extensible_iff before).mp hbefore
  have hstuck : n.read c = none := by
    cases hread : n.read c with
    | none => rfl
    | some m =>
      refine absurd ((extensible_iff _).mpr ⟨m, ?_⟩) hc
      rw [String.toList_push, Nesting.readAll_append, hn]
      simpa using hread
  have htext : before.push c ++ after = String.ofList (before.toList ++ c :: after.toList) := by
    rw [← String.toList_inj, String.toList_append, String.toList_push, String.toList_ofList, List.append_assoc]
    rfl
  rw [parse_error_iff, htext, fault_of_stuck hn hstuck, byteWidth_toList]

theorem parse_of_lacking {text : String} (haccepted : ¬ Accepted text) (hextensible : Extensible text) :
    parse text = .error ⟨lacking text, text.utf8ByteSize⟩ := by
  obtain ⟨n, hn⟩ := (extensible_iff text).mp hextensible
  have hne : n ≠ .done := by
    rintro rfl
    exact haccepted ((accepted_iff text).mpr hn)
  rw [parse_error_iff, fault_of_readAll hn, Nesting.lack_eq hn hne]
  rfl

/-- A text that cannot be completed has a first character beyond which this is so. -/
theorem exists_stuck_of_not_extensible {text : String} (h : ¬ Extensible text) :
    ∃ before c after, text = before.push c ++ after ∧ Extensible before ∧ ¬ Extensible (before.push c) := by
  have hnone : Nesting.start.readAll text.toList = none := by
    rw [extensible_iff, not_exists] at h
    exact Option.eq_none_iff_forall_ne_some.mpr h
  obtain ⟨before, c, after, n, hsplit, hbefore, hc⟩ := Nesting.exists_stuck hnone
  refine ⟨String.ofList before, c, String.ofList after, ?_, ?_, ?_⟩
  · rw [← String.toList_inj, String.toList_append, String.toList_push, String.toList_ofList, String.toList_ofList,
      hsplit, List.append_assoc]
    rfl
  · exact (extensible_iff _).mpr ⟨n, by rw [String.toList_ofList]; exact hbefore⟩
  · rw [extensible_iff, String.toList_push, String.toList_ofList, Nesting.readAll_append, hbefore]
    simp [hc]

/-- **A text goes wrong where it can no longer be completed.** The fault shows at a character if what stands before it
begins a text that is accepted and what stands up to it does not; it is that the character is no text or that it stands
outside of the list. The fault shows at the end if the text is not accepted and yet begins one that is; it is that
there is no list, if there is only white space, or else that the list does not end. There are no other faults, and
where the text is read into a forest they are the same. -/
theorem fault_located (base : Forest) (text : String) :
    (∀ e, (base.parse text).2 = .error e ↔ parse text = .error e) ∧
    (∀ e, parse text = .error e → e.offset ≤ text.utf8ByteSize) ∧
    (∀ fault offset, offset < text.utf8ByteSize → (parse text = .error ⟨fault, offset⟩ ↔
      ∃ before c after, text = before.push c ++ after ∧ offset = before.utf8ByteSize ∧
        Extensible before ∧ ¬ Extensible (before.push c) ∧
        fault = if c = '\uFFFD' then .notText else .outside)) ∧
    ∀ fault, parse text = .error ⟨fault, text.utf8ByteSize⟩ ↔
      ¬ Accepted text ∧ Extensible text ∧
        fault = if text.toList.all Text.isSpace then .empty else .unterminated := by
  have hwidth : ∀ (before after : String) (c : Char), before.utf8ByteSize < (before.push c ++ after).utf8ByteSize := by
    intro before after c
    rw [String.utf8ByteSize_append, String.utf8ByteSize_push]
    have := c.utf8Size_pos
    omega
  -- An error has one of two causes, which exclude each other by their offsets.
  have hcauses : ∀ e, parse text = .error e →
      (∃ before c after, text = before.push c ++ after ∧ Extensible before ∧ ¬ Extensible (before.push c) ∧
        e = ⟨rejection c, before.utf8ByteSize⟩) ∨
      ¬ Accepted text ∧ Extensible text ∧ e = ⟨lacking text, text.utf8ByteSize⟩ := by
    intro e he
    have hnot : ¬ Accepted text := fun ⟨t, ht⟩ => by
      rw [he] at ht
      cases ht
    by_cases hext : Extensible text
    · exact .inr ⟨hnot, hext, Except.error.inj (he.symm.trans (parse_of_lacking hnot hext))⟩
    · obtain ⟨before, c, after, rfl, hbefore, hc⟩ := exists_stuck_of_not_extensible hext
      have heq := Except.error.inj (he.symm.trans (parse_of_stuck after hbefore hc))
      exact .inl ⟨before, c, after, rfl, hbefore, hc, heq⟩
  refine ⟨fun e => ?_, fun e he => ?_, fun fault offset hlt => ⟨fun he => ?_, ?_⟩, fun fault => ⟨fun he => ?_, ?_⟩⟩
  · rw [parse_error_iff, Forest.parse]
    cases (scan text).fault <;> simp
  · rcases hcauses e he with ⟨before, c, after, rfl, -, -, rfl⟩ | ⟨-, -, rfl⟩
    · exact (hwidth before after c).le
    · exact Nat.le_refl _
  · rcases hcauses _ he with ⟨before, c, after, rfl, hbefore, hc, heq⟩ | ⟨-, -, heq⟩
    · cases heq
      exact ⟨before, c, after, rfl, rfl, hbefore, hc, rfl⟩
    · cases heq
      exact absurd hlt (Nat.lt_irrefl _)
  · rintro ⟨before, c, after, rfl, rfl, hbefore, hc, rfl⟩
    exact parse_of_stuck after hbefore hc
  · rcases hcauses _ he with ⟨before, c, after, rfl, hbefore, hc, heq⟩ | ⟨hnot, hext, heq⟩
    · exact absurd (ParseError.mk.inj heq).2.symm (hwidth before after c).ne
    · exact ⟨hnot, hext, (ParseError.mk.inj heq).1⟩
  · rintro ⟨hnot, hext, rfl⟩
    exact parse_of_lacking hnot hext

theorem fault_located_trailing :
    (Extensible "(é)\u3000" ∧ ¬ Extensible "(é)\u3000x" ∧ parse "(é)\u3000x)" = .error ⟨.outside, 7⟩) ∧
    (Extensible "(é" ∧ ¬ Extensible "(é\uFFFD" ∧ parse "(é\uFFFD)" = .error ⟨.notText, 3⟩) ∧
    ¬ Accepted "(é" ∧ parse "(é" = .error ⟨.unterminated, 3⟩ := by
  have hext : ∀ {text : String}, (Nesting.start.readAll text.toList).isSome = true → Extensible text := fun h =>
    (extensible_iff _).mpr (Option.isSome_iff_exists.mp h)
  have hnot : ∀ {text : String}, (Nesting.start.readAll text.toList).isSome = false → ¬ Extensible text := fun h hx =>
    absurd (Option.isSome_iff_exists.mpr ((extensible_iff _).mp hx)) (ne_true_of_eq_false h)
  have hclosed : Extensible "(é)\u3000" ∧ ¬ Extensible "(é)\u3000x" :=
    ⟨hext (by decide +kernel), hnot (by decide +kernel)⟩
  have hopen : Extensible "(é" ∧ ¬ Extensible "(é\uFFFD" := ⟨hext (by decide +kernel), hnot (by decide +kernel)⟩
  have hunread : ¬ Accepted "(é" := fun h => by
    rw [accepted_iff_fault] at h
    exact absurd h (by decide +kernel)
  have houtside := ((fault_located .empty "(é)\u3000x)").2.2.1 .outside 7 (by decide +kernel)).mpr
    ⟨"(é)\u3000", 'x', ")", by decide +kernel, by decide +kernel, hclosed.1, hclosed.2, rfl⟩
  have hnotText := ((fault_located .empty "(é\uFFFD)").2.2.1 .notText 3 (by decide +kernel)).mpr
    ⟨"(é", '\uFFFD', ")", by decide +kernel, by decide +kernel, hopen.1, hopen.2, rfl⟩
  have hend := ((fault_located .empty "(é").2.2.2 .unterminated).mpr ⟨hunread, hopen.1, by decide +kernel⟩
  exact ⟨⟨hclosed.1, hclosed.2, houtside⟩, ⟨hopen.1, hopen.2, hnotText⟩, hunread, hend⟩

end Forager.Sexp
