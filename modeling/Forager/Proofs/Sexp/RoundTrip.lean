import Mathlib.Data.List.TakeWhile
import Mathlib.Tactic.Common
import Forager.Proofs.Sexp.Nodes

/-!
# Reading what was written

* `Readable t` : a list whose atoms are texts that a reader takes for one atom each;
* `tokens_print`, `tokens_pretty` : both ways to write a tree have the tokens of the tree;
* `parse_eq_ok_iff` : the reader accepts the texts whose tokens spell a readable tree, and returns that tree;
* `parse_exact` : both, for trees that stand in forests.
-/

namespace Forager.Sexp

set_option autoImplicit false

/-- Whether a text can stand as an atom. -/
def isAtomText (text : String) : Bool := text ≠ "" && text.toList.all fun c => isAtomChar c && c ≠ '\uFFFD'

mutual

/-- Whether all atoms of a tree can stand as such. -/
def atomsFit : Sexp → Bool
  | .atom text => isAtomText text
  | .list items => atomsFitAll items

/-- Whether all atoms of several trees can stand as such. -/
def atomsFitAll : List Sexp → Bool
  | [] => true
  | t :: rest => atomsFit t && atomsFitAll rest

end

theorem atomsFit_list_iff (items : List Sexp) : atomsFit (.list items) = true ↔ ∀ t ∈ items, atomsFit t = true := by
  rw [atomsFit]
  induction items with
  | nil => simp [atomsFitAll]
  | cons t items ih => rw [atomsFitAll, Bool.and_eq_true, ih, List.forall_mem_cons]

/-- A list whose atoms are not empty and free of white space, parentheses and the replacement character. -/
def Readable (t : Sexp) : Prop := t.isList = true ∧ atomsFit t = true

instance (t : Sexp) : Decidable (Readable t) := inferInstanceAs (Decidable (_ ∧ _))

theorem Readable.eq_list {t : Sexp} (h : Readable t) : ∃ items, t = .list items := by
  cases t with
  | atom text => exact absurd h.1 (by simp [isList])
  | list items => exact ⟨items, rfl⟩

theorem isAtomText_iff (text : String) :
    isAtomText text = true ↔
      text.toList ≠ [] ∧ (∀ c ∈ text.toList, isAtomChar c = true) ∧ '\uFFFD' ∉ text.toList := by
  have hempty : text.toList = [] ↔ text = "" := String.toList_eq_nil_iff
  simp only [isAtomText, Bool.and_eq_true, decide_eq_true_eq, List.all_eq_true, ne_eq, hempty]
  constructor
  · rintro ⟨hne, hall⟩
    refine ⟨hne, fun c hc => (hall c hc).1, fun hmem => (hall _ hmem).2 rfl⟩
  · rintro ⟨hne, hall, hbad⟩
    refine ⟨hne, fun c hc => ⟨hall c hc, ?_⟩⟩
    rintro rfl
    exact hbad hc

theorem tokens_atom {text : String} (h : isAtomText text = true) {rest : List Char} (hrest : Delimits rest) :
    tokens (text.toList ++ rest) = .atom text :: tokens rest := by
  obtain ⟨hne, hall, -⟩ := (isAtomText_iff text).mp h
  rw [tokens_run hne hall hrest, String.ofList_toList]

/-! ## One line -/

theorem delimits_charsAfter (items : List Sexp) (rest : List Char) : Delimits (charsAfter items ++ rest) := by
  cases items with
  | nil => exact delimits_cons rest (by decide)
  | cons t items =>
    rw [charsAfter]
    exact delimits_cons _ (by decide)

mutual

theorem tokens_chars (t : Sexp) (h : atomsFit t = true) {rest : List Char} (hrest : Delimits rest) :
    tokens (chars t ++ rest) = tokensOf t ++ tokens rest := by
  match t with
  | .atom text =>
    rw [atomsFit] at h
    rw [chars, tokens_atom h hrest, tokensOf, List.singleton_append]
  | .list items =>
    rw [atomsFit] at h
    rw [chars, List.cons_append, tokens_opening, tokens_charsOf items h rest, tokensOf]
    simp

theorem tokens_charsOf (items : List Sexp) (h : atomsFitAll items = true) (rest : List Char) :
    tokens (charsOf items ++ rest) = tokensOfAll items ++ .closing :: tokens rest := by
  match items with
  | [] => exact tokens_closing rest
  | t :: items =>
    rw [atomsFitAll, Bool.and_eq_true] at h
    rw [charsOf, List.append_assoc, tokens_chars t h.1 (delimits_charsAfter items rest),
      tokens_charsAfter items h.2 rest, tokensOfAll, List.append_assoc]

theorem tokens_charsAfter (items : List Sexp) (h : atomsFitAll items = true) (rest : List Char) :
    tokens (charsAfter items ++ rest) = tokensOfAll items ++ .closing :: tokens rest := by
  match items with
  | [] => exact tokens_closing rest
  | t :: items =>
    rw [atomsFitAll, Bool.and_eq_true] at h
    rw [charsAfter, List.cons_append, tokens_space _ (by decide), List.append_assoc,
      tokens_chars t h.1 (delimits_charsAfter items rest), tokens_charsAfter items h.2 rest, tokensOfAll,
      List.append_assoc]

end

theorem tokens_print {t : Sexp} (h : atomsFit t = true) : tokens t.print.toList = tokensOf t := by
  have := tokens_chars t h delimits_nil
  rw [List.append_nil, tokens_nil, List.append_nil] at this
  rw [print, String.toList_ofList, this]

/-! ## Several lines -/

theorem delimits_newline (depth : Nat) (rest : List Char) : Delimits (newline depth ++ rest) := by
  rw [newline, List.cons_append]
  exact delimits_cons _ (by decide)

theorem tokens_newline (depth : Nat) (rest : List Char) : tokens (newline depth ++ rest) = tokens rest := by
  have hblank : ∀ n, tokens (List.replicate n ' ' ++ rest) = tokens rest := by
    intro n
    induction n with
    | zero => rfl
    | succ n ih => rw [List.replicate_succ, List.cons_append, tokens_space _ (by decide), ih]
  rw [newline, List.cons_append, tokens_space _ (by decide), hblank]

theorem delimits_layoutHead (depth : Nat) (items : List Sexp) (rest : List Char) :
    Delimits (layoutHead depth false items ++ rest) := by
  match items with
  | [] => exact delimits_cons rest (by decide)
  | .atom text :: items =>
    rw [layoutHead]
    exact delimits_cons _ (by decide)
  | .list members :: items =>
    rw [layoutHead, List.append_assoc, List.append_assoc]
    exact delimits_newline _ _

theorem delimits_layoutTail (depth : Nat) (items : List Sexp) (rest : List Char) :
    Delimits (layoutTail depth items ++ rest) := by
  cases items with
  | nil => exact delimits_cons rest (by decide)
  | cons t items =>
    rw [layoutTail, List.append_assoc, List.append_assoc]
    exact delimits_newline _ _

mutual

theorem tokens_layout (depth : Nat) (t : Sexp) (h : atomsFit t = true) {rest : List Char} (hrest : Delimits rest) :
    tokens (layout depth t ++ rest) = tokensOf t ++ tokens rest := by
  match t with
  | .atom text =>
    rw [atomsFit] at h
    rw [layout, tokens_atom h hrest, tokensOf, List.singleton_append]
  | .list items =>
    rw [layout]
    split
    · exact tokens_chars (.list items) h hrest
    · rw [atomsFit] at h
      rw [List.cons_append, tokens_opening, tokens_layoutHead depth true items h rest, tokensOf]
      simp

theorem tokens_layoutHead (depth : Nat) (first : Bool) (items : List Sexp) (h : atomsFitAll items = true)
    (rest : List Char) :
    tokens (layoutHead depth first items ++ rest) = tokensOfAll items ++ .closing :: tokens rest := by
  match items with
  | [] => exact tokens_closing rest
  | .atom text :: items =>
    rw [atomsFitAll, Bool.and_eq_true, atomsFit] at h
    have hgap : ∀ cs, tokens ((if first = true then [] else [' ']) ++ cs) = tokens cs := by
      intro cs
      cases first
      · exact tokens_space cs (by decide)
      · rfl
    rw [layoutHead, List.append_assoc, List.append_assoc, hgap, tokens_atom h.1 (delimits_layoutHead depth items rest),
      tokens_layoutHead depth false items h.2 rest, tokensOfAll, tokensOf, List.append_assoc, List.singleton_append]
  | .list members :: items =>
    rw [atomsFitAll, Bool.and_eq_true] at h
    rw [layoutHead, List.append_assoc, List.append_assoc, tokens_newline,
      tokens_layout (depth + 1) (.list members) h.1 (delimits_layoutTail depth items rest),
      tokens_layoutTail depth items h.2 rest, tokensOfAll, List.append_assoc]

theorem tokens_layoutTail (depth : Nat) (items : List Sexp) (h : atomsFitAll items = true) (rest : List Char) :
    tokens (layoutTail depth items ++ rest) = tokensOfAll items ++ .closing :: tokens rest := by
  match items with
  | [] => exact tokens_closing rest
  | t :: items =>
    rw [atomsFitAll, Bool.and_eq_true] at h
    rw [layoutTail, List.append_assoc, List.append_assoc, tokens_newline,
      tokens_layout (depth + 1) t h.1 (delimits_layoutTail depth items rest), tokens_layoutTail depth items h.2 rest,
      tokensOfAll, List.append_assoc]

end

theorem tokens_pretty {t : Sexp} (h : atomsFit t = true) : tokens t.pretty.toList = tokensOf t := by
  have := tokens_layout 0 t h (delimits_cons [] (show isAtomChar '\n' = false by decide))
  rw [tokens_space [] (by decide), tokens_nil, List.append_nil] at this
  rw [pretty, String.toList_ofList, this]

/-! ## Readable texts -/

/-- The atoms of a text without a replacement character can stand as such. -/
theorem isAtomText_of_mem_tokens {cs : List Char} (hclean : '\uFFFD' ∉ cs) {text : String}
    (h : .atom text ∈ tokens cs) : isAtomText text = true := by
  fun_induction tokens cs with
  | case1 => cases h
  | case2 rest ih =>
    rcases List.mem_cons.mp h with h | h
    · cases h
    · exact ih (fun hm => hclean (List.mem_cons_of_mem _ hm)) h
  | case3 rest hne ih =>
    rcases List.mem_cons.mp h with h | h
    · cases h
    · exact ih (fun hm => hclean (List.mem_cons_of_mem _ hm)) h
  | case4 c rest hopen hclose hspace ih => exact ih (fun hm => hclean (List.mem_cons_of_mem _ hm)) h
  | case5 c rest hopen hclose hspace ih =>
    rcases List.mem_cons.mp h with h | h
    · cases h
      have hc : isAtomChar c = true := by simp [isAtomChar, hopen, hclose, hspace]
      rw [isAtomText_iff, String.toList_ofList]
      refine ⟨by simp, ?_, ?_⟩
      · intro d hd
        rcases List.mem_cons.mp hd with rfl | hd
        · exact hc
        · exact List.mem_takeWhile_imp hd
      · intro hmem
        rcases List.mem_cons.mp hmem with rfl | hmem
        · exact hclean (by simp)
        · exact hclean (List.mem_cons_of_mem _ ((List.takeWhile_sublist _).subset hmem))
    · exact ih (fun hm => hclean (List.mem_cons_of_mem _ ((List.dropWhile_sublist _).subset hm))) h

/-- A replacement character stands in an atom. -/
theorem mem_tokens_of_replacement {cs : List Char} (h : '\uFFFD' ∈ cs) :
    ∃ text, .atom text ∈ tokens cs ∧ '\uFFFD' ∈ text.toList := by
  fun_induction tokens cs with
  | case1 => cases h
  | case2 rest ih =>
    obtain ⟨text, hmem, hbad⟩ := ih ((List.mem_cons.mp h).resolve_left (by decide))
    exact ⟨text, List.mem_cons_of_mem _ hmem, hbad⟩
  | case3 rest hne ih =>
    obtain ⟨text, hmem, hbad⟩ := ih ((List.mem_cons.mp h).resolve_left (by decide))
    exact ⟨text, List.mem_cons_of_mem _ hmem, hbad⟩
  | case4 c rest hopen hclose hspace ih =>
    refine ih ((List.mem_cons.mp h).resolve_left ?_)
    rintro rfl
    exact absurd hspace (by decide)
  | case5 c rest hopen hclose hspace ih =>
    have hsplit : rest = rest.takeWhile isAtomChar ++ rest.dropWhile isAtomChar :=
      (List.takeWhile_append_dropWhile).symm
    rw [hsplit, ← List.cons_append, List.mem_append] at h
    rcases h with h | h
    · refine ⟨_, List.mem_cons_self, ?_⟩
      rw [String.toList_ofList]
      exact h
    · obtain ⟨text, hmem, hbad⟩ := ih h
      exact ⟨text, List.mem_cons_of_mem _ hmem, hbad⟩

mutual

theorem atomsFit_iff (t : Sexp) :
    atomsFit t = true ↔ ∀ text, .atom text ∈ tokensOf t → isAtomText text = true := by
  match t with
  | .atom text => simp [atomsFit, tokensOf]
  | .list items => simp [atomsFit, tokensOf, atomsFitAll_iff items]

theorem atomsFitAll_iff (ts : List Sexp) :
    atomsFitAll ts = true ↔ ∀ text, .atom text ∈ tokensOfAll ts → isAtomText text = true := by
  match ts with
  | [] => simp [atomsFitAll, tokensOfAll]
  | t :: rest =>
    rw [atomsFitAll, Bool.and_eq_true, atomsFit_iff t, atomsFitAll_iff rest, tokensOfAll]
    simp only [List.mem_append]
    exact ⟨fun h text hm => hm.elim (h.1 text) (h.2 text),
      fun h => ⟨fun text hm => h text (.inl hm), fun text hm => h text (.inr hm)⟩⟩

end

/-- Whether a text spells a tree: it has its tokens, and no replacement character. -/
def Spells (text : String) (t : Sexp) : Prop := '\uFFFD' ∉ text.toList ∧ tokens text.toList = tokensOf t

theorem Spells.readable {text : String} {items : List Sexp} (h : Spells text (.list items)) :
    Readable (.list items) := by
  refine ⟨rfl, (atomsFit_iff _).mpr fun atom hmem => ?_⟩
  rw [← h.2] at hmem
  exact isAtomText_of_mem_tokens h.1 hmem

theorem scan_of_spells {text : String} {items : List Sexp} (h : Spells text (.list items)) :
    (scan text).fault = none ∧ (scan text).tokens = tokensOf (.list items) := by
  have hok : (scan text).fault = none := (scan_fault_iff text).mpr ⟨h.1, items, h.2⟩
  exact ⟨hok, (scan_tokens hok).trans h.2⟩

/-- The reader accepts the texts that spell a list, and returns the list. -/
theorem parse_eq_ok_iff (text : String) (t : Sexp) : parse text = .ok t ↔ Readable t ∧ Spells text t := by
  constructor
  · intro h
    unfold parse at h
    cases hfault : (scan text).fault with
    | some e => simp [hfault] at h
    | none =>
      obtain ⟨hclean, items, hitems⟩ := (scan_fault_iff text).mp hfault
      simp only [hfault, scan_tokens hfault, hitems, build_tokens, Except.ok.injEq] at h
      subst h
      have hspells : Spells text (.list items) := ⟨hclean, hitems⟩
      exact ⟨hspells.readable, hspells⟩
  · rintro ⟨hread, hspells⟩
    obtain ⟨items, rfl⟩ := hread.eq_list
    obtain ⟨hfault, htokens⟩ := scan_of_spells hspells
    unfold parse
    simp only [hfault, htokens, build_tokens]

namespace Forest

/-- Reading a text that spells a list into a forest adds the nodes of the list. -/
theorem parse_of_spells (nodes : List Node) {text : String} {items : List Sexp} (h : Spells text (.list items)) :
    (ofNodes nodes).parse text =
      (ofNodes (nodes ++ nodesOf none nodes.length (.list items)), .ok (nodes.length : Ref)) := by
  obtain ⟨hfault, htokens⟩ := scan_of_spells h
  unfold parse
  simp only [hfault, htokens, grow_list, size_ofNodes]

theorem tree?_of_spells (base : Forest) {text : String} {items : List Sexp} (h : Spells text (.list items)) :
    ∃ f r, base.parse text = (f, .ok r) ∧ f.tree? r = some (.list items) := by
  have hparse := parse_of_spells base.nodes.toList h
  have htree := tree?_nodesOf (.list items) none base.nodes.toList []
  rw [List.append_nil] at htree
  rw [ofNodes_toList] at hparse
  exact ⟨_, _, hparse, htree⟩

/-- What is read into a forest was spelled by the text and stands below the returned node. -/
theorem tree?_of_parse {base f : Forest} {text : String} {r : Ref} (h : base.parse text = (f, .ok r)) :
    ∃ items, f.tree? r = some (.list items) ∧ Spells text (.list items) := by
  have hfault : (scan text).fault = none := by
    cases hf : (scan text).fault with
    | some e => simp [parse, hf] at h
    | none => rfl
  obtain ⟨hclean, items, hitems⟩ := (scan_fault_iff text).mp hfault
  obtain ⟨g, s, hg, hs⟩ := tree?_of_spells base ⟨hclean, hitems⟩
  rw [h] at hg
  cases hg
  exact ⟨items, hs, hclean, hitems⟩

/-- Whether a readable tree stands below a node. -/
def Readable (f : Forest) (r : Ref) : Prop := ∃ t, f.tree? r = some t ∧ Sexp.Readable t

theorem print_of_tree? {f : Forest} {r : Ref} {t : Sexp} (h : f.tree? r = some t) : f.print r = t.print := by
  simp [Forest.print, h]

theorem pretty_of_tree? {f : Forest} {r : Ref} {t : Sexp} (h : f.tree? r = some t) : f.pretty r = t.pretty := by
  simp [Forest.pretty, h]

theorem same_of_tree? {f g : Forest} {r s : Ref} {t : Sexp} (hf : f.tree? r = some t) (hg : g.tree? s = some t) :
    f.same r g s = true := by
  simp [Forest.same, hf, hg]

end Forest

/-! ## Round trips -/

theorem spells_of_tokens {t : Sexp} (h : atomsFit t = true) {text : String} (ht : tokens text.toList = tokensOf t) :
    Spells text t := by
  refine ⟨fun hmem => ?_, ht⟩
  obtain ⟨atom, hatom, hbad⟩ := mem_tokens_of_replacement hmem
  rw [ht] at hatom
  exact ((isAtomText_iff atom).mp ((atomsFit_iff t).mp h atom hatom)).2.2 hbad

theorem parse_print {t : Sexp} (h : Readable t) : parse t.print = .ok t :=
  (parse_eq_ok_iff _ _).mpr ⟨h, spells_of_tokens h.2 (tokens_print h.2)⟩

theorem parse_pretty {t : Sexp} (h : Readable t) : parse t.pretty = .ok t :=
  (parse_eq_ok_iff _ _).mpr ⟨h, spells_of_tokens h.2 (tokens_pretty h.2)⟩

/-- **The reader accepts exactly its grammar and ignores layout.** Whatever stands in the forest already, a text without
a replacement character that has the tokens of a written tree is read as that tree; a tree that is read has the tokens
of its text; both ways of writing a tree are read back. -/
theorem parse_exact (base : Forest) :
    (∀ (g : Forest) (s : Ref) (text : String), g.Readable s → '\uFFFD' ∉ text.toList →
      tokens text.toList = tokens (g.print s).toList →
      ∃ f r, base.parse text = (f, .ok r) ∧ f.same r g s = true) ∧
    (∀ (text : String) (f : Forest) (r : Ref), base.parse text = (f, .ok r) →
      f.Readable r ∧ '\uFFFD' ∉ text.toList ∧ tokens text.toList = tokens (f.print r).toList) ∧
    (∀ (g : Forest) (s : Ref), g.Readable s →
      (∃ f r, base.parse (g.print s) = (f, .ok r) ∧ f.same r g s = true) ∧
      ∃ f r, base.parse (g.pretty s) = (f, .ok r) ∧ f.same r g s = true) := by
  have hread : ∀ (g : Forest) (s : Ref) (t : Sexp) (text : String), g.tree? s = some t → Sexp.Readable t →
      Spells text t → ∃ f r, base.parse text = (f, .ok r) ∧ f.same r g s = true := by
    intro g s t text htree hread hspells
    obtain ⟨items, rfl⟩ := hread.eq_list
    obtain ⟨f, r, hparse, hf⟩ := Forest.tree?_of_spells base hspells
    exact ⟨f, r, hparse, Forest.same_of_tree? hf htree⟩
  refine ⟨?_, ?_, ?_⟩
  · rintro g s text ⟨t, htree, ht⟩ hclean htokens
    rw [Forest.print_of_tree? htree, tokens_print ht.2] at htokens
    exact hread g s t text htree ht ⟨hclean, htokens⟩
  · intro text f r hparse
    obtain ⟨items, htree, hspells⟩ := Forest.tree?_of_parse hparse
    refine ⟨⟨_, htree, hspells.readable⟩, hspells.1, ?_⟩
    rw [hspells.2, Forest.print_of_tree? htree, tokens_print hspells.readable.2]
  · rintro g s ⟨t, htree, ht⟩
    rw [Forest.print_of_tree? htree, Forest.pretty_of_tree? htree]
    exact ⟨hread g s t _ htree ht (spells_of_tokens ht.2 (tokens_print ht.2)),
      hread g s t _ htree ht (spells_of_tokens ht.2 (tokens_pretty ht.2))⟩

/-- A list with atoms before and after a list that begins with a list. -/
def mixed : Sexp := .list [.atom "if", .list [.list [], .atom "x"], .atom "y"]

theorem parse_exact_mixed :
    (∃ f r, Forest.empty.parse "\t(if((\n)x )\u3000y)" = (f, .ok r) ∧
      f.same r (Forest.empty.plant mixed).1 0 = true ∧ f.Readable r) ∧
    ∃ f r, (Forest.empty.plant mixed).1.parse ((Forest.empty.plant mixed).1.pretty 0) = (f, .ok r) ∧
      f.same r (Forest.empty.plant mixed).1 0 = true := by
  have hread : (Forest.empty.plant mixed).1.Readable 0 := ⟨mixed, by decide +kernel, by decide +kernel⟩
  obtain ⟨hspelled, hread', -⟩ := parse_exact Forest.empty
  obtain ⟨f, r, hparse, hsame⟩ := hspelled (Forest.empty.plant mixed).1 0 "\t(if((\n)x )\u3000y)" hread
    (by decide +kernel) (by decide +kernel)
  exact ⟨⟨f, r, hparse, hsame, (hread' _ f r hparse).1⟩, ((parse_exact _).2.2 _ 0 hread).2⟩

end Forager.Sexp
