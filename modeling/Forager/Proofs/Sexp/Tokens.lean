import Mathlib.Data.List.Basic
import Mathlib.Tactic.Common
import Forager.Sexp.Parse

/-!
# Tokens of texts and of trees

* `tokens cs` : the parentheses of a text and the maximal runs of its other characters that are no white space;
* `tokensOf t` : the tokens that spell the tree `t`;
* `nests depth found ts` : the tokens complete one list, when `depth` lists are open;
* `scanFrom_scans` : scanning succeeds on the nested texts without a replacement character, and then yields their
  tokens;
* `nests_iff` : the nested sequences of tokens are those of lists; `build_tokens` : building a list from its tokens.
-/

namespace Forager.Sexp

set_option autoImplicit false

/-! ## Texts -/

def isAtomChar (c : Char) : Bool := c ≠ '(' && c ≠ ')' && !Text.isSpace c

def tokens : List Char → List Token
  | [] => []
  | c :: rest =>
    if c = '(' then .opening :: tokens rest
    else if c = ')' then .closing :: tokens rest
    else if Text.isSpace c then tokens rest
    else .atom (String.ofList (c :: rest.takeWhile isAtomChar)) :: tokens (rest.dropWhile isAtomChar)
termination_by cs => cs.length
decreasing_by
  all_goals simp only [List.length_cons]
  · omega
  · omega
  · omega
  · have := (List.dropWhile_sublist isAtomChar : (rest.dropWhile isAtomChar).Sublist rest).length_le
    omega

/-- Whether an atom that ends before these characters is complete. -/
def Delimits (cs : List Char) : Prop := ∀ c ∈ cs.head?, isAtomChar c = false

theorem delimits_nil : Delimits [] := by
  intro c hc
  cases hc

theorem delimits_cons {c : Char} (rest : List Char) (h : isAtomChar c = false) : Delimits (c :: rest) := by
  intro d hd
  cases hd
  exact h

@[simp] theorem tokens_nil : tokens [] = [] := by rw [tokens]

@[simp] theorem tokens_opening (rest : List Char) : tokens ('(' :: rest) = .opening :: tokens rest := by
  rw [tokens, if_pos rfl]

@[simp] theorem tokens_closing (rest : List Char) : tokens (')' :: rest) = .closing :: tokens rest := by
  rw [tokens, if_neg (by decide), if_pos rfl]

theorem tokens_space {c : Char} (rest : List Char) (h : Text.isSpace c = true) : tokens (c :: rest) = tokens rest := by
  have hopen : c ≠ '(' := by
    rintro rfl
    exact absurd h (by decide)
  have hclose : c ≠ ')' := by
    rintro rfl
    exact absurd h (by decide)
  rw [tokens, if_neg hopen, if_neg hclose, if_pos h]

theorem takeWhile_run {run rest : List Char} (hrun : ∀ c ∈ run, isAtomChar c = true) (hrest : Delimits rest) :
    (run ++ rest).takeWhile isAtomChar = run ∧ (run ++ rest).dropWhile isAtomChar = rest := by
  rw [List.takeWhile_append_of_pos hrun, List.dropWhile_append_of_pos hrun]
  cases rest with
  | nil => simp
  | cons c rest => simp [hrest c rfl]

theorem tokens_run {run rest : List Char} (hne : run ≠ []) (hrun : ∀ c ∈ run, isAtomChar c = true)
    (hrest : Delimits rest) : tokens (run ++ rest) = .atom (String.ofList run) :: tokens rest := by
  cases run with
  | nil => exact absurd rfl hne
  | cons c run =>
    have hc := hrun c (by simp)
    simp only [isAtomChar, ne_eq, Bool.and_eq_true, decide_eq_true_eq, Bool.not_eq_true'] at hc
    have htail : ∀ d ∈ run, isAtomChar d = true := fun d hd => hrun d (by simp [hd])
    obtain ⟨htake, hdrop⟩ := takeWhile_run htail hrest
    rw [List.cons_append, tokens, if_neg hc.1.1, if_neg hc.1.2, if_neg (by simp [hc.2]), htake, hdrop]

/-! ## Trees -/

mutual

def tokensOf : Sexp → List Token
  | .atom text => [.atom text]
  | .list items => .opening :: (tokensOfAll items ++ [.closing])

def tokensOfAll : List Sexp → List Token
  | [] => []
  | t :: rest => tokensOf t ++ tokensOfAll rest

end

theorem tokensOfAll_append (as bs : List Sexp) : tokensOfAll (as ++ bs) = tokensOfAll as ++ tokensOfAll bs := by
  induction as with
  | nil => rfl
  | cons a as ih => rw [List.cons_append, tokensOfAll, tokensOfAll, ih, List.append_assoc]

/-! ## Nesting -/

/-- Whether tokens complete one list, when `depth` lists are open. `found` tells whether a list was begun. -/
def nests : (depth : Nat) → (found : Bool) → List Token → Bool
  | depth, found, [] => depth = 0 && found
  | depth, found, .opening :: rest => !(depth = 0 && found) && nests (depth + 1) true rest
  | depth, found, .closing :: rest => depth ≠ 0 && nests (depth - 1) found rest
  | depth, found, .atom _ :: rest => depth ≠ 0 && nests depth found rest

/-- After the list is complete nothing may follow. -/
theorem nests_done {ts : List Token} (h : nests 0 true ts = true) : ts = [] := by
  cases ts with
  | nil => rfl
  | cons token rest => cases token <;> simp [nests] at h

mutual

theorem nests_tokensOf (t : Sexp) (depth : Nat) (rest : List Token) :
    nests (depth + 1) true (tokensOf t ++ rest) = nests (depth + 1) true rest := by
  match t with
  | .atom text => simp [tokensOf, nests]
  | .list items =>
    simp only [tokensOf, List.cons_append, List.append_assoc, nests]
    rw [nests_tokensOfAll items (depth + 1)]
    simp [nests]

theorem nests_tokensOfAll (items : List Sexp) (depth : Nat) (rest : List Token) :
    nests (depth + 1) true (tokensOfAll items ++ rest) = nests (depth + 1) true rest := by
  match items with
  | [] => rfl
  | t :: items => rw [tokensOfAll, List.append_assoc, nests_tokensOf t depth, nests_tokensOfAll items depth]

end

mutual

theorem build_tokensOf (t : Sexp) (items : List Sexp) (outer : Open) (rest : List Token) :
    build (items :: outer) (tokensOf t ++ rest) = build ((t :: items) :: outer) rest := by
  match t with
  | .atom text => simp [tokensOf, build, Open.add]
  | .list members =>
    simp only [tokensOf, List.cons_append, List.append_assoc, build]
    rw [build_tokensOfAll members [] (items :: outer)]
    simp [build]

theorem build_tokensOfAll (members items : List Sexp) (outer : Open) (rest : List Token) :
    build (items :: outer) (tokensOfAll members ++ rest) = build ((members.reverse ++ items) :: outer) rest := by
  match members with
  | [] => simp [tokensOfAll]
  | t :: members =>
    rw [tokensOfAll, List.append_assoc, build_tokensOf t, build_tokensOfAll members]
    simp

end

theorem build_tokens (items : List Sexp) : build [] (tokensOf (.list items)) = some (.list items) := by
  rw [tokensOf, build, build_tokensOfAll, build]
  simp

/-- The tokens that opened lists and their members so far were read from. -/
def opened : Open → List Token
  | [] => []
  | items :: outer => opened outer ++ .opening :: tokensOfAll items.reverse

theorem opened_add (t : Sexp) (items : List Sexp) (outer : Open) :
    opened ((t :: items) :: outer) = opened (items :: outer) ++ tokensOf t := by
  simp [opened, tokensOfAll_append, tokensOfAll]

-- The open lists keep the tokens read so far; each token moves from the rest to them.
theorem eq_tokensOf_of_nests (ts : List Token) (items : List Sexp) (outer : Open)
    (h : nests (outer.length + 1) true ts = true) :
    ∃ members, opened (items :: outer) ++ ts = tokensOf (.list members) := by
  induction ts generalizing items outer with
  | nil => simp [nests] at h
  | cons token rest ih =>
    cases token with
    | opening =>
      obtain ⟨members, hm⟩ := ih [] (items :: outer) (by simpa [nests] using h)
      refine ⟨members, ?_⟩
      rw [← hm]
      simp [opened, tokensOfAll]
    | atom text =>
      obtain ⟨members, hm⟩ := ih (.atom text :: items) outer (by simpa [nests] using h)
      refine ⟨members, ?_⟩
      rw [← hm, opened_add]
      simp [tokensOf]
    | closing =>
      cases outer with
      | nil =>
        have hrest : rest = [] := nests_done (by simpa [nests] using h)
        refine ⟨items.reverse, ?_⟩
        rw [hrest]
        simp [opened, tokensOf]
      | cons above outer =>
        obtain ⟨members, hm⟩ := ih (.list items.reverse :: above) outer (by simpa [nests] using h)
        refine ⟨members, ?_⟩
        rw [← hm, opened_add]
        simp [opened, tokensOf]

theorem nests_iff (ts : List Token) : nests 0 false ts = true ↔ ∃ items, ts = tokensOf (.list items) := by
  constructor
  · intro h
    cases ts with
    | nil => simp [nests] at h
    | cons token rest =>
      cases token with
      | opening =>
        obtain ⟨members, hm⟩ := eq_tokensOf_of_nests rest [] [] (by simpa [nests] using h)
        exact ⟨members, by simpa [opened, tokensOfAll] using hm⟩
      | closing => simp [nests] at h
      | atom text => simp [nests] at h
  · rintro ⟨items, rfl⟩
    rw [tokensOf, nests, nests_tokensOfAll]
    simp [nests]

/-! ## Scanning -/

/-- The characters of an atom being read, which is only read inside a list. -/
structure Pending (depth : Nat) (found : Bool) (pending : List Char) : Prop where
  atom : ∀ c ∈ pending, isAtomChar c = true
  inside : pending ≠ [] → depth ≠ 0
  begun : depth ≠ 0 → found = true

theorem Pending.none {depth : Nat} {found : Bool} (h : depth ≠ 0 → found = true) : Pending depth found [] :=
  ⟨by simp, by simp, h⟩

theorem Pending.eq_nil {depth : Nat} {found : Bool} {pending : List Char} (h : Pending depth found pending)
    (hd : depth = 0) : pending = [] := by
  by_contra hne
  exact h.inside hne hd

theorem Pending.push {depth : Nat} {found : Bool} {pending : List Char} (h : Pending depth found pending) {c : Char}
    (hc : isAtomChar c = true) (hd : depth ≠ 0) : Pending depth found (c :: pending) := by
  refine ⟨?_, fun _ => hd, h.begun⟩
  intro d hmem
  rcases List.mem_cons.mp hmem with rfl | hmem
  · exact hc
  · exact h.atom d hmem

/-- A delimiter ends the pending atom. -/
theorem tokens_flush {depth : Nat} {found : Bool} {pending : List Char} (h : Pending depth found pending)
    {rest : List Char} (hrest : Delimits rest) : tokens (pending.reverse ++ rest) = flush pending ++ tokens rest := by
  unfold flush
  cases pending with
  | nil => rfl
  | cons c pending =>
    rw [tokens_run (by simp) (fun d hd => h.atom d (List.mem_reverse.mp hd)) hrest]
    rfl

theorem nests_flush {depth : Nat} {found : Bool} {pending : List Char} (h : Pending depth found pending)
    (ts : List Token) : nests depth found (flush pending ++ ts) = nests depth found ts := by
  unfold flush
  cases pending with
  | nil => rfl
  | cons c pending => simp [nests, h.inside (by simp)]

/-- What a scan of the text `cs`, whose tokens are `ts`, finds out: whether they complete one list, and which they
are. -/
structure Scans (depth : Nat) (found : Bool) (cs : List Char) (ts : List Token) (s : Scan) : Prop where
  fault_iff : s.fault = none ↔ '\uFFFD' ∉ cs ∧ nests depth found ts = true
  tokens_eq : s.fault = none → s.tokens = ts

theorem Scans.failed {depth : Nat} {found : Bool} {cs : List Char} {ts : List Token} (e : ParseError)
    (h : '\uFFFD' ∉ cs → nests depth found ts = false) : Scans depth found cs ts ⟨[], some e⟩ := by
  refine ⟨⟨fun hok => (by cases hok), fun hok => ?_⟩, fun hok => by cases hok⟩
  rw [h hok.1] at hok
  cases hok.2

/-- A character of which the tokens `first` come stands before a text that was scanned. -/
theorem Scans.after {depth depth' : Nat} {found found' : Bool} {c : Char} {cs : List Char} {ts : List Token} {s : Scan}
    (h : Scans depth' found' cs ts s) (first : List Token) (hc : '\uFFFD' ≠ c)
    (hnests : nests depth found (first ++ ts) = nests depth' found' ts) :
    Scans depth found (c :: cs) (first ++ ts) (s.after first) := by
  refine ⟨?_, fun hok => by rw [Scan.after, h.tokens_eq hok]⟩
  rw [Scan.after, h.fault_iff, hnests, List.mem_cons, not_or]
  exact ⟨fun hok => ⟨⟨hc, hok.1⟩, hok.2⟩, fun hok => ⟨hok.1.2, hok.2⟩⟩

-- The pending atom counts as not yet read: its tokens are those of the pending characters and the text after them.
theorem scanFrom_scans (cs : List Char) (offset depth : Nat) (found : Bool) (pending : List Char)
    (h : Pending depth found pending) :
    Scans depth found cs (tokens (pending.reverse ++ cs)) (scanFrom offset depth found pending cs) := by
  fun_induction scanFrom offset depth found pending cs with
  -- The end of the text.
  | case1 offset depth found pending hd =>
    refine .failed _ fun _ => ?_
    rw [tokens_flush h delimits_nil, nests_flush h, tokens_nil, nests, decide_eq_false (by omega), Bool.false_and]
  | case2 offset depth pending hd =>
    have hdepth : depth = 0 := by omega
    have hpending := h.eq_nil hdepth
    subst hdepth hpending
    rw [List.reverse_nil, List.nil_append, tokens_nil]
    exact ⟨by simp [nests], fun _ => rfl⟩
  | case3 offset depth found pending hd hfound =>
    refine .failed _ fun _ => ?_
    rw [tokens_flush h delimits_nil, nests_flush h, tokens_nil, nests, eq_false_of_ne_true hfound, Bool.and_false]
  -- An opening parenthesis.
  | case4 offset depth found pending rest hout =>
    refine .failed _ fun _ => ?_
    rw [tokens_flush h (delimits_cons rest (by decide)), nests_flush h, tokens_opening, nests, hout]
    rfl
  | case5 offset depth found pending rest hout next ih =>
    rw [tokens_flush h (delimits_cons rest (by decide)), tokens_opening, List.append_cons]
    refine (ih (.none fun _ => rfl)).after _ (by decide) ?_
    rw [List.append_assoc, nests_flush h, List.singleton_append, nests, eq_false_of_ne_true hout]
    rfl
  -- A closing parenthesis.
  | case6 offset found pending rest hopen =>
    refine .failed _ fun _ => ?_
    rw [tokens_flush h (delimits_cons rest (by decide)), nests_flush h, tokens_closing, nests]
    rfl
  | case7 offset depth found pending rest hd next hopen ih =>
    rw [tokens_flush h (delimits_cons rest (by decide)), tokens_closing, List.append_cons]
    refine (ih (.none fun _ => h.begun hd)).after _ (by decide) ?_
    rw [List.append_assoc, nests_flush h, List.singleton_append, nests, decide_eq_true hd]
    rfl
  -- White space.
  | case8 offset depth found pending c rest next hopen hclose hspace ih =>
    have hc : isAtomChar c = false := by simp [isAtomChar, hspace]
    have hclean : '\uFFFD' ≠ c := by
      rintro rfl
      exact absurd hspace (by decide)
    rw [tokens_flush h (delimits_cons rest hc), tokens_space rest hspace]
    exact (ih (.none h.begun)).after _ hclean (nests_flush h _)
  -- A character of an atom, if it is text at all and stands inside a list.
  | case9 offset depth found pending rest hopen hclose hspace =>
    exact .failed _ fun hclean => absurd List.mem_cons_self hclean
  | case10 offset found pending c rest hopen hclose hspace hbad =>
    refine .failed _ fun _ => ?_
    rw [h.eq_nil rfl, List.reverse_nil, List.nil_append, tokens, if_neg hopen, if_neg hclose, if_neg hspace, nests]
    rfl
  | case11 offset depth found pending c rest next hopen hclose hspace hbad hd ih =>
    have hc : isAtomChar c = true := by simp [isAtomChar, hopen, hclose, hspace]
    have hrest := (ih (h.push hc hd)).after (c := c) [] (Ne.symm hbad) rfl
    rwa [List.reverse_cons, List.append_assoc, List.singleton_append] at hrest

theorem scan_scans (text : String) : Scans 0 false text.toList (tokens text.toList) (scan text) :=
  scanFrom_scans text.toList 0 0 false [] (.none fun h => absurd rfl h)

/-- Scanning succeeds on the texts without a replacement character whose tokens are those of a list. -/
theorem scan_fault_iff (text : String) :
    (scan text).fault = none ↔ '\uFFFD' ∉ text.toList ∧ ∃ items, tokens text.toList = tokensOf (.list items) := by
  rw [(scan_scans text).fault_iff, nests_iff]

theorem scan_tokens {text : String} (h : (scan text).fault = none) : (scan text).tokens = tokens text.toList :=
  (scan_scans text).tokens_eq h

end Forager.Sexp
