import Forager.Breeding.Crossover
import Forager.Proofs.Program.RoundTrip
import Forager.Proofs.Program.Soundness

/-!
# Categories of trees

A tree has its categories right if every list in it suits the list around it, as far as the words that lead them tell.

* `typed t` : the tree has its categories right;
* `typed_toSexp` : the tree of an expression that passes the check has;
* `check_of_build` : what is built from such a tree passes the check;
* `sound_of_text` : the programs that are read from the texts of such trees are sound.
-/

namespace Forager.Breeding

set_option autoImplicit false

open Program

/-- The word that leads a list, nothing if none does. -/
def headWord : Sexp → String
  | .list (.atom word :: _) => word
  | _ => ""

/-- Whether a list that produces a real or not suits a list led by `word`. -/
def suits (word : String) (real : Bool) : Bool :=
  match (Kind.ofWord? word).bind Kind.wants with
  | some wanted => real = decide (wanted = .real)
  | none => true

mutual

/-- Whether every list of a tree suits the list around it. -/
def typed : Sexp → Bool
  | .atom _ => true
  | .list items => typedAll (headWord (.list items)) items

/-- Whether trees below a list led by `word` suit it, and are typed. -/
def typedAll (word : String) : List Sexp → Bool
  | [] => true
  | t :: rest => (!t.isList || suits word (wordIsReal (headWord t))) && typed t && typedAll word rest

end

theorem typedAll_iff (word : String) (items : List Sexp) :
    typedAll word items = true ↔
      ∀ t ∈ items, (t.isList = true → suits word (wordIsReal (headWord t)) = true) ∧ typed t = true := by
  induction items with
  | nil => simp [typedAll]
  | cons t items ih =>
    rw [typedAll, Bool.and_eq_true, Bool.and_eq_true, ih, List.forall_mem_cons]
    cases t.isList <;> simp

theorem typed_list_iff (items : List Sexp) :
    typed (.list items) = true ↔
      ∀ t ∈ items, (t.isList = true → suits (headWord (.list items)) (wordIsReal (headWord t)) = true) ∧
        typed t = true := by
  rw [typed, typedAll_iff]

/-! ## Words and kinds -/

theorem wordIsReal_of_ofWord? {word : String} {kind : Kind} (h : Kind.ofWord? word = some kind) :
    wordIsReal word = decide (kind.category = .real) := by
  rw [wordIsReal, h]

theorem suits_of_ofWord? {word : String} {kind : Kind} (h : Kind.ofWord? word = some kind) (real : Bool) :
    suits word real = true ↔ ∀ wanted ∈ kind.wants, real = decide (wanted = .real) := by
  unfold suits
  rw [h, Option.bind_some]
  cases kind.wants <;> simp

theorem kind_ne_literal {e : Expr} (h : e.isLiteral = false) : e.kind ≠ .literal := by
  obtain ⟨op, args⟩ := e
  cases op with
  | literal x => cases h
  | _ => exact fun h => by cases h

theorem headWord_toSexp {e : Expr} (h : e.isLiteral = false) : headWord e.toSexp = e.kind.word := by
  obtain ⟨op, args⟩ := e
  cases op with
  | literal x => cases h
  | _ => rfl

theorem wordIsReal_toSexp {e : Expr} (h : e.isLiteral = false) :
    wordIsReal (headWord e.toSexp) = decide (e.category = .real) := by
  rw [headWord_toSexp h]
  exact wordIsReal_of_ofWord? (ofWord?_word (kind_ne_literal h))

theorem serves_iff {c wanted : Category} (h : wanted ≠ .effect) :
    c.serves wanted = true ↔ decide (c = .real) = decide (wanted = .real) := by
  cases c <;> cases wanted <;> first | decide | exact absurd rfl h

theorem wants_ne_effect {kind : Kind} {wanted : Category} (h : wanted ∈ kind.wants) : wanted ≠ .effect := by
  rintro rfl
  cases kind <;> cases h

/-! ## Expressions and their trees -/

theorem typed_atoms {items : List Sexp} (h : ∀ t ∈ items, t.isList = false) : typed (.list items) = true := by
  rw [typed_list_iff]
  intro t ht
  have hatom := h t ht
  cases t with
  | atom text => exact ⟨fun hlist => (by cases hlist), rfl⟩
  | list items => cases hatom

/-- **The tree of an expression** that passes the check has its categories right. -/
theorem typed_toSexp {e : Expr} (hshaped : e.shaped = true) (hcheck : check e = .ok ()) : typed e.toSexp = true := by
  induction e using Expr.args_induction with
  | node op args ih =>
    rw [Expr.shaped_node] at hshaped
    have hnode : ∀ {word}, Kind.ofWord? word = some op.kind → (∃ wanted, wanted ∈ op.kind.wants) →
        typed (.list (.atom word :: Expr.toSexps args)) = true := by
      rintro word hword ⟨wanted, hwanted⟩
      rw [typed_list_iff, List.forall_mem_cons]
      refine ⟨⟨fun h => (by cases h), rfl⟩, ?_⟩
      rw [Expr.toSexps_eq_map, List.forall_mem_map]
      intro a ha
      have harg := (check_node_iff op args).mp hcheck
      refine ⟨fun hlist => (suits_of_ofWord? hword _).mpr fun wanted hwanted => ?_,
        ih a ha (hshaped.2 a ha) (harg wanted hwanted a ha).2⟩
      have hlit : a.isLiteral = false := by
        obtain ⟨op, as⟩ := a
        cases op with
        | literal x => cases hlist
        | _ => rfl
      rw [wordIsReal_toSexp hlit]
      exact (serves_iff (wants_ne_effect hwanted)).mp (harg wanted hwanted a ha).1
    cases op with
    | literal x => rfl
    | getRange sensor => exact typed_atoms (by simp [Sexp.isList])
    | setSpeed left right => exact typed_atoms (by simp [Sexp.isList])
    | inState state => exact typed_atoms (by simp [Sexp.isList])
    | step | branch | all | any | negation => exact hnode (ofWord?_word (by decide)) ⟨.boolean, rfl⟩
    | comparison c => exact hnode (ofWord?_word fun h => by cases h) ⟨.real, rfl⟩
    | noop | valueNoop | getMidpoint | getWidth | pickUp | isCarrying =>
      rw [List.isEmpty_iff.mp hshaped.1]
      exact typed_atoms (by simp [Expr.toSexps, Sexp.isList])

/-- The word that leads a tree tells whether the expression built from it produces a real. -/
theorem wordIsReal_of_build {t : Sexp} {e : Expr} (h : build t = .ok e) :
    t.isList = true ∧ wordIsReal (headWord t) = decide (e.category = .real) := by
  obtain ⟨word, args, rfl, hbuilt⟩ := build_inv h
  exact ⟨rfl, wordIsReal_of_ofWord? (hbuilt.ofWord?_kind)⟩

theorem check_leaf (op : Op) : check (.leaf op) = .ok () := by
  rw [Expr.leaf, check_node_iff]
  intro wanted _ a ha
  cases ha

/-- **What is built from a typed tree** passes the check. -/
theorem check_of_build {t : Sexp} {e : Expr} (h : build t = .ok e) (htyped : typed t = true) : check e = .ok () := by
  obtain ⟨word, args, ht, hbuilt⟩ := build_inv h
  rw [ht, typed_list_iff, List.forall_mem_cons] at htyped
  have hword := hbuilt.ofWord?_kind
  -- An argument that was built from a list passes the check itself, and its category serves.
  have harg : ∀ s ∈ args, ∀ a, build s = .ok a → ∀ wanted ∈ e.kind.wants,
      a.category.serves wanted = true ∧ check a = .ok () := by
    intro s hs a ha wanted hwanted
    obtain ⟨hsuits, hs'⟩ := htyped.2 s hs
    obtain ⟨hlist, hreal⟩ := wordIsReal_of_build ha
    have hsmaller : sizeOf s < sizeOf t := by
      have := List.sizeOf_lt_of_mem hs
      simp only [ht, Sexp.list.sizeOf_spec, List.cons.sizeOf_spec]
      omega
    refine ⟨(serves_iff (wants_ne_effect hwanted)).mpr ?_, check_of_build ha hs'⟩
    rw [← hreal]
    exact (suits_of_ofWord? hword _).mp (hsuits hlist) wanted hwanted
  cases hbuilt with
  | sensor n hw hread => exact check_leaf _
  | speeds l r hw hread => exact check_leaf _
  | state s hw hread => exact check_leaf _
  | bare kind hw hk hargs => exact check_leaf _
  | comparison c es hw hlen hes =>
    rw [check_node_iff]
    intro wanted hwanted a ha
    rcases mem_buildOperands hes ha with ⟨x, hx, rfl⟩ | ⟨s, hs, hbuild⟩
    · cases hwanted
      exact ⟨rfl, check_leaf _⟩
    · exact harg s hs a hbuild wanted hwanted
  | logical kind es hw hk hcount hes =>
    rw [check_node_iff]
    intro wanted hwanted a ha
    obtain ⟨s, hs, hbuild⟩ := mem_buildLists hes ha
    exact harg s hs a hbuild wanted hwanted
termination_by sizeOf t

/-! ## Sound programs -/

/-- Programs that were read from text and pass the check are sound. -/
theorem sound_of_parsed {e : Expr} (h : (∃ text, parseProgram text = .ok e) ∧ check e = .ok ()) : Sound e := by
  obtain ⟨⟨text, htext⟩, hcheck⟩ := h
  obtain ⟨hparse, hroot⟩ := parseProgram_iff.mp htext
  obtain ⟨t, -, hbuild⟩ := parse_iff.mp hparse
  exact ⟨hroot, (build_wellFormed hbuild).1, hcheck⟩

/-- The programs that are read from the text of a typed tree are sound. -/
theorem sound_of_text {t : Sexp} {e : Expr} (hread : Sexp.Readable t) (htyped : typed t = true)
    (h : parseProgram t.print = .ok e) : Sound e := by
  obtain ⟨hparse, hroot⟩ := parseProgram_iff.mp h
  obtain ⟨s, hs, hbuild⟩ := parse_iff.mp hparse
  rw [Sexp.parse_print hread] at hs
  cases hs
  exact ⟨hroot, (build_wellFormed hbuild).1, check_of_build hbuild htyped⟩

/-- The programs that are read from the text of an expression that passes the check are sound. -/
theorem sound_of_print {m e : Expr} (hlit : m.isLiteral = false) (hshaped : m.shaped = true) (hcheck : check m = .ok ())
    (h : parseProgram m.print = .ok e) : Sound e :=
  sound_of_text (Expr.readable_toSexp hlit) (typed_toSexp hshaped hcheck) h

end Forager.Breeding
