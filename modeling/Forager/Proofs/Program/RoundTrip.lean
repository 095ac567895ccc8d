import Forager.Proofs.Number.RoundTrip
import Forager.Proofs.Program.Shape
import Forager.Proofs.Sexp.RoundTrip

/-!
# Printed expressions read back

* `real?_realText` : the text of a finite number in an expression is read as that number;
* `readable_toSexp` : every expression but a number is printed as a readable tree;
* `build_toSexp` : a well-formed expression is built again from its tree;
* `parse_iff` : the texts that are read as an expression are those whose tree builds it;
* `print_exact` : well-formed expressions are read back from both of their texts.
-/

namespace Forager.Program

set_option autoImplicit false

/-! ## Numbers in expressions -/

theorem isAtomChar_of_isNumeral {c : Char} (h : Number.isNumeral c = true) :
    Sexp.isAtomChar c = true ∧ c ≠ '\uFFFD' := by
  simp only [Number.isNumeral, Bool.or_eq_true, decide_eq_true_eq] at h
  rcases h with (((h | rfl) | rfl) | rfl) | rfl
  · obtain ⟨hlow, hhigh⟩ := Number.isDigit_bounds h
    have hall : ∀ n < 58, 48 ≤ n → Sexp.isAtomChar (Char.ofNat n) = true ∧ Char.ofNat n ≠ '\uFFFD' := by decide
    rw [← Char.ofNat_toNat c]
    exact hall c.toNat (by omega) hlow
  all_goals decide

theorem mem_signed {c : Char} {cs : List Char} (negative : Bool) (h : c ∈ cs) : c ∈ Number.signed negative cs := by
  cases negative with
  | false => exact h
  | true => exact List.mem_cons_of_mem _ h

theorem signed_append (negative : Bool) (cs ds : List Char) :
    Number.signed negative (cs ++ ds) = Number.signed negative cs ++ ds := by
  cases negative <;> rfl

/-- The text of a finite number is a numeral for its shortest decimal, with a point if it is a whole number. -/
theorem realText_finite {x : Float} (h : Number.isFinite x = true) :
    ∃ negative m q cs, Number.shape x = .finite negative m q ∧
      Number.Denoting cs (Number.Decimal.shortest m q).value ∧
      realText x = String.ofList (Number.signed negative cs) := by
  obtain ⟨negative, m, q, hx, hm⟩ := Number.shape_of_isFinite h
  have hwrite := Number.denoting_write .compact hm
  generalize hcs : Number.Layout.compact.write (.shortest m q) = cs at hwrite
  have htext : Number.compact x = String.ofList (Number.signed negative cs) := by
    rw [Number.compact, Number.Layout.text, hx, ← hcs]
    rfl
  unfold realText
  simp only [htext, String.toList_ofList]
  split
  · exact ⟨negative, m, q, cs, hx, hwrite, rfl⟩
  · rename_i hbare
    have hnot : ∀ c ∈ cs, (decide (c = '.') || decide (c = 'e') || decide (c = 'n') || decide (c = 'N')) = false :=
      fun c hc => by
        have := List.any_eq_false.mp (Bool.not_eq_true _ ▸ hbare) c (mem_signed negative hc)
        simpa using this
    refine ⟨negative, m, q, cs ++ ['.', '0'], hx, hwrite.append_point ?_ ?_, ?_⟩
    · intro hpoint
      cases hnot _ hpoint
    · intro hmark
      cases hnot _ hmark
    · rw [signed_append, String.ofList_append]

/-- **The text of a finite number** in an expression is read as that number. -/
theorem real?_realText {x : Float} (h : Number.isFinite x = true) : Number.real? (realText x) = .ok x := by
  obtain ⟨negative, m, q, cs, hx, hcs, htext⟩ := realText_finite h
  rw [htext]
  exact hcs.real?_eq hx

theorem readReal_realText (word : String) {x : Float} (h : Number.isFinite x = true) :
    readReal word (realText x) = .ok x := by
  rw [readReal, real?_realText h]
  exact if_pos h

/-- The doubles that are not finite have names. -/
theorem realText_infinite {x : Float} (h : Number.isFinite x = false) :
    realText x = "NaN" ∨ realText x = "-Inf" ∨ realText x = "+Inf" := by
  unfold Number.isFinite at h
  match hshape : Number.shape x with
  | .nan => simp [realText, Number.compact, Number.Layout.text, hshape]
  | .infinite true => simp [realText, Number.compact, Number.Layout.text, hshape]
  | .infinite false => simp [realText, Number.compact, Number.Layout.text, hshape]
  | .finite .. => simp [hshape] at h

/-- Only the texts of finite numbers are read. -/
theorem isFinite_of_readReal {word : String} {x y : Float} (h : readReal word (realText x) = .ok y) :
    Number.isFinite x = true := by
  by_contra hx
  have hnamed : Number.real? "NaN" = .ok Number.nan ∧ Number.real? "-Inf" = .ok (Number.infinity true) ∧
      Number.real? "+Inf" = .ok (Number.infinity false) := ⟨rfl, rfl, rfl⟩
  have hnone : Number.isFinite Number.nan = false ∧ ∀ negative, Number.isFinite (Number.infinity negative) = false := by
    decide +kernel
  unfold readReal at h
  rcases realText_infinite (by simpa using hx) with htext | htext | htext
  · simp [htext, hnamed.1, hnone.1] at h
  · simp [htext, hnamed.2.1, hnone.2] at h
  · simp [htext, hnamed.2.2, hnone.2] at h

/-- The text of any double can stand as an atom. -/
theorem isAtomText_realText (x : Float) : Sexp.isAtomText (realText x) = true := by
  by_cases hx : Number.isFinite x = true
  · obtain ⟨negative, m, q, cs, -, ⟨v, e, hcs, -⟩, htext⟩ := realText_finite hx
    obtain ⟨c, rest, hhead, -⟩ := hcs.head
    have hall := Number.isNumeral_signed hcs.isNumeral negative
    rw [Sexp.isAtomText_iff, htext, String.toList_ofList]
    refine ⟨?_, fun c hc => (isAtomChar_of_isNumeral (hall c hc)).1,
      fun h => (isAtomChar_of_isNumeral (hall _ h)).2 rfl⟩
    exact List.ne_nil_of_mem (mem_signed negative (hhead ▸ List.mem_cons_self))
  · rcases realText_infinite (by simpa using hx) with h | h | h <;> rw [h] <;> decide

/-- So can the text of any integer. -/
theorem isAtomText_toString (n : Int) : Sexp.isAtomText (toString n) = true := by
  have hall := Number.isNumeral_signed (fun c hc => Number.isNumeral_of_isDigit (Number.digits_toDigits n.natAbs c hc))
    (decide (n < 0))
  rw [Sexp.isAtomText_iff, Number.toString_eq_signed, String.toList_ofList]
  refine ⟨?_, fun c hc => (isAtomChar_of_isNumeral (hall c hc)).1,
    fun h => (isAtomChar_of_isNumeral (hall _ h)).2 rfl⟩
  obtain ⟨c, rest, hhead⟩ := List.exists_cons_of_ne_nil (Nat.toDigits_ne_nil (n := n.natAbs) (b := 10))
  exact List.ne_nil_of_mem (mem_signed _ (hhead ▸ List.mem_cons_self))

/-! ## Trees of expressions -/

namespace Expr

theorem toSexps_eq_map (args : List Expr) : toSexps args = args.map toSexp := by
  induction args with
  | nil => rfl
  | cons e rest ih => rw [toSexps, ih, List.map_cons]

theorem toSexp_isList {e : Expr} (h : e.isLiteral = false) : e.toSexp.isList = true := by
  obtain ⟨op, args⟩ := e
  cases op with
  | literal x => cases h
  | _ => rfl

theorem atomsFit_toSexps {args : List Expr} (h : ∀ a ∈ args, Sexp.atomsFit a.toSexp = true) :
    Sexp.atomsFitAll (toSexps args) = true := by
  rw [toSexps_eq_map, ← Sexp.atomsFit, Sexp.atomsFit_list_iff]
  exact List.forall_mem_map.mpr h

/-- Whatever an expression mentions, its texts can stand as atoms. -/
theorem atomsFit_toSexp (e : Expr) : Sexp.atomsFit e.toSexp = true := by
  induction e using Expr.args_induction with
  | node op args ih =>
    have hargs := atomsFit_toSexps ih
    cases op with
    | literal x => exact isAtomText_realText x
    | getRange sensor =>
      simp only [toSexp, Sexp.atomsFit, Sexp.atomsFitAll, isAtomText_toString, Bool.and_true]
      decide
    | setSpeed left right =>
      simp only [toSexp, Sexp.atomsFit, Sexp.atomsFitAll, isAtomText_realText, Bool.and_true]
      decide
    | inState state =>
      simp only [toSexp, Sexp.atomsFit, Sexp.atomsFitAll, Bool.and_true]
      cases state <;> decide
    | comparison c =>
      simp only [toSexp, Sexp.atomsFit, Sexp.atomsFitAll, hargs, Bool.and_true]
      cases c <;> decide
    | _ =>
      simp only [toSexp, Sexp.atomsFit, Sexp.atomsFitAll, hargs, Bool.and_true]
      decide

/-- Every expression but a number is printed as a readable tree. -/
theorem readable_toSexp {e : Expr} (h : e.isLiteral = false) : Sexp.Readable e.toSexp :=
  ⟨toSexp_isList h, atomsFit_toSexp e⟩

end Expr

/-! ## Building again -/

theorem buildLists_toSexps (word : String) {args : List Expr}
    (h : ∀ a ∈ args, a.isLiteral = false ∧ build a.toSexp = .ok a) :
    buildLists word (Expr.toSexps args) = .ok args := by
  induction args with
  | nil => rfl
  | cons a args ih =>
    obtain ⟨hlit, hbuild⟩ := h a List.mem_cons_self
    have hrest := ih fun b hb => h b (List.mem_cons_of_mem a hb)
    obtain ⟨items, hitems⟩ := (Expr.readable_toSexp hlit).eq_list
    rw [hitems] at hbuild
    rw [Expr.toSexps, hitems, buildLists, hbuild, hrest]
    rfl

theorem buildOperands_toSexps {args : List Expr}
    (h : ∀ a ∈ args, (∃ x, Number.isFinite x = true ∧ a = .leaf (.literal x)) ∨
      a.isLiteral = false ∧ build a.toSexp = .ok a) :
    buildOperands (Expr.toSexps args) = .ok args := by
  induction args with
  | nil => rfl
  | cons a args ih =>
    have hrest := ih fun b hb => h b (List.mem_cons_of_mem a hb)
    rcases h a List.mem_cons_self with ⟨x, hx, rfl⟩ | ⟨hlit, hbuild⟩
    · rw [Expr.toSexps, Expr.leaf, Expr.toSexp, buildOperands, readReal_realText "" hx, hrest]
      rfl
    · obtain ⟨items, hitems⟩ := (Expr.readable_toSexp hlit).eq_list
      rw [hitems] at hbuild
      rw [Expr.toSexps, hitems, buildOperands, hbuild, hrest]
      rfl

theorem length_toSexps (args : List Expr) : (Expr.toSexps args).length = args.length := by
  rw [Expr.toSexps_eq_map, List.length_map]

theorem readSensor_toString {sensor : Int} (hlow : 0 ≤ sensor) (hhigh : sensor < sensorCount) :
    readSensor [.atom (toString sensor)] = .ok (.getRange sensor) := by
  have hcount : (sensorCount : Int) = 16 := rfl
  rw [readSensor, Number.integer?_toString (by unfold Number.leastInt; omega) (by unfold Number.greatestInt; omega)]
  exact if_pos ⟨hlow, hhigh⟩

theorem readSpeeds_realText {left right : Float} (hl : Number.isFinite left = true)
    (hr : Number.isFinite right = true) :
    readSpeeds [.atom (realText left), .atom (realText right)] = .ok (.setSpeed left right) := by
  rw [readSpeeds, readReal_realText _ hl, readReal_realText _ hr]
  rfl

theorem readState_name (state : State) : readState [.atom state.name] = .ok (.inState state) := by
  have hname : State.ofName? state.name = some state := by cases state <;> decide
  rw [readState, hname]

/-- **A well-formed expression is built again** from its tree. -/
theorem build_toSexp {e : Expr} (h : e.WellFormed) (hlit : e.isLiteral = false) : build e.toSexp = .ok e := by
  induction e using Expr.args_induction with
  | node op args ih =>
    obtain ⟨⟨htakes, hfinite⟩, hargs⟩ := (Expr.wellFormed_node op args).mp h
    have hlogical : args.all (!·.isLiteral) = true → ∀ word, buildLists word (Expr.toSexps args) = .ok args := by
      intro hall word
      refine buildLists_toSexps word fun a ha => ?_
      have hlit : a.isLiteral = false := by simpa using List.all_eq_true.mp hall a ha
      exact ⟨hlit, ih a ha (hargs a ha) hlit⟩
    have hcount := length_toSexps args
    cases op with
    | literal x => cases hlit
    | step => exact (Built.logical .step args (ofWord?_word (by decide)) rfl rfl (hlogical htakes _)).build_eq
    | all => exact (Built.logical .all args (ofWord?_word (by decide)) rfl rfl (hlogical htakes _)).build_eq
    | any => exact (Built.logical .any args (ofWord?_word (by decide)) rfl rfl (hlogical htakes _)).build_eq
    | branch =>
      simp only [Op.takes, Bool.and_eq_true, Bool.or_eq_true, decide_eq_true_eq] at htakes
      obtain ⟨hlen, hall⟩ := htakes
      refine (Built.logical .branch args (ofWord?_word (by decide)) rfl ?_ (hlogical hall _)).build_eq
      rw [checkCount, if_neg (by omega), if_neg (by omega)]
    | negation =>
      simp only [Op.takes, Bool.and_eq_true, decide_eq_true_eq] at htakes
      obtain ⟨hlen, hall⟩ := htakes
      refine (Built.logical .negation args (ofWord?_word (by decide)) rfl ?_ (hlogical hall _)).build_eq
      rw [checkCount, if_pos (by omega)]
    | comparison c =>
      simp only [Op.takes, decide_eq_true_eq] at htakes
      refine (Built.comparison c args (ofWord?_word (by simp)) (by omega) ?_).build_eq
      refine buildOperands_toSexps fun a ha => ?_
      -- An operand is a list or else a number, which has a text of its own.
      cases hlit : a.isLiteral with
      | false => exact .inr ⟨rfl, ih a ha (hargs a ha) hlit⟩
      | true =>
        obtain ⟨op, as⟩ := a
        obtain ⟨⟨htakes, hfinite⟩, -⟩ := (Expr.wellFormed_node op as).mp (hargs _ ha)
        cases op with
        | literal x => exact .inl ⟨x, hfinite, by rw [List.isEmpty_iff.mp htakes]; rfl⟩
        | _ => cases hlit
    | getRange sensor =>
      simp only [Op.takes, Bool.and_eq_true, decide_eq_true_eq, List.isEmpty_iff] at htakes
      obtain ⟨⟨hlow, hhigh⟩, rfl⟩ := htakes
      exact (Built.sensor sensor (ofWord?_word (by decide)) (readSensor_toString hlow hhigh)).build_eq
    | setSpeed left right =>
      simp only [Op.isFinite, Bool.and_eq_true] at hfinite
      cases List.isEmpty_iff.mp htakes
      exact (Built.speeds left right (ofWord?_word (by decide)) (readSpeeds_realText hfinite.1 hfinite.2)).build_eq
    | inState state =>
      cases List.isEmpty_iff.mp htakes
      exact (Built.state state (ofWord?_word (by decide)) (readState_name state)).build_eq
    | noop | valueNoop | getMidpoint | getWidth | pickUp | isCarrying =>
      cases List.isEmpty_iff.mp htakes
      rfl

/-- Only the trees of finite expressions are built. -/
theorem finite_of_build {e p : Expr} (hshaped : e.shaped = true) (h : build e.toSexp = .ok p) : e.finite = true := by
  induction e using Expr.args_induction generalizing p with
  | node op args ih =>
    obtain ⟨htakes, hargs⟩ := (Expr.shaped_node op args).mp hshaped
    rw [Expr.finite_node]
    -- Where an operation has arguments, each of them was built or is a number that was read.
    have hall : ∀ {as : List Sexp}, as = Expr.toSexps args → (∀ t ∈ as, (∃ e, build t = .ok e) ∨
        ∃ text x, t = .atom text ∧ readReal "" text = .ok x) → ∀ a ∈ args, a.finite = true := by
      rintro as rfl has a ha
      rw [Expr.toSexps_eq_map] at has
      rcases has a.toSexp (List.mem_map_of_mem ha) with ⟨q, hq⟩ | ⟨text, x, htext, hx⟩
      · exact ih a ha (hargs a ha) hq
      · obtain ⟨op', as⟩ := a
        cases op' with
        | literal y =>
          cases htext
          cases List.isEmpty_iff.mp ((Expr.shaped_node _ _).mp (hargs _ ha)).1
          exact (Expr.finite_node _ _).mpr ⟨isFinite_of_readReal hx, by simp⟩
        | _ => cases htext
    obtain ⟨word, as, ht, hbuilt⟩ := build_inv h
    cases op with
    | literal x => cases ht
    | setSpeed left right =>
      cases List.isEmpty_iff.mp htakes
      cases ht
      obtain ⟨op, hop, -⟩ := ok_of_bind (show (do return Expr.leaf (← readSpeeds _)) = .ok p from h)
      obtain ⟨l, hl, hop⟩ := ok_of_bind hop
      obtain ⟨r, hr, -⟩ := ok_of_bind hop
      refine ⟨?_, by simp⟩
      rw [Op.isFinite, isFinite_of_readReal hl, isFinite_of_readReal hr]
      rfl
    | getRange sensor =>
      simp only [Op.takes, Bool.and_eq_true, List.isEmpty_iff] at htakes
      cases htakes.2
      exact ⟨rfl, by simp⟩
    | inState state | noop | valueNoop | getMidpoint | getWidth | pickUp | isCarrying =>
      cases List.isEmpty_iff.mp htakes
      exact ⟨rfl, by simp⟩
    | step | all | any | branch | negation | comparison =>
      obtain ⟨rfl, has⟩ : _ = word ∧ _ = as := by simpa [Expr.toSexp] using ht
      refine ⟨rfl, ?_⟩
      cases hbuilt with
      | comparison c es hw hlen hes => exact hall has.symm (exists_of_buildOperands hes)
      | logical kind es hw hk hcount hes => exact hall has.symm fun t ht => .inl (exists_of_buildLists hes t ht)
      | bare kind hw hk hnil => exact hall has.symm (by simp [hnil])
      | sensor n hw hn => simp [Op.kind, ofWord?_word] at hw
      | speeds l r hw hlr => simp [Op.kind, ofWord?_word] at hw
      | state s hw hs => simp [Op.kind, ofWord?_word] at hw

/-! ## Texts -/

/-- The texts that are read as an expression are those of the trees that build it. -/
theorem parse_iff {text : String} {e : Expr} :
    parse text = .ok e ↔ ∃ t, Sexp.parse text = .ok t ∧ build t = .ok e := by
  unfold parse
  cases hparse : Sexp.parse text with
  | error x => simp
  | ok t =>
    cases hbuild : build t with
    | error x => simp [Except.mapError, hbuild]
    | ok a => simp [Except.mapError, hbuild]

theorem parseProgram_iff {text : String} {e : Expr} :
    parseProgram text = .ok e ↔ parse text = .ok e ∧ e.kind = .step := by
  unfold parseProgram asProgram
  cases hparse : parse text with
  | error x => simp
  | ok a =>
    simp only
    split
    · rename_i hroot
      constructor
      · intro h
        cases h
        exact ⟨rfl, hroot⟩
      · rintro ⟨h, -⟩
        cases h
        rfl
    · rename_i hroot
      constructor
      · intro h
        cases h
      · rintro ⟨h, hstep⟩
        cases h
        exact absurd hstep hroot

theorem parse_print {e : Expr} (h : e.WellFormed) (hlit : e.isLiteral = false) : parse e.print = .ok e :=
  parse_iff.mpr ⟨e.toSexp, Sexp.parse_print (Expr.readable_toSexp hlit), build_toSexp h hlit⟩

theorem parse_pretty {e : Expr} (h : e.WellFormed) (hlit : e.isLiteral = false) : parse e.pretty = .ok e :=
  parse_iff.mpr ⟨e.toSexp, Sexp.parse_pretty (Expr.readable_toSexp hlit), build_toSexp h hlit⟩

theorem parse_wellFormed {text : String} {e : Expr} (h : parse text = .ok e) : e.WellFormed ∧ e.isLiteral = false := by
  obtain ⟨t, -, hbuild⟩ := parse_iff.mp h
  exact build_wellFormed hbuild

/-- **Printed expressions read back.** What is built is well formed and no number; every such expression is read from
its two texts; and so printing what was read, and reading it again, changes nothing, and neither does printing that. -/
theorem print_exact :
    (∀ t e, build t = .ok e → e.WellFormed ∧ e.isLiteral = false) ∧
    (∀ e : Expr, e.WellFormed → e.isLiteral = false → parse e.print = .ok e ∧ parse e.pretty = .ok e) ∧
    (∀ text e, parse text = .ok e → parse e.print = .ok e ∧ (parse e.print).map Expr.print = .ok e.print) := by
  refine ⟨fun t e => build_wellFormed, fun e h hlit => ⟨parse_print h hlit, parse_pretty h hlit⟩, fun text e h => ?_⟩
  obtain ⟨hwell, hlit⟩ := parse_wellFormed h
  have hprint := parse_print hwell hlit
  exact ⟨hprint, by rw [hprint]; rfl⟩

/-- A program with numbers in both notations, a sensor, a state and an empty sequence. -/
def racing : Expr :=
  .node .step
    [.node .branch [.node (.comparison .gte) [.leaf (.getRange 15), .leaf (.literal 0.1)],
      .leaf (.setSpeed (-1e-7) 250), .node .any []],
    .leaf (.inState .uturn)]

theorem print_exact_racing :
    racing.print = "(step (if (gte (getRange 15) 0.1) (setSpeed -1e-07 250.0) (or)) (inState uturn))" ∧
    (parse racing.print = .ok racing ∧ parse racing.pretty = .ok racing) ∧
    build racing.toSexp = .ok racing ∧ racing.WellFormed ∧
    (parse racing.print).map Expr.print = .ok racing.print := by
  have hwell : racing.WellFormed := by decide +kernel
  have hread := print_exact.2.1 racing hwell rfl
  have hbuild := build_toSexp hwell rfl
  exact ⟨by decide +kernel, hread, hbuild, (print_exact.1 _ _ hbuild).1, (print_exact.2.2 _ _ hread.1).2⟩

end Forager.Program
