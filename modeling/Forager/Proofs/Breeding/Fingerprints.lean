import Mathlib.Data.Set.Card
import Forager.Proofs.Breeding.Retry
import Forager.Proofs.Text.Bytes

/-!
# Fingerprints of strategies

Strategies are told apart by the digests of their printed programs, one program on each line.

* `Sexp.newline_notMem_chars` : a tree whose atoms can be read stays on its line;
* `Program.print_inj` : well-formed expressions that are printed alike are the same;
* `imprint_inj` : so are strategies with the same imprint;
* `hexDigest_inj` : the digest is recovered from its digits;
* `Separated strategies` : no two imprints of the strategies have the same digest;
* `diversity_exact` : then the diversity of a generation is the number of its different strategies.
-/

namespace Forager

set_option autoImplicit false

/-! ## Lines -/

namespace Sexp

theorem newline_notMem_atom {text : String} (h : isAtomText text = true) : '\n' ∉ text.toList := by
  intro hmem
  have hnewline := ((isAtomText_iff text).mp h).2.1 '\n' hmem
  cases hnewline

mutual

/-- A tree whose atoms can be read stays on its line. -/
theorem newline_notMem_chars (t : Sexp) (h : atomsFit t = true) : '\n' ∉ t.chars := by
  cases t with
  | atom text => exact newline_notMem_atom h
  | list items =>
    rw [chars, List.mem_cons, not_or]
    exact ⟨by decide, newline_notMem_charsOf items h⟩

theorem newline_notMem_charsOf (items : List Sexp) (h : atomsFitAll items = true) : '\n' ∉ charsOf items := by
  cases items with
  | nil => decide
  | cons t rest =>
    obtain ⟨ht, hrest⟩ := Bool.and_eq_true_iff.mp h
    rw [charsOf, List.mem_append, not_or]
    exact ⟨newline_notMem_chars t ht, newline_notMem_charsAfter rest hrest⟩

theorem newline_notMem_charsAfter (items : List Sexp) (h : atomsFitAll items = true) : '\n' ∉ charsAfter items := by
  cases items with
  | nil => decide
  | cons t rest =>
    obtain ⟨ht, hrest⟩ := Bool.and_eq_true_iff.mp h
    rw [charsAfter, List.mem_cons, List.mem_append, not_or, not_or]
    exact ⟨by decide, newline_notMem_chars t ht, newline_notMem_charsAfter rest hrest⟩

end

end Sexp

/-! ## Printed expressions -/

namespace Program

/-- No number is printed like anything else. -/
theorem realText_ne_print (x : Float) {e : Expr} (h : e.isLiteral = false) : realText x ≠ e.print := by
  intro heq
  obtain ⟨items, hitems⟩ := (Expr.readable_toSexp h).eq_list
  have hopen : '(' ∈ (realText x).toList := by
    rw [heq, Expr.print, hitems, Sexp.print, String.toList_ofList]
    exact List.mem_cons_self
  have hatom := ((Sexp.isAtomText_iff _).mp (isAtomText_realText x)).2.1 '(' hopen
  cases hatom

theorem eq_literal {e : Expr} (h : e.WellFormed) (hlit : e.isLiteral = true) :
    ∃ x, Number.isFinite x = true ∧ e = .leaf (.literal x) := by
  obtain ⟨op, args⟩ := e
  obtain ⟨⟨htakes, hfinite⟩, -⟩ := (Expr.wellFormed_node op args).mp h
  cases op with
  | literal x => exact ⟨x, hfinite, by rw [List.isEmpty_iff.mp htakes]; rfl⟩
  | _ => cases hlit

/-- **Well-formed expressions that are printed alike are the same.** -/
theorem print_inj {a b : Expr} (ha : a.WellFormed) (hb : b.WellFormed) : a.print = b.print ↔ a = b := by
  refine ⟨fun h => ?_, fun h => h ▸ rfl⟩
  have hatom (x : Float) : (Expr.leaf (.literal x)).print = realText x := by
    rw [Expr.print, Expr.leaf, Expr.toSexp, Sexp.print, Sexp.chars, String.ofList_toList]
  cases hlita : a.isLiteral with
  | false =>
    cases hlitb : b.isLiteral with
    | false => exact Except.ok.inj ((parse_print ha hlita).symm.trans (h ▸ parse_print hb hlitb))
    | true =>
      obtain ⟨y, -, rfl⟩ := eq_literal hb hlitb
      exact absurd ((hatom y).symm.trans h.symm) (realText_ne_print y hlita)
  | true =>
    obtain ⟨x, hx, rfl⟩ := eq_literal ha hlita
    cases hlitb : b.isLiteral with
    | false => exact absurd ((hatom x).symm.trans h) (realText_ne_print x hlitb)
    | true =>
      obtain ⟨y, hy, rfl⟩ := eq_literal hb hlitb
      rw [hatom, hatom] at h
      rw [Except.ok.inj ((real?_realText hx).symm.trans (h ▸ real?_realText hy))]

end Program

namespace Breeding

open Program (Expr)

namespace Individual

/-- The imprint is that of the printed programs, each of them with the end of its line. -/
theorem imprint_eq (programs : List Expr) :
    imprint programs = Text.bytes (String.ofList (programs.flatMap fun e => e.toSexp.chars ++ ['\n'])) := by
  induction programs with
  | nil =>
    rw [List.flatMap_nil, Text.bytes_ofList (fun c hc => absurd hc List.not_mem_nil)]
    rfl
  | cons e rest ih =>
    rw [imprint, List.flatMap_cons, ← imprint, ih, List.flatMap_cons, String.ofList_append, Text.bytes_append,
      String.ofList_append]
    rfl

/-- **Well-formed programs with the same imprint are the same**, one by one. -/
theorem imprint_inj {ps qs : List Expr} (hp : ∀ e ∈ ps, e.WellFormed) (hq : ∀ e ∈ qs, e.WellFormed) :
    imprint ps = imprint qs ↔ ps = qs := by
  refine ⟨fun h => ?_, fun h => h ▸ rfl⟩
  rw [imprint_eq, imprint_eq, Text.bytes_inj, String.ofList_inj] at h
  have hline (e : Expr) : '\n' ∉ e.toSexp.chars := Sexp.newline_notMem_chars _ e.atomsFit_toSexp
  induction ps generalizing qs with
  | nil =>
    cases qs with
    | nil => rfl
    | cons e qs => simp at h
  | cons e ps ih =>
    cases qs with
    | nil => simp at h
    | cons e' qs =>
      obtain ⟨he, hps⟩ := List.forall_mem_cons.mp hp
      obtain ⟨he', hqs⟩ := List.forall_mem_cons.mp hq
      rw [List.flatMap_cons, List.flatMap_cons, List.append_assoc, List.append_assoc] at h
      obtain ⟨hchars, hrest⟩ := Text.cut_inj (hline e) (hline e') h
      rw [(Program.print_inj he he').mp (congrArg String.ofList hchars), ih hps hqs hrest]

end Individual

end Breeding

/-! ## Digests -/

namespace Text.Sha1

theorem hexByte_inj {b c : UInt8} : hexByte b = hexByte c ↔ b = c := by
  refine ⟨fun h => ?_, fun h => h ▸ rfl⟩
  have hdigit : ∀ m < 16, ∀ n < 16, Nat.digitChar m = Nat.digitChar n → m = n := by decide
  obtain ⟨hhigh, hlow⟩ : Nat.digitChar (b.toNat / 16) = Nat.digitChar (c.toNat / 16) ∧
      Nat.digitChar (b.toNat % 16) = Nat.digitChar (c.toNat % 16) := by simpa [hexByte] using h
  have hb := b.toNat_lt
  have hc := c.toNat_lt
  have hhigh := hdigit _ (by omega) _ (by omega) hhigh
  have hlow := hdigit _ (by omega) _ (by omega) hlow
  exact UInt8.toNat_inj.mp (by omega)

/-- The digest is recovered from its digits. -/
theorem hexDigest_inj {xs ys : List UInt8} : hexDigest xs = hexDigest ys ↔ digest xs = digest ys := by
  refine ⟨fun h => ?_, fun h => by rw [hexDigest, h, hexDigest]⟩
  rw [hexDigest, hexDigest, String.ofList_inj] at h
  generalize digest xs = as at h ⊢
  generalize digest ys = bs at h ⊢
  induction as generalizing bs with
  | nil =>
    cases bs with
    | nil => rfl
    | cons b bs => cases h
  | cons a as ih =>
    cases bs with
    | nil => cases h
    | cons b bs =>
      -- The digits of every byte are two.
      obtain ⟨hbyte, hrest⟩ := List.append_inj h rfl
      rw [hexByte_inj.mp hbyte, ih bs hrest]

end Text.Sha1

/-! ## Diversity -/

namespace Breeding

open Program (Expr)
open Individual (imprint)

theorem nodup_eraseDups {α : Type} [BEq α] [LawfulBEq α] (xs : List α) : xs.eraseDups.Nodup := by
  induction hn : xs.length using Nat.strong_induction_on generalizing xs with
  | _ n ih =>
    cases xs with
    | nil => exact List.nodup_nil
    | cons x xs =>
      rw [List.eraseDups_cons, List.nodup_cons]
      refine ⟨by simp, ih _ ?_ _ rfl⟩
      rw [← hn, List.length_cons]
      exact Nat.lt_succ_of_le (List.length_filter_le _ _)

theorem length_eraseDups {α : Type} [BEq α] [LawfulBEq α] (xs : List α) : xs.eraseDups.length = {x | x ∈ xs}.ncard := by
  classical
  have hset : {x | x ∈ xs} = (xs.eraseDups.toFinset : Set α) := by
    ext x
    simp
  rw [hset, Set.ncard_coe_finset, List.toFinset_card_of_nodup (nodup_eraseDups xs)]

/-- No two imprints of the strategies have the same digest. -/
def Separated (strategies : List (List Expr)) : Prop :=
  ∀ ps ∈ strategies, ∀ qs ∈ strategies,
    Text.Sha1.digest (imprint ps) = Text.Sha1.digest (imprint qs) → imprint ps = imprint qs

/-- **The diversity is the number of different strategies.** -/
theorem diversity_eq {individuals : List Individual}
    (hwell : ∀ ps ∈ individuals.map (·.programs), ∀ e ∈ ps, e.WellFormed)
    (hseparated : Separated (individuals.map (·.programs))) :
    diversity individuals = {ps | ps ∈ individuals.map (·.programs)}.ncard := by
  have hset : {x | x ∈ individuals.map (·.fingerprint)} =
      (fun ps => Text.Sha1.hexDigest (imprint ps)) '' {ps | ps ∈ individuals.map (·.programs)} := by
    ext x
    simp [Individual.fingerprint]
  have hinj : Set.InjOn (fun ps => Text.Sha1.hexDigest (imprint ps)) {ps | ps ∈ individuals.map (·.programs)} :=
    fun ps hps qs hqs h => (Individual.imprint_inj (hwell ps hps) (hwell qs hqs)).mp
      (hseparated ps hps qs hqs (Text.Sha1.hexDigest_inj.mp h))
  rw [diversity, length_eraseDups, hset, hinj.ncard_image]

/-- A completed generation has the strategies of the population. -/
theorem evolve_programs {p : Population} {σ : Type} {observers : List (Observer σ)} {deadline : Deadline} {s : σ}
    {g : Generation} (h : (p.evolve observers deadline s).1.result = .ok g) :
    g.individuals.map (·.programs) = p.individuals.map (·.programs) ∧ g.diversity = diversity g.individuals := by
  obtain ⟨first, others, playing, next, hall, -, rfl, -⟩ := advance_ok (evolve_ok h).1
  have hprograms := programs_evaluateAll p.simulator p.opponent p.repeats p.matchSeed p.individuals
    ⟨p.played, deadline, []⟩
  rw [hall] at hprograms
  exact ⟨hprograms, rfl⟩

/-- **Fingerprints separate strategies, and the diversity counts them.** The imprints of well-formed programs are the
same only if the programs are, in every slot and to the sign of a zero. So if no two imprints have the same digest, the
diversity of a generation is the number of its different strategies. -/
theorem diversity_exact :
    (∀ ps qs : List Expr, (∀ e ∈ ps, e.WellFormed) → (∀ e ∈ qs, e.WellFormed) →
      (imprint ps = imprint qs ↔ ps = qs)) ∧
    (∀ (index : Nat) (repeats : Int) (first : Individual) (others : List Individual),
      (∀ ps ∈ (first :: others).map (·.programs), ∀ e ∈ ps, e.WellFormed) →
      Separated ((first :: others).map (·.programs)) →
      (summarize index repeats first others).diversity = {ps | ps ∈ (first :: others).map (·.programs)}.ncard) ∧
    ∀ (p : Population) (σ : Type) (observers : List (Observer σ)) (deadline : Deadline) (s : σ) (g : Generation),
      (p.evolve observers deadline s).1.result = .ok g →
      (∀ ps ∈ p.individuals.map (·.programs), ∀ e ∈ ps, e.WellFormed) → Separated (p.individuals.map (·.programs)) →
      g.individuals.map (·.programs) = p.individuals.map (·.programs) ∧
      g.diversity = {ps | ps ∈ g.individuals.map (·.programs)}.ncard := by
  refine ⟨fun ps qs => Individual.imprint_inj, fun index repeats first others => diversity_eq, ?_⟩
  intro p σ observers deadline s g hg hwell hseparated
  obtain ⟨hprograms, hdiversity⟩ := evolve_programs hg
  rw [← hprograms] at hwell hseparated
  exact ⟨hprograms, hdiversity.trans (diversity_eq hwell hseparated)⟩

def steering (x : Float) : Individual := { id := "steering", programs := [.node .step [.leaf (.setSpeed 1 x)]] }

/-- Strategies that differ in the sign of a zero are two, and a population of idle ones has one. -/
theorem diversity_exact_zeros :
    imprint (steering 0.0).programs ≠ imprint (steering (-0.0)).programs ∧
    (summarize 0 1 (steering 0.0) [steering (-0.0), steering 0.0]).diversity = 2 ∧
    ∃ g, ((counted [[.idle], [.idle]]).evolve [] .never ()).1.result = .ok g ∧ g.diversity = 1 := by
  obtain ⟨himprint, hsummary, hevolve⟩ := diversity_exact
  have hplus : ∀ e ∈ (steering 0.0).programs, e.WellFormed := List.forall_mem_singleton.mpr (by decide +kernel)
  have hminus : ∀ e ∈ (steering (-0.0)).programs, e.WellFormed := List.forall_mem_singleton.mpr (by decide +kernel)
  have hdigest : Text.Sha1.digest (imprint (steering 0.0).programs) ≠
      Text.Sha1.digest (imprint (steering (-0.0)).programs) := by decide +kernel
  have hne : (steering 0.0).programs ≠ (steering (-0.0)).programs := fun h => hdigest (by rw [h])
  refine ⟨fun h => hne ((himprint _ _ hplus hminus).mp h), ?_, ?_⟩
  · rw [hsummary 0 1 (steering 0.0) [steering (-0.0), steering 0.0]]
    · have hset : {ps | ps ∈ [steering 0.0, steering (-0.0), steering 0.0].map (·.programs)} =
          {(steering 0.0).programs, (steering (-0.0)).programs} := by
        ext ps
        simp [or_comm]
      rw [hset, Set.ncard_pair hne]
    · exact List.forall_mem_cons.mpr ⟨hplus, List.forall_mem_cons.mpr ⟨hminus, List.forall_mem_singleton.mpr hplus⟩⟩
    · simp [Separated, hdigest, hdigest.symm]
  · have hidle : ∀ ind ∈ (counted [[.idle], [.idle]]).individuals, IsIdle 1 ind :=
      List.forall_mem_cons.mpr ⟨⟨rfl, by simp⟩, List.forall_mem_singleton.mpr ⟨rfl, by simp⟩⟩
    obtain ⟨g, hg, -⟩ := advance_idle (p := counted [[.idle], [.idle]]) Nat.one_pos responds_census
      Selector.sure_roulette (by simp [counted]) (by decide) (by simp [counted]) hidle
    have hresult : ((counted [[.idle], [.idle]]).evolve [] .never ()).1.result = .ok g := by
      rw [evolve_nil]
      exact hg
    obtain ⟨hprograms, hdiversity⟩ := hevolve _ Unit [] .never () g hresult (by simp [counted]; decide)
      (by simp [counted, Separated])
    refine ⟨g, hresult, ?_⟩
    rw [hdiversity, hprograms]
    simp [counted]

end Breeding

end Forager
