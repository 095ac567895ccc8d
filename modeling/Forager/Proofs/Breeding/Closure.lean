import Forager.Proofs.Breeding.Heredity
import Forager.Proofs.Breeding.Mutants
import Forager.Proofs.Program.RoundTrip

/-!
# Mutants among the programs

* `parseProgram_print_iff` : the text of a program of the right shape reads back, as the program, if and only if its
  numbers are finite;
* `Closed e m` : what a mutant `m` keeps of an expression `e`;
* `Overflowed rate programs x` : the error `x` comes from a number that became infinite in a mutant of a program;
* `mutation_closed` : mutants keep all this, and mutating an individual fails in this way only.
-/

namespace Forager.Breeding

set_option autoImplicit false

open Program

theorem parseProgram_print_iff {m p : Expr} (hshaped : m.shaped = true) (hroot : m.kind = .step) :
    parseProgram m.print = .ok p ↔ p = m ∧ m.finite = true := by
  have hlit : m.isLiteral = false := Expr.isLiteral_of_root hroot
  rw [parseProgram_iff, parse_iff]
  constructor
  · rintro ⟨⟨t, ht, hbuild⟩, -⟩
    obtain rfl : t = m.toSexp := by
      rw [Expr.print, Sexp.parse_print (Expr.readable_toSexp hlit)] at ht
      exact (Except.ok.inj ht).symm
    have hfinite := finite_of_build hshaped hbuild
    rw [build_toSexp ⟨hshaped, hfinite⟩ hlit] at hbuild
    exact ⟨(Except.ok.inj hbuild).symm, hfinite⟩
  · rintro ⟨rfl, hfinite⟩
    exact ⟨parse_iff.mp (parse_print ⟨hshaped, hfinite⟩ hlit), hroot⟩

/-- What a mutant `m` keeps of the expression `e`, and when its text reads back. -/
structure Closed (e m : Expr) : Prop where
  shaped : m.shaped = true
  root : e.kind = .step → m.kind = .step
  checked : check e = .ok () → check m = .ok ()
  real : check e = .ok () → (m.category = .real ↔ e.category = .real)
  logical : check e = .ok () → e.category ≠ .real → m.category = .boolean ∨ m.category = .effect
  reads : e.kind = .step → ∀ p, parseProgram m.print = .ok p ↔ p = m ∧ m.finite = true

theorem mutate_closed (rate : Float) {e : Expr} (hshaped : e.shaped = true) :
    Attains (fun m => Mutant rate e m ∧ Closed e m) (mutate rate e) := by
  refine (mutate_mutant rate hshaped).mono fun m hmutant => ⟨hmutant, ?_⟩
  have hreal : check e = .ok () → (m.category = .real ↔ e.category = .real) := fun hcheck => (hmutant.checked hcheck).2
  have hm := (hmutant.shaped hshaped).1
  refine ⟨hm, hmutant.root, fun hcheck => (hmutant.checked hcheck).1, hreal, fun hcheck hne => ?_, fun hroot p => ?_⟩
  · have hne' : m.category ≠ .real := fun h => hne ((hreal hcheck).mp h)
    cases hcategory : m.category with
    | real => exact absurd hcategory hne'
    | boolean => exact .inl rfl
    | effect => exact .inr rfl
  · exact parseProgram_print_iff hm (hmutant.root hroot)

/-- An error that comes from a number of one of the programs: when it was jittered it became infinite, and the text of
the mutant could not be read. -/
def Overflowed (rate : Float) (programs : List Expr) (error : BreedError) : Prop :=
  ∃ slot cause e m x y, error = .mutant slot cause ∧ programs[slot]? = some e ∧ Possible (mutate rate e).run (some m) ∧
    parseProgram m.print = .error cause ∧ x ∈ e.numbers ∧ y ∈ m.numbers ∧ Possible (jitter x) y ∧
    ∃ negative, Number.shape y = .infinite negative

/-- A well-formed program. -/
def IsProgram (e : Expr) : Prop := e.WellFormed ∧ e.kind = .step

theorem mutateSlot_overflow (rate : Float) {programs : List Expr} {slot : Nat} {e : Expr} (h : IsProgram e)
    (hslot : programs[slot]? = some e) : Returns (Overflowed rate programs) IsProgram (mutateSlot rate slot e) := by
  obtain ⟨⟨hshaped, hfinite⟩, hroot⟩ := h
  refine .bind (.draw (mutate_closed rate hshaped).possible.gives) ?_
  rintro _ ⟨m, rfl, ⟨hmutant, hclosed⟩, hpossible⟩
  dsimp only
  cases hparse : parseProgram m.print with
  | ok p =>
    obtain ⟨rfl, hm⟩ := (hclosed.reads hroot p).mp hparse
    exact .pure ⟨⟨hclosed.shaped, hm⟩, hclosed.root hroot⟩
  | error cause =>
    -- The text was not read, so that some number of the mutant is not finite.
    have hm : m.finite ≠ true := fun hm => by
      rw [(hclosed.reads hroot m).mpr ⟨rfl, hm⟩] at hparse
      cases hparse
    obtain ⟨y, hy, hinfinite⟩ : ∃ y ∈ m.numbers, Number.isFinite y = false := by
      simpa [Expr.finite_iff] using hm
    obtain ⟨hshape, x, hx, hjitter⟩ := hmutant.overflow hfinite hy hinfinite
    exact .throw ⟨slot, cause, e, m, x, y, rfl, hslot, hpossible, hparse, hx, hy, hjitter, hshape⟩

theorem mutateSlots_overflow (rate : Float) {programs rest : List Expr} {slot : Nat} (hrest : programs.drop slot = rest)
    (h : ∀ e ∈ rest, IsProgram e) :
    Returns (Overflowed rate programs) (fun ms => ms.length = rest.length ∧ ∀ m ∈ ms, IsProgram m)
      (mutateSlots rate slot rest) := by
  induction rest generalizing slot with
  | nil => exact .pure ⟨rfl, h⟩
  | cons e rest ih =>
    obtain ⟨he, h⟩ := List.forall_mem_cons.mp h
    have hslot : programs[slot]? = some e := by
      rw [← List.head?_drop, hrest]
      rfl
    have hdrop : programs.drop (slot + 1) = rest := by rw [← List.tail_drop, hrest, List.tail_cons]
    refine .bind (mutateSlot_overflow rate he hslot) fun m hm => .bind (ih hdrop h) fun ms hms => .pure ⟨?_, ?_⟩
    · rw [List.length_cons, List.length_cons, hms.1]
    · exact List.forall_mem_cons.mpr ⟨hm, hms.2⟩

/-- **Mutation stays among the programs.** Every mutation of a well-formed expression has a result, which keeps shape,
root and type, and the text of a mutated program reads back if and only if its numbers are finite. An individual is
mutated into another of as many programs, unless jittering made some number of its programs infinite. -/
theorem mutation_closed (rate : Float) :
    (∀ e : Expr, e.WellFormed → Attains (Closed e) (mutate rate e)) ∧
    ∀ (name : String) (programs : List Expr) (ind : Individual), Individual.new name programs = .ok ind →
      (∀ e ∈ programs, e.WellFormed) → ∀ id, Returns (Overflowed rate programs)
        (fun m => m.id = id ∧ m.programs.length = programs.length ∧ ∀ e ∈ m.programs, IsProgram e)
        (ind.mutant id rate) := by
  refine ⟨fun e he => (mutate_closed rate he.1).mono fun m hm => hm.2, fun name programs ind hnew hall id => ?_⟩
  obtain ⟨hne, hroots, rfl⟩ := (new_iff name programs ind).mp hnew
  have hprograms : ∀ e ∈ programs, IsProgram e := fun e he => ⟨hall e he, hroots e he⟩
  refine .bind (mutateSlots_overflow rate List.drop_zero hprograms) fun ms hms => ?_
  have hms' : ms ≠ [] := by
    rintro rfl
    exact hne (List.length_eq_zero_iff.mp hms.1.symm)
  rw [(new_iff id ms _).mpr ⟨hms', fun e he => (hms.2 e he).2, rfl⟩]
  exact .pure ⟨rfl, hms.1, hms.2⟩

/-- A program with a speed close to the largest double. -/
def reckless : Expr := .node .step [.leaf (.setSpeed 1.7e308 1)]

/-- Scaled by nearly three halves the speed becomes infinite, and there is no mutant. -/
theorem mutation_closed_reckless :
    reckless.WellFormed ∧ Attains (Closed reckless) (mutate 0.5 reckless) ∧
      Individual.new "a" [reckless] = .ok { id := "a", programs := [reckless] } ∧
      ∃ error, ((Individual.mutant { id := "a", programs := [reckless] } "b" 0.5).run
        (.script #[0x7000000000000000, 0, 0x7000000000000000] 0)).1 = .error error ∧
          Overflowed 0.5 [reckless] error := by
  have hwell : reckless.WellFormed := by decide +kernel
  refine ⟨hwell, (mutation_closed 0.5).1 reckless hwell, rfl, ?_⟩
  have hfails : ((Individual.mutant { id := "a", programs := [reckless] } "b" 0.5).run
      (.script #[0x7000000000000000, 0, 0x7000000000000000] 0)).1.toOption.isNone = true := by decide +kernel
  have hends := ((mutation_closed 0.5).2 "a" [reckless] _ rfl (List.forall_mem_singleton.mpr hwell) "b").gives
    (.script #[0x7000000000000000, 0, 0x7000000000000000] 0)
  cases hresult : ((Individual.mutant { id := "a", programs := [reckless] } "b" 0.5).run
      (.script #[0x7000000000000000, 0, 0x7000000000000000] 0)).1 with
  | ok m =>
    rw [hresult] at hfails
    cases hfails
  | error error => exact ⟨error, rfl, hends.1 error hresult⟩

end Forager.Breeding
