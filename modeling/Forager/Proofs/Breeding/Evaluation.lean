import Forager.Breeding.Population
import Forager.Proofs.Arena.Programs

/-!
# Evaluation of sound programs

* `map_evaluateAll` : evaluation changes nothing but fitness values, and no program in particular
  (`programs_evaluateAll`); `evaluateAll_evaluated` : all individuals are evaluated, if it does not fail;
* `Finishes sim` : a simulator that cuts no match of sound programs short; `evaluateAll_aborted` : then no match of an
  evaluation is;
* `Responds sim` : a simulator with an outcome for every match of sound programs that is never called off;
  `evaluateAll_total` : then an evaluation without a deadline does not fail;
* `finishes_forage`, `responds_forage` : the forage arena is such a simulator.
-/

namespace Forager.Breeding

set_option autoImplicit false

open Program

theorem evaluate_ok {sim : Simulator} {opponent : List Expr} {repeats : Int} {seed : Int64} {ind ind' : Individual}
    {p p' : Playing} (h : ind.evaluate sim opponent repeats seed p = (.ok ind', p')) :
    ∃ fitness aborted, ind' = { ind with fitness, evaluated := true, aborted } := by
  unfold Individual.evaluate at h
  split at h
  · cases h
  · split at h
    · cases h
    · cases h
      exact ⟨_, _, rfl⟩

/-- Evaluation changes nothing but the fitness values and what goes with them, whether it fails or not. -/
theorem map_evaluateAll {α : Type} {f : Individual → α}
    (hf : ∀ ind fitness evaluated aborted, f { ind with fitness, evaluated, aborted } = f ind) (sim : Simulator)
    (opponent : List Expr) (repeats : Int) (seed : Int64) (individuals : List Individual) (p : Playing) :
    (evaluateAll sim opponent repeats seed individuals p).2.1.map f = individuals.map f := by
  induction individuals generalizing p with
  | nil => rfl
  | cons ind individuals ih =>
    rw [evaluateAll]
    split
    · rfl
    · rename_i ind' q hone
      obtain ⟨fitness, aborted, rfl⟩ := evaluate_ok hone
      dsimp only
      rw [List.map_cons, List.map_cons, ih, hf]

/-- Evaluation changes no program, whether it fails or not. -/
theorem programs_evaluateAll (sim : Simulator) (opponent : List Expr) (repeats : Int) (seed : Int64)
    (individuals : List Individual) (p : Playing) :
    (evaluateAll sim opponent repeats seed individuals p).2.1.map (·.programs) = individuals.map (·.programs) :=
  map_evaluateAll (fun _ _ _ _ => rfl) sim opponent repeats seed individuals p

theorem evaluateAll_evaluated {sim : Simulator} {opponent : List Expr} {repeats : Int} {seed : Int64}
    {individuals evaluated : List Individual} {p p' : Playing}
    (h : evaluateAll sim opponent repeats seed individuals p = (none, evaluated, p')) :
    ∀ ind ∈ evaluated, ind.evaluated = true := by
  induction individuals generalizing p evaluated p' with
  | nil =>
    cases h
    exact fun ind hind => by cases hind
  | cons ind individuals ih =>
    rw [evaluateAll] at h
    split at h
    · cases h
    · rename_i ind' q hone
      obtain ⟨fitness, aborted, rfl⟩ := evaluate_ok hone
      rcases hall : evaluateAll sim opponent repeats seed individuals q with ⟨failure, evaluated', q'⟩
      rw [hall] at h
      cases h
      exact List.forall_mem_cons.mpr ⟨rfl, ih hall⟩

/-! ## Matches that are not cut short -/

/-- Whether a simulator cuts no match of sound programs short. -/
def Finishes (sim : Simulator) : Prop :=
  ∀ before deadline m, (∀ e ∈ m.team, Sound e) → (∀ e ∈ m.opponent, Sound e) →
    ∀ outcome, (sim.play before deadline m).result = .ok outcome → outcome.aborted = false

theorem finishes_forage (c : Arena.Config) : Finishes (Arena.forage c) :=
  fun _ deadline m hteam hopponent => (Arena.playMatch_sound c.withDefaults deadline m hteam hopponent).1

section

variable {sim : Simulator} (hsim : Finishes sim) {opponent : List Expr} (hopponent : ∀ e ∈ opponent, Sound e)

include hsim hopponent

theorem playSeries_aborted (id : String) {team : List Expr} (hteam : ∀ e ∈ team, Sound e) (seed : Int64)
    (count r : Nat) (totals : Totals) (p : Playing) {totals' : Totals} {p' : Playing} (h : totals.aborted = 0)
    (hplay : playSeries sim id team opponent seed count r totals p = (.ok totals', p')) : totals'.aborted = 0 := by
  induction count generalizing r totals p with
  | zero =>
    cases hplay
    exact h
  | succ count ih =>
    rw [playSeries] at hplay
    split at hplay
    · cases hplay
    · dsimp only at hplay
      split at hplay
      · cases hplay
      · rename_i outcome hresult
        have haborted := hsim _ _ ⟨team, opponent, Chance.derive seed (.ofNat r)⟩ hteam hopponent outcome hresult
        refine ih (r + 1) _ _ ?_ hplay
        simp only [haborted, h, Bool.false_eq_true, if_false]

theorem evaluate_aborted {ind ind' : Individual} (hind : ∀ e ∈ ind.programs, Sound e) {repeats : Int} {seed : Int64}
    {p p' : Playing} (h : ind.evaluate sim opponent repeats seed p = (.ok ind', p')) : ind'.aborted = 0 := by
  unfold Individual.evaluate at h
  split at h
  · cases h
  · split at h
    · cases h
    · rename_i totals _ hplay
      cases h
      exact playSeries_aborted hsim hopponent _ hind seed _ 0 {} p rfl hplay

/-- In an evaluation of sound programs that does not fail, no match is cut short. -/
theorem evaluateAll_aborted {repeats : Int} {seed : Int64} {individuals evaluated : List Individual}
    (hinds : ∀ ind ∈ individuals, ∀ e ∈ ind.programs, Sound e) {p p' : Playing}
    (h : evaluateAll sim opponent repeats seed individuals p = (none, evaluated, p')) :
    ∀ ind ∈ evaluated, ind.aborted = 0 := by
  induction individuals generalizing p evaluated p' with
  | nil =>
    cases h
    exact fun ind hind => by cases hind
  | cons ind individuals ih =>
    obtain ⟨hind, hrest⟩ := List.forall_mem_cons.mp hinds
    rw [evaluateAll] at h
    split at h
    · cases h
    · rename_i ind' q hone
      rcases hall : evaluateAll sim opponent repeats seed individuals q with ⟨failure, evaluated', q'⟩
      rw [hall] at h
      cases h
      exact List.forall_mem_cons.mpr ⟨evaluate_aborted hsim hopponent hind hone, ih hrest hall⟩

end

/-! ## Matches that are never called off -/

/-- Whether a simulator has an outcome for every match of sound programs that is never called off. -/
def Responds (sim : Simulator) : Prop :=
  ∀ before m, m.team ≠ [] → (∀ e ∈ m.team, Sound e) → (∀ e ∈ m.opponent, Sound e) →
    ∃ outcome journal, sim.play before .never m = ⟨.ok outcome, .never, journal⟩

/-- The forage arena responds where there is a single treat, which always finds room. -/
theorem responds_forage {c : Arena.Config} (h : c.treats = 1) : Responds (Arena.forage c) := by
  intro before m hne hteam hopponent
  have htreats : c.withDefaults.treats = 1 := by
    change (if c.treats ≤ 0 then _ else c.treats) = 1
    rw [h]
    rfl
  obtain ⟨outcome, hplay⟩ := Arena.playMatch_never hne hteam hopponent (Arena.new_single htreats)
  exact ⟨outcome, [], hplay⟩

section

variable {sim : Simulator} (hsim : Responds sim) {opponent : List Expr} (hopponent : ∀ e ∈ opponent, Sound e)

include hsim hopponent

theorem playSeries_total (id : String) {team : List Expr} (hne : team ≠ []) (hteam : ∀ e ∈ team, Sound e)
    (seed : Int64) (count r : Nat) (totals : Totals) (before : Nat) (journal : Journal) :
    ∃ totals' before' journal', playSeries sim id team opponent seed count r totals ⟨before, .never, journal⟩ =
      (.ok totals', ⟨before', .never, journal'⟩) := by
  induction count generalizing r totals before journal with
  | zero => exact ⟨totals, before, journal, rfl⟩
  | succ count ih =>
    obtain ⟨outcome, entries, hplay⟩ :=
      hsim before ⟨team, opponent, Chance.derive seed (.ofNat r)⟩ hne hteam hopponent
    rw [playSeries]
    simp only [Deadline.never, Deadline.look] at hplay ⊢
    rw [hplay]
    exact ih (r + 1) _ _ _

/-- An evaluation of sound programs without a deadline does not fail. -/
theorem evaluateAll_total {repeats : Int} (hrepeats : 1 ≤ repeats) (seed : Int64) (individuals : List Individual)
    (h : ∀ ind ∈ individuals, ind.programs ≠ [] ∧ ∀ e ∈ ind.programs, Sound e) (before : Nat) (journal : Journal) :
    (evaluateAll sim opponent repeats seed individuals ⟨before, .never, journal⟩).1 = none := by
  induction individuals generalizing before journal with
  | nil => rfl
  | cons ind individuals ih =>
    obtain ⟨⟨hne, hind⟩, hrest⟩ := List.forall_mem_cons.mp h
    obtain ⟨totals, before', journal', hplay⟩ :=
      playSeries_total hsim hopponent ind.id hne hind seed repeats.toNat 0 {} before journal
    rw [evaluateAll, Individual.evaluate, if_neg (by omega), hplay]
    exact ih hrest before' journal'

end

end Forager.Breeding
