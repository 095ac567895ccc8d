import Forager.Breeding.Selection
import Forager.Proofs.Chance.Draws
import Forager.Proofs.Number.Order

/-!
# Roulette

The weights are laid end to end and the place is drawn whose weight a point falls into.

* `landing i target fitness` : the place that the search ends at, none if it runs past the end;
* `place_found` : whatever the numbers do, the search finds a place with a positive fitness unless the total is nothing;
* `mass fitness` : the sum of the positive weights; `Covers fitness x i` : `x` falls into the weight of place `i`;
  `landing_covers` : in exact arithmetic, the search ends where its target falls;
* `spin_exact` : in exact arithmetic, roulette samples by inverting the sums of the weights;
* `Arithmetic` : operations on doubles that round in any way; `roulette_safe` : with any of them, roulette draws an
  individual, and one of positive fitness unless the total is nothing;
* `Selector.Sure` : a selector that does not fail; `Selector.sure_of_ofName` : those that have a name do not.
-/

namespace Forager.Breeding

set_option autoImplicit false

open Chance (Draw Source)

/-! ## The search -/

section Search

variable {R : Type} [OfNat R 0] [LT R] [LE R] [DecidableLT R]

section

variable [Sub R] [DecidableLE R]

/-- The place, counted from `i`, of the weight that `target` falls into, none if it is beyond the end. -/
def landing : (i : Nat) → (target : R) → List R → Option Nat
  | _, _, [] => none
  | i, target, f :: rest =>
    if weight f ≤ 0 then landing (i + 1) target rest
    else if target < weight f then some i
    else landing (i + 1) (target - weight f) rest

/-- A search that ends at a place does not fall back on the last weight. -/
theorem locate_of_landing {i k : Nat} {last : Option Nat} {target : R} {fitness : List R}
    (h : landing i target fitness = some k) : locate i last target fitness = some k := by
  induction fitness generalizing i last target with
  | nil => cases h
  | cons f rest ih =>
    rw [landing] at h
    rw [locate]
    split at h
    · rw [if_pos ‹_›]
      exact ih h
    · rw [if_neg ‹_›]
      split at h
      · rw [if_pos ‹_›]
        exact h
      · rw [if_neg ‹_›]
        exact ih h

/-- The place that is found has a weight, unless it is the one to fall back on. -/
theorem locate_weighs {i k : Nat} {last : Option Nat} {target : R} {fitness : List R}
    (h : locate i last target fitness = some k) :
    last = some k ∨ ∃ j f, k = i + j ∧ fitness[j]? = some f ∧ ¬weight f ≤ 0 := by
  induction fitness generalizing i last target with
  | nil => exact .inl h
  | cons f rest ih =>
    rw [locate] at h
    split at h
    · rcases ih h with hlast | ⟨j, g, hk, hg, hweight⟩
      · exact .inl hlast
      · exact .inr ⟨j + 1, g, by omega, hg, hweight⟩
    · rename_i hweight
      split at h
      · cases h
        exact .inr ⟨0, f, rfl, rfl, hweight⟩
      · rcases ih h with hlast | ⟨j, g, hk, hg, hg'⟩
        · cases hlast
          exact .inr ⟨0, f, rfl, rfl, hweight⟩
        · exact .inr ⟨j + 1, g, by omega, hg, hg'⟩

/-- There is a place if there is one to fall back on or a weight to pass. -/
theorem locate_finds (last : Option Nat) {fitness : List R}
    (h : last.isSome = true ∨ ∃ f ∈ fitness, ¬weight f ≤ 0) (i : Nat) (target : R) :
    ∃ k, locate i last target fitness = some k := by
  induction fitness generalizing i last target with
  | nil =>
    rcases h with h | ⟨f, hf, -⟩
    · exact Option.isSome_iff_exists.mp h
    · cases hf
  | cons f rest ih =>
    rw [locate]
    split
    · rename_i hnothing
      refine ih last (h.imp_right ?_) (i + 1) target
      rintro ⟨g, hg, hweight⟩
      rcases List.mem_cons.mp hg with rfl | hg
      · exact absurd hnothing hweight
      · exact ⟨g, hg, hweight⟩
    · split
      · exact ⟨i, rfl⟩
      · exact ih (some i) (.inl rfl) (i + 1) (target - weight f)

end

/-- What roulette relies on: zeros add up to zero, which is nothing, and what is positive is not nothing. -/
structure Weighs (R : Type) [OfNat R 0] [Add R] [LT R] [LE R] : Prop where
  zero_add_zero : (0 : R) + 0 = 0
  zero_le_zero : (0 : R) ≤ 0
  not_le_zero : ∀ x : R, 0 < x → ¬x ≤ 0

section

variable [Add R] (hR : Weighs R)
include hR

theorem weight_le_zero_iff (f : R) : weight f ≤ 0 ↔ ¬0 < f := by
  unfold weight
  by_cases hf : 0 < f
  · rw [if_pos hf]
    exact iff_of_false (hR.not_le_zero f hf) (not_not_intro hf)
  · rw [if_neg hf]
    exact iff_of_true hR.zero_le_zero hf

/-- Nothing is the total of weights that are all nothing. -/
theorem totalWeight_of_nothing {fitness : List R} (h : ∀ f ∈ fitness, ¬0 < f) : totalWeight fitness = 0 := by
  unfold totalWeight
  induction fitness with
  | nil => rfl
  | cons f rest ih =>
    obtain ⟨hf, hrest⟩ := List.forall_mem_cons.mp h
    rw [List.foldl_cons, weight, if_neg hf, hR.zero_add_zero]
    exact ih hrest

/-- **Wherever the target is**, a place with a positive fitness is found unless the total is nothing. -/
theorem place_found [Sub R] [DecidableLE R] {fitness : List R} (h : ¬totalWeight fitness ≤ 0) (target : R) :
    ∃ i f, locate 0 none target fitness = some i ∧ fitness[i]? = some f ∧ 0 < f := by
  have hsome : ∃ f ∈ fitness, 0 < f := by
    by_contra hnone
    push Not at hnone
    rw [totalWeight_of_nothing hR fun f hf => hnone f hf] at h
    exact h hR.zero_le_zero
  obtain ⟨g, hg, hpos⟩ := hsome
  obtain ⟨i, hi⟩ := locate_finds none
    (.inr ⟨g, hg, fun hle => (weight_le_zero_iff hR g).mp hle hpos⟩) 0 target
  rcases locate_weighs hi with hlast | ⟨j, f, hj, hf, hweight⟩
  · cases hlast
  · rw [Nat.zero_add] at hj
    exact ⟨i, f, hi, hj ▸ hf, not_not.mp fun hnot => hweight ((weight_le_zero_iff hR f).mpr hnot)⟩

end

end Search

/-! ## Exact arithmetic -/

/-- The sum of the fitness values, those that are not positive left out. -/
def mass (fitness : List ℚ) : ℚ := (fitness.map (max · 0)).sum

/-- When the weights are laid end to end, the point `x` falls into that of place `i`. -/
def Covers (fitness : List ℚ) (x : ℚ) (i : Nat) : Prop :=
  mass (fitness.take i) ≤ x ∧ x < mass (fitness.take (i + 1))

theorem mass_cons (f : ℚ) (rest : List ℚ) : mass (f :: rest) = max f 0 + mass rest := List.sum_cons

theorem mass_append (fs gs : List ℚ) : mass (fs ++ gs) = mass fs + mass gs := by
  rw [mass, List.map_append, List.sum_append, mass, mass]

theorem mass_nonneg (fitness : List ℚ) : 0 ≤ mass fitness := by
  refine List.sum_nonneg fun w hw => ?_
  obtain ⟨f, -, rfl⟩ := List.mem_map.mp hw
  exact le_max_right f 0

theorem weight_eq_max (f : ℚ) : weight f = max f 0 := by
  unfold weight
  split
  · exact (max_eq_left (le_of_lt ‹_›)).symm
  · exact (max_eq_right (not_lt.mp ‹_›)).symm

theorem totalWeight_eq_mass (fitness : List ℚ) : totalWeight fitness = mass fitness := by
  simp only [totalWeight, weight_eq_max]
  rw [mass, List.sum_eq_foldl, List.foldl_map]

theorem covers_cons_succ {f x : ℚ} {rest : List ℚ} {i : Nat} :
    Covers (f :: rest) x (i + 1) ↔ Covers rest (x - max f 0) i := by
  rw [Covers, Covers, List.take_succ_cons, List.take_succ_cons, mass_cons, mass_cons, le_sub_iff_add_le',
    sub_lt_iff_lt_add']

/-- A point falls into one weight at most. -/
theorem Covers.unique {fitness : List ℚ} {x : ℚ} {i j : Nat} (hi : Covers fitness x i) (hj : Covers fitness x j) :
    i = j := by
  have hle : ∀ {a b : Nat}, a ≤ b → mass (fitness.take a) ≤ mass (fitness.take b) := by
    intro a b hab
    rw [← List.take_append_drop a (fitness.take b), mass_append, List.take_take, min_eq_left hab]
    exact le_add_of_nonneg_right (mass_nonneg _)
  have hnot : ∀ {a b : Nat}, Covers fitness x a → Covers fitness x b → ¬a < b := fun ha hb hab =>
    absurd (ha.2.trans_le ((hle hab).trans hb.1)) (lt_irrefl x)
  exact Nat.le_antisymm (not_lt.mp (hnot hj hi)) (not_lt.mp (hnot hi hj))

/-- A weight that a point falls into is that of a positive fitness. -/
theorem Covers.positive {fitness : List ℚ} {x : ℚ} {i : Nat} (h : Covers fitness x i) :
    ∃ f, fitness[i]? = some f ∧ 0 < f := by
  obtain ⟨hlow, hhigh⟩ := h
  have hlt := hlow.trans_lt hhigh
  rw [List.take_add_one, mass_append] at hlt
  cases hf : fitness[i]? with
  | none => simp [hf, mass] at hlt
  | some f => exact ⟨f, rfl, by simpa [hf, mass] using hlt⟩

/-- **The search ends where its target falls**, if that is before the end. -/
theorem landing_covers {fitness : List ℚ} {target : ℚ} (hlow : 0 ≤ target) (hhigh : target < mass fitness) (i : Nat) :
    ∃ j, landing i target fitness = some (i + j) ∧ Covers fitness target j := by
  induction fitness generalizing i target with
  | nil => exact absurd (hlow.trans_lt hhigh) (lt_irrefl 0)
  | cons f rest ih =>
    rw [mass_cons] at hhigh
    rw [landing, weight_eq_max]
    by_cases hnothing : max f 0 ≤ 0
    · have hzero : max f 0 = 0 := le_antisymm hnothing (le_max_right f 0)
      rw [hzero, zero_add] at hhigh
      obtain ⟨j, hj, hcovers⟩ := ih hlow hhigh (i + 1)
      refine ⟨j + 1, ?_, covers_cons_succ.mpr ?_⟩
      · rw [if_pos hnothing, hj, Nat.add_right_comm, Nat.add_assoc]
      · rwa [hzero, sub_zero]
    · rw [if_neg hnothing]
      by_cases hhere : target < max f 0
      · refine ⟨0, if_pos hhere, hlow, ?_⟩
        rwa [List.take_succ_cons, List.take_zero, mass_cons, mass, List.map_nil, List.sum_nil, add_zero]
      · obtain ⟨j, hj, hcovers⟩ := ih (sub_nonneg.mpr (not_lt.mp hhere)) (sub_lt_iff_lt_add'.mpr hhigh) (i + 1)
        refine ⟨j + 1, ?_, covers_cons_succ.mpr hcovers⟩
        rw [if_neg hhere, hj, Nat.add_right_comm, Nat.add_assoc]

/-- **In exact arithmetic roulette inverts the sums of the weights.** If the fitness values have a positive mass, a
fraction `u` from zero to below one draws the one place whose weight the point `u * mass` falls into, which has a
positive fitness; the search ends there and does not fall back on the last weight. If they have none, the place is the
number drawn below the number of places. -/
theorem spin_exact {m : Type → Type} [Monad m] [LawfulMonad m] (unit : m ℚ) (below : Nat → m Nat) (fitness : List ℚ) :
    (0 < mass fitness → ∀ u : ℚ, 0 ≤ u → u < 1 →
      ∃ i, spin (pure u : m ℚ) below fitness = pure (some i) ∧ landing 0 (u * mass fitness) fitness = some i ∧
        Covers fitness (u * mass fitness) i ∧ (∀ j, Covers fitness (u * mass fitness) j → j = i) ∧
        ∃ f, fitness[i]? = some f ∧ 0 < f) ∧
    (mass fitness = 0 → spin unit below fitness = some <$> below fitness.length) := by
  constructor
  · intro hmass u hlow hhigh
    obtain ⟨i, hlanding, hcovers⟩ :=
      landing_covers (mul_nonneg hlow hmass.le) (mul_lt_of_lt_one_left hmass hhigh) 0
    rw [Nat.zero_add] at hlanding
    refine ⟨i, ?_, hlanding, hcovers, fun j hj => hj.unique hcovers, hcovers.positive⟩
    unfold spin
    rw [totalWeight_eq_mass]
    dsimp only
    rw [if_neg (not_le.mpr hmass), pure_bind, locate_of_landing hlanding]
  · intro hmass
    unfold spin
    rw [totalWeight_eq_mass]
    exact if_pos hmass.le

/-- A point at the end of the first weight falls into the next one that is positive. -/
theorem spin_exact_boundary :
    mass [1, -2, 0, 3 / 2] = 5 / 2 ∧
    spin (pure (2 / 5) : Id ℚ) (fun n => n - 1) [1, -2, 0, 3 / 2] = pure (some 3) ∧
    mass [0, -1] = 0 ∧ spin (pure (2 / 5) : Id ℚ) (fun n => n - 1) [0, -1] = some <$> (pure 1 : Id Nat) := by
  have hmass : mass [1, -2, 0, 3 / 2] = 5 / 2 := by norm_num [mass]
  have hnone : mass [0, -1] = 0 := by norm_num [mass]
  obtain ⟨i, hspin, -, -, hunique, -⟩ := (spin_exact (pure 0 : Id ℚ) (fun n => n - 1) [1, -2, 0, 3 / 2]).1
    (by rw [hmass]; norm_num) (2 / 5) (by norm_num) (by norm_num)
  have hthird : Covers [1, -2, 0, 3 / 2] (2 / 5 * mass [1, -2, 0, 3 / 2]) 3 := by
    constructor <;> norm_num [mass]
  refine ⟨hmass, ?_, hnone, (spin_exact (pure (2 / 5) : Id ℚ) (fun n => n - 1) [0, -1]).2 hnone⟩
  rw [hspin, hunique 3 hthird]

/-! ## Any rounding -/

/-- Sums, differences and products of doubles of which no more is known than that zeros add up to zero. -/
structure Arithmetic where
  add : Float → Float → Float
  sub : Float → Float → Float
  mul : Float → Float → Float
  zero_add_zero : add 0 0 = 0

namespace Arithmetic

/-- The operations on doubles that round to the nearest. -/
def nearest : Arithmetic := ⟨(· + ·), (· - ·), (· * ·), by decide⟩

variable (a : Arithmetic)

/-- The sum of all weights as it comes out. -/
def total (fitness : List Float) : Float :=
  letI : Add Float := ⟨a.add⟩
  totalWeight fitness

/-- Roulette with these operations. -/
def spin {σ : Type} (unit : StateM σ Float) (below : Nat → StateM σ Nat) (fitness : List Float) :
    StateM σ (Option Nat) :=
  letI : Add Float := ⟨a.add⟩
  letI : Sub Float := ⟨a.sub⟩
  letI : Mul Float := ⟨a.mul⟩
  Breeding.spin unit below fitness

theorem weighs : @Weighs Float _ ⟨a.add⟩ _ _ :=
  let _ : Add Float := ⟨a.add⟩
  ⟨a.zero_add_zero, by decide, fun _ => Number.Order.not_le_of_lt⟩

/-- The place of a fitness, of a positive one unless the total came out as nothing. -/
def Fair (fitness : List Float) (i : Nat) : Prop :=
  ∃ f, fitness[i]? = some f ∧ (¬a.total fitness ≤ 0 → 0 < f)

theorem spin_gives {σ : Type} (unit : StateM σ Float) {below : Nat → StateM σ Nat} {fitness : List Float}
    (hbelow : Gives (· < fitness.length) (below fitness.length)) :
    Gives (fun i? => ∃ i, i? = some i ∧ a.Fair fitness i) (a.spin unit below fitness) := by
  intro s
  let _ : Add Float := ⟨a.add⟩
  let _ : Sub Float := ⟨a.sub⟩
  by_cases htotal : a.total fitness ≤ 0
  · have hspin : a.spin unit below fitness = some <$> below fitness.length := if_pos htotal
    rw [hspin]
    exact ⟨_, rfl, _, List.getElem?_eq_getElem (hbelow s), fun h => absurd htotal h⟩
  · have hspin : a.spin unit below fitness =
        unit >>= fun u => pure (locate 0 none (a.mul u (a.total fitness)) fitness) := if_neg htotal
    rw [hspin]
    obtain ⟨i, f, hi, hf, hpos⟩ := place_found a.weighs htotal (a.mul (unit.run s).1 (a.total fitness))
    exact ⟨i, hi, f, hf, fun _ => hpos⟩

end Arithmetic

/-! ## Selectors -/

theorem tournamentFrom_lt {fitness : List Float} {best : Nat} (count : Nat) (hbest : best < fitness.length) :
    Gives (· < fitness.length) (tournamentFrom fitness count best) := by
  induction count generalizing best with
  | zero => exact .pure hbest
  | succ count ih =>
    refine .bind (Chance.below_lt (Nat.zero_lt_of_lt hbest)) fun rival hrival => ih ?_
    split
    · exact hrival
    · exact hbest

theorem tournament_lt (size : Int) {fitness : List Float} (hne : fitness ≠ []) :
    Gives (· < fitness.length) (tournament size fitness) :=
  .bind (Chance.below_lt (List.length_pos_iff.mpr hne)) fun _ hbest => tournamentFrom_lt _ hbest

namespace Selector

variable {individuals : List Individual}

/-- A selector by fitness that always draws a place picks it without an error. -/
theorem byFitness_returns (name : String) {draw : List Float → Draw (Option Nat)} {P : Nat → Prop}
    (hne : individuals ≠ [])
    (h : Gives (fun i? => ∃ i, i? = some i ∧ P i) (draw (individuals.map (·.fitness)))) :
    Returns (fun _ => False) P ((byFitness name draw).pick individuals) := by
  unfold byFitness
  dsimp only
  rw [if_neg (by simpa using hne)]
  refine .bind (.draw h) ?_
  rintro _ ⟨i, rfl, hi⟩
  exact .pure hi

theorem roulette_returns (hne : individuals ≠ []) :
    Returns (fun _ => False) (Arithmetic.nearest.Fair (individuals.map (·.fitness))) (roulette.pick individuals) := by
  refine byFitness_returns "roulette" hne (Arithmetic.nearest.spin_gives Chance.unit (Chance.below_lt ?_))
  rw [List.length_map]
  exact List.length_pos_iff.mpr hne

/-- The selector finds a parent wherever there are individuals. -/
def Sure (s : Selector) : Prop :=
  ∀ individuals, individuals ≠ [] → Returns (fun _ => False) (· < individuals.length) (s.pick individuals)

theorem sure_roulette : roulette.Sure := by
  intro individuals hne
  refine (roulette_returns hne).mono fun i hi => ?_
  obtain ⟨f, hf, -⟩ := hi
  obtain ⟨hlt, -⟩ := List.getElem?_eq_some_iff.mp hf
  rwa [List.length_map] at hlt

theorem sure_tournament (size : Int) : (tournament size).Sure := by
  intro individuals hne
  refine byFitness_returns "tournament" hne fun source => ⟨_, rfl, ?_⟩
  have hfitness : individuals.map (·.fitness) ≠ [] := by simpa using hne
  have hlt := tournament_lt size hfitness source
  rwa [List.length_map] at hlt

/-- **The selectors that have a name never fail.** -/
theorem sure_of_ofName {name : String} {size : Int} {s : Selector} (h : ofName name size = .ok s) : s.Sure := by
  unfold ofName at h
  split at h
  · cases h
    exact sure_roulette
  · split at h
    · cases h
      exact sure_tournament size
    · cases h

end Selector

/-- **Roulette is safe however its numbers are rounded.** Where there is an individual, one is drawn without fail, and
if the total does not come out as nothing, it is one of positive fitness. -/
theorem roulette_safe (individuals : List Individual) (hne : individuals ≠ []) :
    (∀ (a : Arithmetic) (σ : Type) (unit : StateM σ Float) (below : Nat → StateM σ Nat),
      Gives (· < individuals.length) (below individuals.length) →
      Gives (fun i? => ∃ i ind, i? = some i ∧ individuals[i]? = some ind ∧
          (¬a.total (individuals.map (·.fitness)) ≤ 0 → 0 < ind.fitness))
        (a.spin unit below (individuals.map (·.fitness)))) ∧
    ∀ source, ∃ i ind rest, (Selector.roulette.pick individuals).run source = (.ok i, rest) ∧
      individuals[i]? = some ind ∧ (¬totalWeight (individuals.map (·.fitness)) ≤ 0 → 0 < ind.fitness) := by
  -- A place among the fitness values is that of an individual.
  have hplace : ∀ {a : Arithmetic} {i : Nat}, a.Fair (individuals.map (·.fitness)) i → ∃ ind,
      individuals[i]? = some ind ∧ (¬a.total (individuals.map (·.fitness)) ≤ 0 → 0 < ind.fitness) := by
    rintro a i ⟨f, hf, hpos⟩
    rw [List.getElem?_map] at hf
    obtain ⟨ind, hind, rfl⟩ := Option.map_eq_some_iff.mp hf
    exact ⟨ind, hind, hpos⟩
  refine ⟨fun a σ unit below hbelow s => ?_, fun source => ?_⟩
  · have hlength : (individuals.map (·.fitness)).length = individuals.length := List.length_map _
    rw [← hlength] at hbelow
    obtain ⟨i, hi, hfair⟩ := a.spin_gives unit hbelow s
    obtain ⟨ind, hind, hpos⟩ := hplace hfair
    exact ⟨i, ind, hi, hind, hpos⟩
  · obtain ⟨i, rest, hrun, -, hfair⟩ := (Selector.roulette_returns hne).exists_result (s := source) trivial
    obtain ⟨ind, hind, hpos⟩ := hplace hfair
    exact ⟨i, ind, rest, hrun, hind, hpos⟩

/-- Operations whose results are of no use, but for sums of zeros. -/
def wild : Arithmetic where
  add x y := if x == 0 && y == 0 then 0 else Number.nan
  sub _ _ := Number.nan
  mul _ _ := Number.infinity false
  zero_add_zero := by decide

/-- Individuals with fitness values of all kinds, whose total is too large for a double. -/
def unruly : List Individual :=
  [Number.nan, -1, 0, 1e308, 1e308, Number.infinity true].map fun f => { Individual.default "unruly" with fitness := f }

/-- One of positive fitness is drawn from them, also with operations that are of no use. -/
theorem roulette_safe_unruly :
    (∃ i ind, ((wild.spin (pure 0.5) (fun _ => pure 0) (unruly.map (·.fitness)) : StateM Unit (Option Nat)).run ()).1 =
      some i ∧ unruly[i]? = some ind ∧ 0 < ind.fitness) ∧
    ∃ i ind rest, (Selector.roulette.pick unruly).run (.ofSeed 7) = (.ok i, rest) ∧ unruly[i]? = some ind ∧
      0 < ind.fitness := by
  obtain ⟨hany, hnearest⟩ := roulette_safe unruly (by simp [unruly])
  obtain ⟨i, ind, hi, hind, hpos⟩ := hany wild Unit (pure 0.5) (fun _ => pure 0) (.pure (by decide)) ()
  obtain ⟨j, other, rest, hj, hother, hpos'⟩ := hnearest (.ofSeed 7)
  exact ⟨⟨i, ind, hi, hind, hpos (by decide +kernel)⟩, j, other, rest, hj, hother, hpos' (by decide +kernel)⟩

end Forager.Breeding
