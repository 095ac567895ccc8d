import Mathlib.Algebra.Order.Field.Rat
import Mathlib.Tactic.GCongr
import Mathlib.Tactic.NormNum
import Mathlib.Tactic.Positivity
import Forager.Proofs.Arena.Idle

/-!
# The fitness of a match

How a match is rated, in exact arithmetic. The lead over the opponent is a ratio of scores, or the number of treats when
the opponent has none; what makes the two comparable is that nobody scores more treats than there are.

* `Tally treats` : what a match over so many treats can end with; `Tally.Below t u` : `t` is no better than `u` in any
  respect;
* `Tally.lead_le_lead` : the lead grows with the own score and falls with that of the opponent, also where the opponent
  gets its first treat;
* `playMatch_tally` : every match that has a result ends with a tally, by which it is rated;
* `fitness_ranks` : the rating is not negative, positive iff the team has a treat, and ranks tallies as they compare.
-/

namespace Forager

set_option autoImplicit false

instance : OfInteger ℚ := ⟨Int.cast⟩

namespace Arena

open Program

/-- What a match over `treats` treats can end with: the two scores, the steps taken, and whether a robot of the home
team was idle. -/
structure Tally (treats : Nat) where
  own : Nat
  opponent : Nat
  steps : Nat
  idle : Bool
  within : own + opponent ≤ treats
  started : 1 ≤ steps

namespace Tally

variable {treats : Nat}

section

variable {R : Type} [OfInteger R]

/-- The penalty for an idle robot, 1 if there is none. -/
def penalty (t : Tally treats) : R := ofInteger (if t.idle then 100 else 1)

/-- The fitness of the home team, in the arithmetic of `R`. -/
def fitness [OfNat R 0] [Mul R] [Div R] (t : Tally treats) : R :=
  Arena.fitness t.own t.opponent t.steps treats t.penalty

end

/-- The own score is no higher, and the score of the opponent, the steps and the penalty are no lower. -/
structure Below (t u : Tally treats) : Prop where
  own : t.own ≤ u.own
  opponent : u.opponent ≤ t.opponent
  steps : u.steps ≤ t.steps
  penalty : (u.penalty : ℚ) ≤ t.penalty

def lead (t : Tally treats) : ℚ := if t.opponent = 0 then treats else t.own / t.opponent

variable (t u : Tally treats)

theorem penalty_pos : (0 : ℚ) < t.penalty := by
  unfold penalty
  cases t.idle <;> simp [ofInteger]

theorem steps_pos : (0 : ℚ) < t.steps := by exact_mod_cast t.started

theorem fitness_eq : (t.fitness : ℚ) = t.own / t.steps * t.lead / t.penalty := by
  have hsteps : ¬(t.steps : Int) ≤ 0 := by
    have := t.started
    omega
  unfold fitness Arena.fitness lead
  rw [if_neg hsteps]
  by_cases hopponent : t.opponent = 0
  · simp [hopponent, ofInteger]
  · simp [hopponent, ofInteger]

theorem lead_nonneg : 0 ≤ t.lead := by
  unfold lead
  split <;> positivity

theorem lead_pos (h : 0 < t.own) : 0 < t.lead := by
  have hown : (0 : ℚ) < t.own := by exact_mod_cast h
  unfold lead
  split
  · have := t.within
    exact_mod_cast (by omega : 0 < treats)
  · rename_i hopponent
    have : (0 : ℚ) < t.opponent := by exact_mod_cast Nat.pos_of_ne_zero hopponent
    positivity

variable {t u}

/-- **The lead ranks scores**, whichever of its two forms it takes. -/
theorem lead_le_lead (hown : t.own ≤ u.own) (hopponent : u.opponent ≤ t.opponent) : t.lead ≤ u.lead := by
  have hown' : (t.own : ℚ) ≤ u.own := by exact_mod_cast hown
  unfold lead
  by_cases hu : u.opponent = 0
  · rw [if_pos hu]
    by_cases ht : t.opponent = 0
    · rw [if_pos ht]
    -- The opponent gets its first treat: what the own score is divided by is at least 1.
    · rw [if_neg ht]
      have hone : (1 : ℚ) ≤ t.opponent := by exact_mod_cast Nat.one_le_iff_ne_zero.mpr ht
      have htreats : (t.own : ℚ) ≤ treats := by
        have := t.within
        exact_mod_cast (by omega : t.own ≤ treats)
      calc (t.own : ℚ) / t.opponent ≤ t.own := div_le_self (by positivity) hone
        _ ≤ treats := htreats
  · have hpos : (0 : ℚ) < u.opponent := by exact_mod_cast Nat.pos_of_ne_zero hu
    have hopponent' : (u.opponent : ℚ) ≤ t.opponent := by exact_mod_cast hopponent
    rw [if_neg hu, if_neg (by omega)]
    gcongr

theorem fitness_pos_iff : (0 : ℚ) < t.fitness ↔ 0 < t.own := by
  constructor
  · intro h
    by_contra hown
    rw [fitness_eq, Nat.eq_zero_of_not_pos hown] at h
    simp at h
  · intro h
    have hown : (0 : ℚ) < t.own := by exact_mod_cast h
    have hsteps := t.steps_pos
    have hlead := t.lead_pos h
    have hpenalty := t.penalty_pos
    rw [fitness_eq]
    positivity

theorem fitness_le_fitness (h : t.Below u) : (t.fitness : ℚ) ≤ u.fitness := by
  have hown : (t.own : ℚ) ≤ u.own := by exact_mod_cast h.own
  have hsteps : (u.steps : ℚ) ≤ t.steps := by exact_mod_cast h.steps
  have hlead := lead_le_lead h.own h.opponent
  have hpenalty := h.penalty
  have := t.lead_nonneg
  have := u.lead_nonneg
  have := u.steps_pos
  have := u.penalty_pos
  rw [fitness_eq, fitness_eq]
  gcongr

end Tally

/-! ## Matches -/

theorem penalty_eq (idle : Bool) : (ofInteger (if idle then 100 else 1) : Float) = if idle then idlePenalty else 1 := by
  cases idle
  · decide
  · decide

/-- Every match that has a result ends with a tally, by which it is rated. -/
theorem playMatch_tally {c : Config} {deadline : Deadline} {m : Match} {outcome : Outcome} (htreats : 0 < c.treats)
    (hsteps : 0 < c.maxSteps) (h : (playMatch c deadline m).result = .ok outcome) :
    ∃ t : Tally c.treats.toNat,
      outcome.fitness = t.fitness ∧ outcome.report = some ⟨t.steps, t.own, t.opponent, t.penalty⟩ := by
  obtain ⟨w₀, rest, reason, hnew, rfl, hending, -⟩ := playMatch_ok h
  have hfresh := new_fresh _ _ _ _ w₀ (by rw [hnew])
  have hleft := remaining_new htreats (congrArg Prod.fst hnew)
  have hfirst := playFrom_progress 0 deadline (by omega) hleft hending
  have hlast : w₀.Reaches (playFrom c.maxSteps.toNat 0 w₀ deadline).world := playFrom_reaches .rfl _ _ _
  have hbalance := (hlast.balanced (by omega) hfresh).all
  have hconfig := hlast.config.trans (new_config _ _ _ _ w₀ (by rw [hnew]))
  generalize playFrom c.maxSteps.toNat 0 w₀ deadline = f at hfirst hbalance hconfig ⊢
  have hpenalty : ∃ idle : Bool, f.world.penalty .home = if idle then idlePenalty else 1 := by
    rcases List.mem_pair.mp (f.world.penalty_mem .home) with hone | hmore
    · exact ⟨false, hone⟩
    · exact ⟨true, hmore⟩
  obtain ⟨idle, hidle⟩ := hpenalty
  refine ⟨⟨f.world.score.home, f.world.score.away, f.steps, idle, by omega, hfirst⟩, ?_, ?_⟩
  · unfold Tally.fitness Tally.penalty Finish.outcome
    dsimp only
    rw [penalty_eq, hidle, hconfig, Int.toNat_of_nonneg (by omega)]
  · unfold Tally.penalty Finish.outcome
    dsimp only
    rw [penalty_eq, hidle]

/-- **Fitness ranks matches.** Every match that has a result is rated by the tally it ends with. In exact arithmetic the
rating is not negative, and positive iff the team has a treat; it does not fall when the own score grows, and does not
grow when the score of the opponent, the steps or the penalty do. -/
theorem fitness_ranks :
    (∀ (c : Config) (before : Nat) (deadline : Deadline) (m : Match) (outcome : Outcome),
      ((forage c).play before deadline m).result = .ok outcome → ∃ t : Tally c.withDefaults.treats.toNat,
        outcome.fitness = t.fitness ∧ outcome.report = some ⟨t.steps, t.own, t.opponent, t.penalty⟩) ∧
    ∀ (treats : Nat) (t : Tally treats),
      (t.penalty : ℚ) ∈ [1, 100] ∧ (0 : ℚ) ≤ t.fitness ∧ ((0 : ℚ) < t.fitness ↔ 0 < t.own) ∧
      ∀ u : Tally treats, t.Below u → (t.fitness : ℚ) ≤ u.fitness := by
  refine ⟨fun c before deadline m outcome h => ?_, fun treats t => ⟨?_, ?_, Tally.fitness_pos_iff, fun u h => ?_⟩⟩
  · obtain ⟨htreats, hsteps⟩ := c.withDefaults_pos
    exact playMatch_tally htreats hsteps h
  · unfold Tally.penalty
    cases t.idle <;> simp [ofInteger]
  · have hlead := t.lead_nonneg
    have hpenalty := t.penalty_pos
    rw [Tally.fitness_eq]
    positivity
  · exact Tally.fitness_le_fitness h

/-- Three of four treats in ten steps, and none for the opponent. -/
def shutOut : Tally 4 := ⟨3, 0, 10, false, by decide, by decide⟩

/-- The same, but the opponent has the fourth. -/
def conceded : Tally 4 := ⟨3, 1, 10, false, by decide, by decide⟩

theorem fitness_ranks_conceded :
    (∃ outcome, ((forage contested).play 0 .never ⟨[.idle], [], 7⟩).result = .ok outcome ∧ ∃ t : Tally 1,
      outcome.fitness = t.fitness ∧ outcome.report = some ⟨t.steps, t.own, t.opponent, t.penalty⟩) ∧
    conceded.Below shutOut ∧ (conceded.fitness : ℚ) = 9 / 10 ∧ (shutOut.fitness : ℚ) = 12 / 10 ∧
      (conceded.fitness : ℚ) ≤ shutOut.fitness := by
  have hbelow : conceded.Below shutOut := ⟨le_refl _, by decide, le_refl _, le_refl _⟩
  obtain ⟨outcome, hplay⟩ := playMatch_never (c := contested.withDefaults) (m := ⟨[.idle], [], 7⟩)
    (List.cons_ne_nil _ _) (List.forall_mem_singleton.mpr .idle) (List.forall_mem_nil _) (new_single rfl)
  have hresult : ((forage contested).play 0 .never ⟨[.idle], [], 7⟩).result = .ok outcome := congrArg Reply.result hplay
  refine ⟨⟨outcome, hresult, fitness_ranks.1 contested 0 .never _ outcome hresult⟩, hbelow, ?_, ?_,
    (fitness_ranks.2 4 conceded).2.2.2 shutOut hbelow⟩
  · rw [Tally.fitness_eq]
    norm_num [conceded, Tally.lead, Tally.penalty, ofInteger]
  · rw [Tally.fitness_eq]
    norm_num [shutOut, Tally.lead, Tally.penalty, ofInteger]

end Arena

end Forager
