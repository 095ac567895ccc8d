import Forager.Proofs.Arena.Events

/-!
# Who carries a treat

Who carries a treat is noted with the robot, with the treat and in the state of the robot, and in a match the three
always agree.

* `new_fresh` : in a new world nobody carries anything, and all the treats are there;
* `World.Owned` : the notes agree;
* `ownership_kept` : they do in every world that a match leads to, and a treat that was scored is out of play.
-/

namespace Forager.Arena

set_option autoImplicit false

open Program

/-! ## A new world -/

/-- As many are placed as were wanted. -/
theorem scatter_length {σ P : Type} (next : StateM σ P) (clash : List P → P → Bool) (wanted fuel : Nat)
    (placed : List P) (h : placed.length ≤ wanted) :
    Gives (fun ps? => ∀ ps, ps? = some ps → ps.length = wanted) (scatter next clash wanted fuel placed) := by
  induction fuel generalizing placed with
  | zero =>
    rw [scatter]
    refine .pure fun ps hps => ?_
    split at hps
    · cases hps
      omega
    · cases hps
  | succ fuel ih =>
    rw [scatter]
    split
    · refine .pure fun ps hps => ?_
      cases hps
      omega
    · refine .bind (.any next) fun p _ => ?_
      split
      · exact ih placed h
      · exact ih (placed ++ [p]) (by rw [List.length_append, List.length_singleton]; omega)

theorem lineup_hand (c : Config) (programs : List Expr) (side : Side) :
    ∀ r ∈ lineup c programs side, r.hand = ⟨none, false⟩ := by
  intro r hr
  obtain ⟨i, -, rfl⟩ := List.mem_map.mp hr
  rfl

/-- In a new world nobody carries anything, and all the treats are there. -/
theorem new_fresh (c : Config) (team opponent : List Expr) :
    Gives (fun w? => ∀ w, w? = some w → w.holdings.Fresh c.treats.toNat) (World.new c team opponent) := by
  refine .bind (scatter_length _ _ _ _ [] (Nat.zero_le _)) fun places hplaces => .pure ?_
  intro w hw
  obtain ⟨ps, hps, rfl⟩ := Option.map_eq_some_iff.mp hw
  refine ⟨fun hand hhand => ?_, ?_, rfl⟩
  · obtain ⟨r, hr, rfl⟩ := List.mem_map.mp hhand
    rcases List.mem_append.mp hr with hr | hr
    · exact lineup_hand c team .home r hr
    · exact lineup_hand c opponent .away r hr
  · refine List.eq_replicate_iff.mpr ⟨?_, fun mark hmark => ?_⟩
    · exact (List.length_map _).trans ((List.length_map _).trans (hplaces ps hps))
    · obtain ⟨x, hx, rfl⟩ := List.mem_map.mp hmark
      obtain ⟨p, -, rfl⟩ := List.mem_map.mp hx
      rfl

/-! ## Ownership -/

namespace World

def Carries (w : World) (i t : Nat) : Prop := ∃ r, w.robots[i]? = some r ∧ r.carrying = some t

def Scored (w : World) (t : Nat) : Prop := ∃ x, w.treats[t]? = some x ∧ x.scored = true

/-- Robots, treats and the states of the robots agree on who carries what. -/
structure Owned (w : World) : Prop where
  carries_iff : ∀ i t : Nat, w.Carries i t ↔ ∃ x, w.treats[t]? = some x ∧ x.carrier = some i
  carrier_unique : ∀ i j t : Nat, w.Carries i t → w.Carries j t → i = j
  scored : ∀ t : Nat, w.Scored t → ∀ x, w.treats[t]? = some x → x.carrier = none
  state : ∀ (i : Nat) (r : Robot), w.robots[i]? = some r → (r.state = .carry ↔ ∃ t, r.carrying = some t)

variable {w : World}

theorem hands_carrying (i t : Nat) : w.holdings.hands[i]?.map (·.carrying) = some (some t) ↔ w.Carries i t := by
  simp [holdings, Carries, Robot.hand]

theorem marks_carrier (i t : Nat) :
    w.holdings.marks[t]?.map (·.carrier) = some (some i) ↔ ∃ x, w.treats[t]? = some x ∧ x.carrier = some i := by
  simp [holdings, Treat.mark]

theorem marks_scored (t : Nat) : w.holdings.marks[t]?.map (·.scored) = some true ↔ w.Scored t := by
  simp [holdings, Scored, Treat.mark]

theorem Owned.of_holdings (h : w.holdings.Owned) : w.Owned := by
  have hiff : ∀ i t : Nat, w.Carries i t ↔ ∃ x, w.treats[t]? = some x ∧ x.carrier = some i := by
    intro i t
    rw [← hands_carrying, ← marks_carrier]
    exact h.carrier_iff i t
  refine ⟨hiff, fun i j t hi hj => ?_, fun t ht x hx => ?_, fun i r hr => ?_⟩
  · obtain ⟨x, hx, hxi⟩ := (hiff i t).mp hi
    obtain ⟨y, hy, hyj⟩ := (hiff j t).mp hj
    rw [hx, Option.some.injEq] at hy
    rw [← hy, hxi, Option.some.injEq] at hyj
    exact hyj
  · obtain ⟨y, hy, hscored⟩ := ht
    rw [hx, Option.some.injEq] at hy
    refine h.scored t x.carrier ?_
    simp [holdings, Treat.mark, hx, hy, hscored]
  · have hstate : decide (r.state = .carry) = r.carrying.isSome := h.state i r.hand (by simp [holdings, hr])
    rw [← Option.isSome_iff_exists, ← hstate, decide_eq_true_iff]

/-- What a robot tells its program about carrying is whether it carries a treat. -/
theorem Owned.tells (h : w.Owned) {i : Nat} {r : Robot} (hr : w.robots[i]? = some r) :
    ((agent i).inState .carry).run w = (r.carrying.isSome, w) ∧
      (agent i).isCarrying.run w = (r.carrying.isSome, w) := by
  have hstate : decide (r.state = .carry) = r.carrying.isSome := by
    rw [Bool.eq_iff_iff, decide_eq_true_iff, Option.isSome_iff_exists]
    exact h.state i r hr
  constructor
  · change (_, w) = _
    simp [hr, hstate]
  · change (_, w) = _
    simp [hr, hstate]

/-- A treat that was scored is out of play. -/
theorem Owned.out_of_play (h : w.Owned) {t : Nat} (ht : w.Scored t) :
    (∀ x, w.treats[t]? = some x → x.isFree = false) ∧ ∀ i, ¬w.Carries i t := by
  refine ⟨fun x hx => ?_, fun i hi => ?_⟩
  · obtain ⟨y, hy, hscored⟩ := ht
    rw [hx, Option.some.injEq] at hy
    simp [Treat.isFree, hy, hscored]
  · obtain ⟨x, hx, hcarrier⟩ := (h.carries_iff i t).mp hi
    rw [h.scored t ht x hx] at hcarrier
    cases hcarrier

/-! ## Matches -/

section

variable {w₀ v : World} {n : Nat} (hfresh : w₀.holdings.Fresh n)
include hfresh

theorem Reaches.owned (h : w₀.Reaches w) : w.Owned := .of_holdings (hfresh.owned.steps h.holdings)

/-- From a new world on there is a ledger of the treats that were scored, to which entries are only added. -/
theorem Reaches.records (h : w₀.Reaches w) :
    ∃ ledger, w.holdings.Records ledger ∧ ∀ v, w.Reaches v → ∃ more, v.holdings.Records (ledger ++ more) := by
  have howned := hfresh.owned.steps h.holdings
  obtain ⟨ledger, hledger⟩ := hfresh.records.steps hfresh.owned h.holdings
  exact ⟨ledger, hledger, fun v hv => hledger.steps howned hv.holdings⟩

theorem Reaches.scored (h : w₀.Reaches w) (hv : w.Reaches v) {t : Nat} (ht : w.Scored t) : v.Scored t := by
  obtain ⟨ledger, hw, hlater⟩ := h.records hfresh
  obtain ⟨more, hmore⟩ := hlater v hv
  rw [← marks_scored, hw.scored] at ht
  rw [← marks_scored, hmore.scored, List.map_append]
  exact List.mem_append_left _ ht

end

end World

/-- **Robots and treats are linked one to one.** In every world that a match leads to, a robot carries a treat iff it is
the carrier of the treat, and iff it is in the state of carrying; and a treat that was scored stays out of play. -/
theorem ownership_kept (c : Config) (team opponent : List Expr) (source rest : Chance.Source) (w₀ : World)
    (hnew : (World.new c team opponent).run source = (some w₀, rest)) :
    Closed w₀.Reaches ∧ ∀ w, w₀.Reaches w →
      w.Owned ∧
      (∀ (i : Nat) (r : Robot), w.robots[i]? = some r →
        ((agent i).inState .carry).run w = (r.carrying.isSome, w) ∧
        (agent i).isCarrying.run w = (r.carrying.isSome, w)) ∧
      ∀ t, w.Scored t → ∀ v, w.Reaches v →
        v.Scored t ∧ (∀ x, v.treats[t]? = some x → x.isFree = false) ∧ ∀ i, ¬v.Carries i t := by
  have hfresh := new_fresh c team opponent source w₀ (by rw [hnew])
  refine ⟨closed_reaches w₀, fun w hw => ?_⟩
  have howned := hw.owned hfresh
  refine ⟨howned, fun i r hr => howned.tells hr, fun t ht v hv => ?_⟩
  have hscored := hw.scored hfresh hv ht
  exact ⟨hscored, (World.Reaches.owned hfresh (hw.trans hv)).out_of_play hscored⟩

/-- A field with a single treat, over which two teams of two compete. -/
def contested : Config where
  length := 220
  width := 150
  treats := 1
  maxSteps := 100
  robotsPerTeam := 2
  sensorRange := 100

theorem ownership_kept_contested :
    ∃ w₀ rest, (World.new contested [.leaf .pickUp] [.leaf .pickUp, .idle]).run (.ofSeed 7) = (some w₀, rest) ∧
      ∀ deadline, (playFrom 100 0 w₀ deadline).world.Owned := by
  have hroom := new_single (c := contested) rfl [.leaf .pickUp] [.leaf .pickUp, .idle] (.ofSeed 7)
  rcases hnew : (World.new contested [.leaf .pickUp] [.leaf .pickUp, .idle]).run (.ofSeed 7) with ⟨w?, rest⟩
  rw [hnew] at hroom
  obtain ⟨w₀, rfl⟩ := hroom
  obtain ⟨hclosed, howned⟩ := ownership_kept _ _ _ _ _ w₀ hnew
  exact ⟨w₀, rest, rfl, fun deadline => (howned _ (hclosed.play 100 0 deadline w₀ .rfl)).1⟩

end Forager.Arena
