import Forager.Proofs.Arena.Idle
import Forager.Proofs.Number.Differences

/-!
# Robots keep apart

A robot goes only where it reaches neither into a wall nor into another robot. The others stay where they are meanwhile,
so robots that start apart are apart throughout a match.

* `Vec.distance_comm` : distances have no direction, also when they are rounded;
* `Clear c ps i p` : robot `i` can stand at `p` while the others stand at `ps`; `Spaced c ps` : every robot can stand
  where it does;
* `Shift c ps qs` : at most one robot goes, and to where it can stand; `Spaced.shift` : they stay spaced;
* `Event.places` : an event is a shift; `move_of_blocked`, `move_of_clear` : all that a move changes;
* `spacing_kept` : robots that start spaced are spaced in every world that a match leads to.
-/

namespace Forager.Arena

set_option autoImplicit false

open Program

/-! ## Distances -/

theorem hypot_congr {x x' y y' : Float} (hx : x.abs = x'.abs) (hy : y.abs = y'.abs) : hypot x y = hypot x' y' := by
  unfold hypot
  rw [hx, hy]

/-- **Distances have no direction.** -/
theorem Vec.distance_comm (p q : Vec) : p.distance q = q.distance p :=
  hypot_congr (Number.abs_sub_swap p.x q.x) (Number.abs_sub_swap p.y q.y)

/-! ## Places to stand -/

/-- A robot at this position reaches into no wall. -/
def Config.Inside (c : Config) (p : Vec) : Prop :=
  ¬p.x < robotRadius ∧ ¬p.x > c.length - robotRadius ∧ ¬p.y < robotRadius ∧ ¬p.y > c.width - robotRadius

instance (c : Config) (p : Vec) : Decidable (c.Inside p) := by
  unfold Config.Inside
  infer_instance

/-- Robots at these two positions do not reach into each other. -/
def Vec.Apart (p q : Vec) : Prop := ¬p.distance q < 2 * robotRadius

instance (p q : Vec) : Decidable (p.Apart q) := by
  unfold Vec.Apart
  infer_instance

theorem Vec.Apart.symm {p q : Vec} (h : p.Apart q) : q.Apart p := by
  unfold Vec.Apart at h ⊢
  rwa [Vec.distance_comm]

/-- At `p` robot `i` reaches neither into a wall nor into one of the others, which stand at `ps`. -/
structure Clear (c : Config) (ps : List Vec) (i : Nat) (p : Vec) : Prop where
  inside : c.Inside p
  apart : ∀ j q, j ≠ i → ps[j]? = some q → p.Apart q

/-- No robot reaches into a wall, and no two into each other. -/
def Spaced (c : Config) (ps : List Vec) : Prop := ∀ i p, ps[i]? = some p → Clear c ps i p

theorem spaced_iff_pairwise {c : Config} {ps : List Vec} :
    Spaced c ps ↔ (∀ p ∈ ps, c.Inside p) ∧ ps.Pairwise Vec.Apart := by
  constructor
  · intro h
    refine ⟨fun p hp => ?_, List.pairwise_iff_getElem.mpr fun i j hi hj hij => ?_⟩
    · obtain ⟨i, hi⟩ := List.mem_iff_getElem?.mp hp
      exact (h i p hi).inside
    · exact (h i _ (List.getElem?_eq_getElem hi)).apart j _ (by omega) (List.getElem?_eq_getElem hj)
  · rintro ⟨hinside, hapart⟩ i p hp
    refine ⟨hinside p (List.mem_of_getElem? hp), fun j q hji hq => ?_⟩
    rw [List.pairwise_iff_getElem] at hapart
    obtain ⟨hi, rfl⟩ := List.getElem?_eq_some_iff.mp hp
    obtain ⟨hj, rfl⟩ := List.getElem?_eq_some_iff.mp hq
    -- The pairs are listed with the smaller index first.
    rcases Nat.lt_or_gt_of_ne hji with hlt | hgt
    · exact (hapart j i hj hi hlt).symm
    · exact hapart i j hi hj hgt

instance (c : Config) (ps : List Vec) : Decidable (Spaced c ps) := decidable_of_iff _ spaced_iff_pairwise.symm

/-- All robots stay where they are, or one of them goes to where it can stand. -/
inductive Shift (c : Config) (ps : List Vec) : List Vec → Prop
  | rest : Shift c ps ps
  | go {i : Nat} {p : Vec} : Clear c ps i p → Shift c ps (ps.set i p)

/-- Robots that are spaced stay so when one of them goes. -/
theorem Spaced.shift {c : Config} {ps qs : List Vec} (h : Spaced c ps) (hshift : Shift c ps qs) : Spaced c qs := by
  cases hshift with
  | rest => exact h
  | @go i p hclear =>
    intro j q hq
    by_cases hji : i = j
    · subst hji
      obtain ⟨-, rfl⟩ : i < ps.length ∧ p = q := by simpa [List.getElem?_set] using hq
      refine ⟨hclear.inside, fun k s hk hs => hclear.apart k s hk ?_⟩
      rwa [List.getElem?_set_ne (Ne.symm hk)] at hs
    · rw [List.getElem?_set_ne hji] at hq
      refine ⟨(h j q hq).inside, fun k s hk hs => ?_⟩
      by_cases hik : i = k
      · -- The robot that went keeps its distance from `j`, so `j` keeps its distance from it.
        subst hik
        obtain ⟨-, rfl⟩ : i < ps.length ∧ p = s := by simpa [List.getElem?_set] using hs
        exact (hclear.apart j q (Ne.symm hji) hq).symm
      · rw [List.getElem?_set_ne hik] at hs
        exact (h j q hq).apart k s hk hs

/-! ## Moves -/

theorem modify_eq_mapIdx {α : Type} (xs : List α) (t : Nat) (f : α → α) :
    xs.modify t f = xs.mapIdx fun s x => if some t = some s then f x else x := by
  apply List.ext_getElem?
  intro s
  rw [List.getElem?_modify, List.getElem?_mapIdx]
  by_cases hts : t = s <;> simp [hts]

theorem mapIdx_eq_self {α : Type} (xs : List α) : (xs.mapIdx fun _ x => x) = xs := by
  apply List.ext_getElem?
  intro s
  rw [List.getElem?_mapIdx, Option.map_id']

/-- The heading of a robot after its next turn. -/
def Robot.turned (r : Robot) : Float := wrapAngle (r.heading + (r.right - r.left) / robotRadius)

/-- Where a robot gets if nothing is in its way. -/
def Robot.ahead (r : Robot) : Vec := r.pos.add ((direction r.turned).scale ((r.left + r.right) / 2))

/-- Where it then holds a treat. -/
def Robot.grip (r : Robot) : Vec := r.ahead.add ((direction r.turned).scale (robotRadius + treatRadius))

namespace World

variable (w : World)

def places : List Vec := w.robots.map (·.pos)

theorem outOfField_eq_false_iff (c : Config) (p : Vec) : Config.outOfField c p = false ↔ c.Inside p := by
  simp [Config.outOfField, Config.Inside, and_assoc]

theorem blocked_eq_false_iff (i : Nat) (p : Vec) : w.blocked i p = false ↔ Clear w.config w.places i p := by
  unfold blocked others
  rw [Bool.or_eq_false_iff, outOfField_eq_false_iff, List.any_eq_false]
  constructor
  · rintro ⟨hinside, hothers⟩
    refine ⟨hinside, fun j q hj hq => ?_⟩
    obtain ⟨r, hr, rfl⟩ : ∃ r, w.robots[j]? = some r ∧ r.pos = q := by simpa [places] using hq
    simpa [Vec.Apart] using hothers r (List.mem_eraseIdx_iff_getElem?.mpr ⟨j, hj, hr⟩)
  · intro h
    refine ⟨h.inside, fun r hr => ?_⟩
    obtain ⟨j, hj, hr⟩ := List.mem_eraseIdx_iff_getElem?.mp hr
    simpa [Vec.Apart] using h.apart j r.pos hj (by simp [places, hr])

variable {w} {i : Nat} {r : Robot}

theorem updateRobot_eq_set (hr : w.robots[i]? = some r) (change : Robot → Robot) :
    w.updateRobot i change = { w with robots := w.robots.set i (change r) } := by
  unfold updateRobot
  rw [List.modify_eq_set_getElem?, hr]
  rfl

/-- A robot whose way is blocked turns, and nothing else changes. -/
theorem move_of_blocked (hr : w.robots[i]? = some r) (h : ¬Clear w.config w.places i r.ahead) :
    w.move i = { w with robots := w.robots.set i { r with heading := r.turned } } := by
  rw [← blocked_eq_false_iff, Bool.not_eq_false] at h
  unfold move
  rw [hr]
  exact (if_pos h).trans (updateRobot_eq_set hr _)

/-- Otherwise it goes ahead, and the treat it carries comes along. -/
theorem move_of_clear (hr : w.robots[i]? = some r) (h : Clear w.config w.places i r.ahead) :
    w.move i =
      { w with
        robots := w.robots.set i
          { r with heading := r.turned, pos := r.ahead, travelled := r.travelled + r.ahead.distance r.pos }
        treats := w.treats.mapIdx fun t x => if r.carrying = some t then { x with pos := r.grip } else x } := by
  rw [← blocked_eq_false_iff] at h
  have hblocked : ¬w.blocked i r.ahead = true := Bool.not_eq_true _ ▸ h
  unfold move
  rw [hr]
  refine (if_neg hblocked).trans ?_
  dsimp only
  rw [updateRobot_eq_set hr]
  cases r.carrying with
  | some t =>
    rw [← modify_eq_mapIdx]
    rfl
  | none =>
    simp only [reduceCtorEq, if_false, mapIdx_eq_self]
    rfl

theorem move_of_none (h : w.robots[i]? = none) : w.move i = w := by
  unfold move
  rw [h]

/-! ## Shifts -/

theorem places_updateRobot (w : World) (i : Nat) {change : Robot → Robot} (h : ∀ r, (change r).pos = r.pos) :
    (w.updateRobot i change).places = w.places :=
  map_modify_of_eq h w.robots i

/-- A move takes a robot only to where it can stand. -/
theorem places_move (w : World) (i : Nat) : Shift w.config w.places (w.move i).places := by
  cases hr : w.robots[i]? with
  | none =>
    rw [move_of_none hr]
    exact .rest
  | some r =>
    by_cases hclear : Clear w.config w.places i r.ahead
    · have hplaces : (w.move i).places = w.places.set i r.ahead := by
        rw [move_of_clear hr hclear, places, List.map_set, places]
      exact hplaces ▸ .go hclear
    · have hplaces : (w.move i).places = w.places := by
        rw [move_of_blocked hr hclear, ← updateRobot_eq_set hr fun s => { s with heading := s.turned }]
        exact w.places_updateRobot i fun _ => rfl
      exact hplaces ▸ .rest

end World

/-- **Nothing but a clear move takes a robot anywhere.** -/
theorem Event.places (w : World) (e : Event) : Shift w.config w.places (e.apply w).places := by
  cases e with
  | pickUp i =>
    have hplaces : (w.pickUp i).2.places = w.places := World.map_pickUp (fun _ _ _ _ => rfl) w i
    exact hplaces ▸ .rest
  | drive i left right =>
    rw [Event.apply, w.places_updateRobot i ?_]
    · exact .rest
    · exact fun _ => rfl
  | move i => exact w.places_move i
  | advance i =>
    have hplaces : (w.advance i).places = w.places := World.map_advance (fun _ _ _ _ => rfl) w i
    exact hplaces ▸ .rest
  | deliver i =>
    have hplaces : (w.deliver i).places = w.places := World.map_deliver (fun _ _ _ _ => rfl) w i
    exact hplaces ▸ .rest

theorem World.Reaches.spaced {w v : World} (h : w.Reaches v) (hw : Spaced w.config w.places) :
    Spaced w.config v.places := by
  induction h with
  | refl => exact hw
  | tail hreaches hevent ih =>
    obtain ⟨e, rfl⟩ := hevent
    exact ih.shift (World.Reaches.config hreaches ▸ e.places _)

/-! ## Matches -/

def Config.starts (c : Config) : List Vec :=
  Side.all.flatMap fun side => (List.range c.robotsPerTeam.toNat).map (c.start side)

example : Spaced .standard Config.standard.starts := by decide +kernel

theorem new_places (c : Config) (team opponent : List Expr) :
    Gives (fun w? => ∀ w, w? = some w → w.places = c.starts) (World.new c team opponent) := by
  refine .bind (.any (placeTreats Chance.unit c)) fun places _ => .pure fun w hw => ?_
  obtain ⟨_, -, rfl⟩ := Option.map_eq_some_iff.mp hw
  simp [World.places, lineup, Config.starts, Side.all, Function.comp_def]

/-- **Robots never enter a wall or each other.** If the robots are spaced where they start, they are in every world that
a match leads to. A move that would end in a wall or in another robot only turns the robot; any other takes it ahead,
with the treat it carries, and leaves all else as it is. -/
theorem spacing_kept (c : Config) (team opponent : List Expr) (source rest : Chance.Source) (w₀ : World)
    (hstarts : Spaced c c.starts) (hnew : (World.new c team opponent).run source = (some w₀, rest)) :
    Closed w₀.Reaches ∧ ∀ w, w₀.Reaches w →
      (w.config = c ∧ Spaced c w.places) ∧
      ∀ (i : Nat) (r : Robot), w.robots[i]? = some r →
        (¬Clear c w.places i r.ahead →
          w.move i = { w with robots := w.robots.set i { r with heading := r.turned } }) ∧
        (Clear c w.places i r.ahead →
          w.move i =
            { w with
              robots := w.robots.set i
                { r with heading := r.turned, pos := r.ahead, travelled := r.travelled + r.ahead.distance r.pos }
              treats := w.treats.mapIdx fun t x => if r.carrying = some t then { x with pos := r.grip } else x }) := by
  have hconfig := new_config c team opponent source w₀ (by rw [hnew])
  have hplaces := new_places c team opponent source w₀ (by rw [hnew])
  refine ⟨closed_reaches w₀, fun w hw => ?_⟩
  have hsame : w.config = c := hw.config.trans hconfig
  have hspaced := hw.spaced (by rwa [hconfig, hplaces])
  rw [hconfig] at hspaced
  refine ⟨⟨hsame, hspaced⟩, fun i r hr => ?_⟩
  rw [← hsame]
  exact ⟨World.move_of_blocked hr, World.move_of_clear hr⟩

theorem spacing_kept_contested :
    Spaced contested contested.starts ∧ ∃ w₀ rest,
      (World.new contested [.leaf .pickUp] [.leaf .pickUp, .idle]).run (.ofSeed 7) = (some w₀, rest) ∧
      ∀ deadline, Spaced contested (playFrom 100 0 w₀ deadline).world.places := by
  have hstarts : Spaced contested contested.starts := by decide +kernel
  have hroom := new_single (c := contested) rfl [.leaf .pickUp] [.leaf .pickUp, .idle] (.ofSeed 7)
  rcases hnew : (World.new contested [.leaf .pickUp] [.leaf .pickUp, .idle]).run (.ofSeed 7) with ⟨w?, rest⟩
  rw [hnew] at hroom
  obtain ⟨w₀, rfl⟩ := hroom
  obtain ⟨hclosed, hspaced⟩ := spacing_kept _ _ _ _ _ w₀ hstarts hnew
  exact ⟨hstarts, w₀, rest, rfl, fun deadline => (hspaced _ (hclosed.play 100 0 deadline w₀ .rfl)).1.2⟩

end Forager.Arena
