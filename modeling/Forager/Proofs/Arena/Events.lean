import Mathlib.Logic.Relation
import Forager.Proofs.Arena.Holdings
import Forager.Proofs.Arena.Programs

/-!
# What happens in a match

All that changes the world of a match are a few kinds of events, and each of them is a step of the holdings.

* `Event` : what a robot or the world does, one thing at a time; `World.Reaches w v` : events lead from `w` to `v`;
* `closed_reaches` : nothing else happens while a program runs, in a step, or in a match, also where an error ends it;
* `World.holdings` : who holds what in a world; `Event.holdings` : an event is a step of it.
-/

namespace Forager.Arena

set_option autoImplicit false

open Program

/-! ## Events -/

/-- What robot `i` does, or the world with it. -/
inductive Event where
  | pickUp (i : Nat)
  | drive (i : Nat) (left right : Float)
  | move (i : Nat)
  | advance (i : Nat)
  | deliver (i : Nat)

def Event.apply (w : World) : Event → World
  | .pickUp i => (w.pickUp i).2
  | .drive i left right => w.updateRobot i fun r => r.drive left right
  | .move i => w.move i
  | .advance i => w.advance i
  | .deliver i => w.deliver i

/-- Whether events lead from one world to another. -/
def World.Reaches : World → World → Prop := Relation.ReflTransGen fun w v => ∃ e : Event, v = e.apply w

namespace World.Reaches

variable {w₀ w : World}

theorem rfl : w.Reaches w := .refl

theorem event (h : w₀.Reaches w) (e : Event) : w₀.Reaches (e.apply w) := .tail h ⟨e, .refl _⟩

theorem settle (h : w₀.Reaches w) (i : Nat) : w₀.Reaches (w.settle i) :=
  ((h.event (.move i)).event (.advance i)).event (.deliver i)

theorem foldl_settle (h : w₀.Reaches w) (is : List Nat) : w₀.Reaches (is.foldl World.settle w) := by
  induction is generalizing w with
  | nil => exact h
  | cons i is ih => exact ih (h.settle i)

end World.Reaches

theorem agent_reaches (w₀ : World) (i : Nat) : (agent i).Keeps w₀.Reaches where
  range _ _ h := h
  midpoint _ h := h
  width _ h := h
  inState _ _ h := h
  pickUp _ h := h.event (.pickUp i)
  setSpeed left right _ h := h.event (.drive i left right)
  isCarrying _ h := h

theorem think_reaches (w₀ : World) (i : Nat) (robots : List Robot) :
    Safe w₀.Reaches (fun _ => True) (World.think i robots) := by
  induction robots generalizing i with
  | nil => exact .pure trivial
  | cons r robots ih => exact .bind (eval_keeps (agent_reaches w₀ i) r.program) fun _ _ => ih (i + 1)

/-- Nothing but events happens in a step, also if an error ends it. -/
theorem step_reaches (w₀ : World) : Safe w₀.Reaches (fun _ => True) World.step :=
  .bind (.lift (fun _ h => h) (.any _)) fun w _ => .bind (think_reaches w₀ 0 w.robots) fun _ _ =>
    .lift (fun _ h => h.foldl_settle _) (.any _)

/-- Nothing but events happens in a match, however it ends. -/
theorem playFrom_reaches {w₀ w : World} (hw : w₀.Reaches w) (fuel steps : Nat) (deadline : Deadline) :
    w₀.Reaches (playFrom fuel steps w deadline).world := by
  induction fuel generalizing steps w deadline with
  | zero => exact hw
  | succ fuel ih =>
    rw [playFrom]
    split
    · exact hw
    · rcases (if steps % lookInterval = 0 then deadline.look else (false, deadline)) with ⟨passed, deadline'⟩
      dsimp only
      split
      · exact hw
      · rcases hrun : World.step.run w with ⟨r, w'⟩
        have hw' : w₀.Reaches w' := (step_reaches w₀ w r w' hw hrun).1
        cases r with
        | ok u => exact ih hw' (steps + 1) deadline'
        | error e => exact hw'

/-- Worlds that a match does not leave: neither by running a program, nor in a step, nor as a whole. -/
structure Closed (R : World → Prop) : Prop where
  eval : ∀ (i : Nat) (e : Expr) (w : World), R w → R ((Program.eval (agent i) e).run w).2
  step : ∀ w, R w → R (World.step.run w).2
  play : ∀ (fuel steps : Nat) (deadline : Deadline) (w : World), R w → R (playFrom fuel steps w deadline).world

theorem closed_reaches (w₀ : World) : Closed w₀.Reaches where
  eval i e w hw := (eval_keeps (agent_reaches w₀ i) e w _ _ hw rfl).1
  step w hw := (step_reaches w₀ w _ _ hw rfl).1
  play fuel steps deadline _ hw := playFrom_reaches hw fuel steps deadline

/-! ## Holdings -/

theorem map_modify_eq_set {α β : Type} {f : α → β} {g : α → α} {xs : List α} {i : Nat} {b : β}
    (h : ∀ x, xs[i]? = some x → f (g x) = b) : (xs.modify i g).map f = (xs.map f).set i b := by
  apply List.ext_getElem?
  intro j
  rw [List.getElem?_map, List.getElem?_modify, List.getElem?_set', List.getElem?_map]
  by_cases hij : i = j
  · subst hij
    cases hx : xs[i]? with
    | none => simp
    | some x => simp [h x hx]
  · simp [hij]

def Robot.hand (r : Robot) : Hand := ⟨r.carrying, r.state = .carry⟩

def Treat.mark (t : Treat) : Mark := ⟨t.carrier, t.scored⟩

def World.holdings (w : World) : Holdings := ⟨w.robots.map Robot.hand, w.treats.map Treat.mark, w.score⟩

namespace World

variable (w : World)

theorem holdings_updateRobot (i : Nat) {change : Robot → Robot} (h : ∀ r, (change r).hand = r.hand) :
    (w.updateRobot i change).holdings = w.holdings := by
  unfold holdings updateRobot
  rw [map_modify_of_eq h]

theorem holdings_updateTreat (t : Nat) {change : Treat → Treat} (h : ∀ x, (change x).mark = x.mark) :
    (w.updateTreat t change).holdings = w.holdings := by
  unfold holdings updateTreat
  rw [map_modify_of_eq h]

theorem holdings_hand (i : Nat) {change : Robot → Robot} (hand : Hand) (h : ∀ r, (change r).hand = hand) :
    (w.updateRobot i change).holdings = ⟨w.holdings.hands.set i hand, w.holdings.marks, w.holdings.score⟩ := by
  unfold holdings updateRobot
  rw [map_modify_eq_set fun r _ => h r]

theorem holdings_mark (t : Nat) {change : Treat → Treat} (mark : Mark)
    (h : ∀ x, w.treats[t]? = some x → (change x).mark = mark) :
    (w.updateTreat t change).holdings = ⟨w.holdings.hands, w.holdings.marks.set t mark, w.holdings.score⟩ := by
  unfold holdings updateTreat
  rw [map_modify_eq_set h]

theorem holdings_score (score : Score) :
    { w with score }.holdings = ⟨w.holdings.hands, w.holdings.marks, score⟩ := rfl

/-- The nearest treat in view lies on the field, unless it is the one that was nearest before. -/
theorem nearest_free {r : Robot} {i : Nat} {best : Option Sighting} {treats : List Treat} {s : Sighting}
    (h : nearest r i best treats = some s) :
    best = some s ∨ ∃ j x, s.treat = i + j ∧ treats[j]? = some x ∧ x.isFree = true := by
  induction treats generalizing i best with
  | nil => exact .inl h
  | cons t rest ih =>
    rw [nearest] at h
    rcases ih h with h | ⟨j, x, hj, hx, hfree⟩
    · split at h
      · exact .inl h
      · rename_i ht
        dsimp only at h
        split at h
        · cases h
          exact .inr ⟨0, t, .refl _, .refl _, by simp_all⟩
        · exact .inl h
    · exact .inr ⟨j + 1, x, by omega, hx, hfree⟩

theorem grabbable_free {r : Robot} {t : Nat} (h : w.grabbable r = some t) :
    r.carrying = none ∧ ∃ x, w.treats[t]? = some x ∧ x.isFree = true := by
  unfold grabbable at h
  split at h
  · cases h
  · rename_i hcarrying
    refine ⟨by simpa using hcarrying, ?_⟩
    split at h
    · rename_i s hs
      split at h
      · cases h
      · cases h
        rcases nearest_free hs with hnone | ⟨j, x, hj, hx, hfree⟩
        · cases hnone
        · exact ⟨x, by rw [hj, Nat.zero_add, hx], hfree⟩
    · cases h

theorem holdings_pickUp (i : Nat) : Holdings.Step w.holdings (w.pickUp i).2.holdings := by
  unfold pickUp
  split
  · rename_i r hr
    split
    · rename_i t ht
      obtain ⟨hcarrying, x, hx, hfree⟩ := w.grabbable_free ht
      simp only [Treat.isFree, Bool.and_eq_true, Option.isNone_iff_eq_none, Bool.not_eq_true'] at hfree
      have hhand : w.holdings.hands[i]? = some ⟨none, r.state = .carry⟩ := by
        simp [holdings, Robot.hand, hr, hcarrying]
      have hmark : w.holdings.marks[t]? = some ⟨none, false⟩ := by
        simp [holdings, Treat.mark, hx, hfree]
      dsimp only
      rw [holdings_hand _ i ⟨some t, true⟩ fun _ => rfl, holdings_mark w t ⟨some i, false⟩ ?_]
      · exact .grab hhand hmark
      · intro y hy
        rw [hx, Option.some.injEq] at hy
        rw [← hy, Treat.mark, hfree.2]
    · exact .rest
  · exact .rest

theorem holdings_move (i : Nat) : (w.move i).holdings = w.holdings := by
  unfold move
  split
  · dsimp only
    split
    · exact holdings_updateRobot w i fun _ => rfl
    · split
      · rw [holdings_updateTreat _ _ ?_, holdings_updateRobot w i ?_]
        all_goals exact fun _ => rfl
      · exact holdings_updateRobot w i fun _ => rfl
  · rfl

theorem holdings_advance (i : Nat) : (w.advance i).holdings = w.holdings := by
  refine holdings_updateRobot w i fun r => ?_
  -- Neither of the states that end after a while, nor the one that follows it, is that of carrying.
  unfold Robot.advance
  dsimp only
  split
  · simp_all [Robot.enter, Robot.hand]
  · split
    · simp_all [Robot.enter, Robot.hand]
    · rfl

/-- A robot that is at its goal with a treat scores it for its team. -/
theorem holdings_delivery {i t : Nat} {r : Robot} (hr : w.robots[i]? = some r) (ht : r.carrying = some t)
    (hgoal : w.atGoal r = true) :
    (w.deliver i).holdings =
      ⟨w.holdings.hands.set i ⟨none, false⟩, w.holdings.marks.set t ⟨none, true⟩, w.score.add r.side⟩ := by
  unfold deliver
  rw [hr]
  dsimp only
  rw [ht]
  dsimp only
  rw [if_pos hgoal, holdings_hand _ i ⟨none, false⟩ fun _ => rfl, holdings_score (w.updateTreat t _),
    holdings_mark w t ⟨none, true⟩ fun _ _ => rfl]
  rfl

theorem holdings_carrying {i t : Nat} {r : Robot} (hr : w.robots[i]? = some r) (ht : r.carrying = some t) :
    w.holdings.hands[i]? = some ⟨some t, r.state = .carry⟩ := by
  simp [holdings, Robot.hand, hr, ht]

theorem holdings_deliver (i : Nat) : Holdings.Step w.holdings (w.deliver i).holdings := by
  by_cases hdelivers : ∃ r t, w.robots[i]? = some r ∧ r.carrying = some t ∧ w.atGoal r = true
  · obtain ⟨r, t, hr, ht, hgoal⟩ := hdelivers
    rw [w.holdings_delivery hr ht hgoal]
    exact .drop r.side (w.holdings_carrying hr ht)
  · have hstays : w.deliver i = w := by
      unfold deliver
      split
      · split
        · split
          · exact absurd ⟨_, _, ‹_›, ‹_›, ‹_›⟩ hdelivers
          · rfl
        · rfl
      · rfl
    rw [hstays]
    exact .rest

end World

/-- **An event is a step of the holdings.** -/
theorem Event.holdings (w : World) (e : Event) : Holdings.Step w.holdings (e.apply w).holdings := by
  cases e with
  | pickUp i => exact w.holdings_pickUp i
  | drive i left right =>
    rw [Event.apply, w.holdings_updateRobot i ?_]
    · exact .rest
    · exact fun _ => rfl
  | move i =>
    rw [Event.apply, w.holdings_move]
    exact .rest
  | advance i =>
    rw [Event.apply, w.holdings_advance]
    exact .rest
  | deliver i => exact w.holdings_deliver i

theorem World.Reaches.holdings {w v : World} (h : w.Reaches v) :
    Relation.ReflTransGen Holdings.Step w.holdings v.holdings := by
  induction h with
  | refl => exact .refl
  | tail _ hevent ih =>
    obtain ⟨e, rfl⟩ := hevent
    exact ih.tail (e.holdings _)

end Forager.Arena
