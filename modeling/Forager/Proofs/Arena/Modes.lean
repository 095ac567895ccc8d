import Forager.Proofs.Arena.Events

/-!
# What robots are busy with

The mode of a robot is its state, how long it has been in it, and the treat it carries. Only three events change it, and
only for the robot they are about: it picks up a treat, it delivers one, or a step passes for it.

* `Change w i m e m'` : in the world `w` the event `e` changes the mode of robot `i` from `m` to `m'`; `Event.mode` :
  nothing else changes a mode;
* `Passage w i e s s'` : a change of state that happens; `Mode.Timed` : backing up and turning do not last longer than
  they should, and to carry a treat is to be in that state;
* `Change.timed` : changes keep modes timed, and those of the state are passages;
* `World.Reaches.timed` : the modes of all robots are timed throughout a match.
-/

namespace Forager.Arena

set_option autoImplicit false

open Program

/-- What a robot is busy with: its state, the steps since it was entered, and the treat being carried. -/
structure Mode where
  state : State
  phase : Nat
  carrying : Option Nat

def Mode.advance (m : Mode) : Mode :=
  if m.state = .backup ∧ backupSteps ≤ m.phase + 1 then ⟨.uturn, 0, m.carrying⟩
  else if m.state = .uturn ∧ uturnSteps ≤ m.phase + 1 then ⟨.search, 0, m.carrying⟩
  else { m with phase := m.phase + 1 }

def Robot.mode (r : Robot) : Mode := ⟨r.state, r.phase, r.carrying⟩

theorem Robot.mode_advance (r : Robot) : r.advance.mode = r.mode.advance := by
  unfold Robot.advance Mode.advance Robot.mode
  simp only [Bool.and_eq_true, decide_eq_true_eq]
  split
  · rfl
  · split <;> rfl

theorem Mode.carrying_advance (m : Mode) : m.advance.carrying = m.carrying := by
  unfold Mode.advance
  split
  · rfl
  · split <;> rfl

namespace World

def mode (w : World) (i : Nat) : Option Mode := w.robots[i]?.map Robot.mode

variable {w : World} {i j : Nat} {m : Mode}

theorem mode_updateRobot (w : World) (j i : Nat) {change : Robot → Robot} (h : ∀ r, (change r).mode = r.mode) :
    (w.updateRobot j change).mode i = w.mode i := by
  unfold mode updateRobot
  rw [← List.getElem?_map, ← List.getElem?_map, map_modify_of_eq h]

theorem mode_updateRobot_ne (w : World) (change : Robot → Robot) (h : j ≠ i) :
    (w.updateRobot j change).mode i = w.mode i := by
  change (w.robots.modify j change)[i]?.map Robot.mode = _
  rw [List.getElem?_modify]
  simp [mode, h]

theorem mode_updateRobot_eq (w : World) {change : Robot → Robot} {r : Robot} (hr : w.robots[i]? = some r) :
    (w.updateRobot i change).mode i = some (change r).mode := by
  change (w.robots.modify i change)[i]?.map Robot.mode = _
  rw [List.getElem?_modify_eq, hr]
  rfl

/-! ## Picking up -/

theorem mode_pickUp_ne (w : World) (h : j ≠ i) : (w.pickUp j).2.mode i = w.mode i := by
  unfold pickUp
  split
  · split
    · exact mode_updateRobot_ne _ _ h
    · rfl
  · rfl

theorem pickUp_of_false (h : (w.pickUp i).1 = false) : (w.pickUp i).2 = w := by
  unfold pickUp at h ⊢
  split
  · rename_i r hr
    rw [hr] at h
    dsimp only at h
    split
    · rename_i t ht
      rw [ht] at h
      cases h
    · rfl
  · rfl

theorem pickUp_of_true (h : (w.pickUp i).1 = true) :
    ∃ m t, w.mode i = some m ∧ m.carrying = none ∧ (w.pickUp i).2.mode i = some ⟨.carry, 0, some t⟩ := by
  unfold pickUp at h ⊢
  split
  · rename_i r hr
    split
    · rename_i t ht
      exact ⟨r.mode, t, by rw [mode, hr]; rfl, (w.grabbable_free ht).1, mode_updateRobot_eq (w.updateTreat t _) hr⟩
    · rename_i hnone
      rw [hr] at h
      dsimp only at h
      rw [hnone] at h
      cases h
  · rename_i hnone
    rw [hnone] at h
    cases h

/-! ## Moving and waiting -/

theorem mode_move (w : World) (j i : Nat) : (w.move j).mode i = w.mode i := by
  unfold move
  split
  · dsimp only
    split
    · exact mode_updateRobot w j i fun _ => rfl
    · split
      · exact mode_updateRobot w j i fun _ => rfl
      · exact mode_updateRobot w j i fun _ => rfl
  · rfl

theorem mode_advance_ne (w : World) (h : j ≠ i) : (w.advance j).mode i = w.mode i := mode_updateRobot_ne w _ h

theorem mode_advance (w : World) (i : Nat) : (w.advance i).mode i = (w.mode i).map Mode.advance := by
  change (w.robots.modify i Robot.advance)[i]?.map Robot.mode = (w.robots[i]?.map Robot.mode).map Mode.advance
  rw [List.getElem?_modify_eq]
  cases w.robots[i]? with
  | none => rfl
  | some r => exact congrArg some r.mode_advance

/-! ## Delivering -/

theorem mode_deliver_ne (w : World) (h : j ≠ i) : (w.deliver j).mode i = w.mode i := by
  unfold deliver
  split
  · split
    · split
      · exact mode_updateRobot_ne _ _ h
      · rfl
    · rfl
  · rfl

theorem score_deliver {r : Robot} {t : Nat} (hr : w.robots[i]? = some r) (hcarrying : r.carrying = some t)
    (hgoal : w.atGoal r = true) : (w.deliver i).score = w.score.add r.side := by
  unfold deliver
  simp only [hr, hcarrying, hgoal, if_true]
  rfl

theorem deliver_of_empty (h : w.mode i = some m) (hcarrying : m.carrying = none) : w.deliver i = w := by
  obtain ⟨r, hr, rfl⟩ := Option.map_eq_some_iff.mp h
  have hnone : r.carrying = none := hcarrying
  unfold deliver
  simp only [hr, hnone]

theorem score_add_ne (s : Score) (side : Side) : s.add side ≠ s := by
  intro h
  cases side with
  | home =>
    have := congrArg Score.home h
    simp [Score.add] at this
  | away =>
    have := congrArg Score.away h
    simp [Score.add] at this

/-- A robot that delivers backs up from then on, and one that does not stays as it is. -/
theorem deliver_cases (w : World) (i : Nat) :
    w.deliver i = w ∨ (w.deliver i).score ≠ w.score ∧
      ∃ m t, w.mode i = some m ∧ m.carrying = some t ∧ (w.deliver i).mode i = some ⟨.backup, 0, none⟩ := by
  unfold deliver
  split
  · rename_i r hr
    split
    · rename_i t ht
      split
      · refine .inr ⟨score_add_ne _ _, r.mode, t, by rw [mode, hr]; rfl, ht, ?_⟩
        exact mode_updateRobot_eq { w.updateTreat t _ with score := w.score.add r.side } hr
      · exact .inl rfl
    · exact .inl rfl
  · exact .inl rfl

end World

/-! ## Changes -/

/-- What changes the mode of robot `i`, and into what. -/
inductive Change (w : World) (i : Nat) (m : Mode) : Event → Mode → Prop
  | grab (t : Nat) : m.carrying = none → (w.pickUp i).1 = true → Change w i m (.pickUp i) ⟨.carry, 0, some t⟩
  | wait : Change w i m (.advance i) m.advance
  | drop (t : Nat) : m.carrying = some t → (w.deliver i).score ≠ w.score →
      Change w i m (.deliver i) ⟨.backup, 0, none⟩

/-- **Nothing else changes what a robot is busy with.** -/
theorem Event.mode (w : World) (e : Event) (i : Nat) :
    (e.apply w).mode i = w.mode i ∨
      ∃ m m', w.mode i = some m ∧ (e.apply w).mode i = some m' ∧ Change w i m e m' := by
  cases e with
  | pickUp j =>
    by_cases hj : j = i
    · subst hj
      cases hdone : (w.pickUp j).1 with
      | false =>
        left
        rw [Event.apply, World.pickUp_of_false hdone]
      | true =>
        obtain ⟨m, t, hm, hnone, hafter⟩ := World.pickUp_of_true hdone
        exact .inr ⟨m, _, hm, hafter, .grab t hnone hdone⟩
    · exact .inl (w.mode_pickUp_ne hj)
  | drive j left right => exact .inl (w.mode_updateRobot j i fun _ => rfl)
  | move j => exact .inl (w.mode_move j i)
  | advance j =>
    by_cases hj : j = i
    · subst hj
      have hafter := w.mode_advance j
      cases hm : w.mode j with
      | none => exact .inl (by rw [Event.apply, hafter, hm]; rfl)
      | some m => exact .inr ⟨m, m.advance, rfl, by rw [Event.apply, hafter, hm]; rfl, .wait⟩
    · exact .inl (w.mode_advance_ne hj)
  | deliver j =>
    by_cases hj : j = i
    · subst hj
      rcases w.deliver_cases j with hsame | ⟨hscore, m, t, hm, hcarrying, hafter⟩
      · exact .inl (congrArg (World.mode · j) hsame)
      · exact .inr ⟨m, _, hm, hafter, .drop t hcarrying hscore⟩
    · exact .inl (w.mode_deliver_ne hj)

/-- The changes of state: picking up a treat makes any other state one of carrying, delivering it one of backing up, and
with time a robot that backs up turns, and one that turns goes on searching. -/
inductive Passage (w : World) (i : Nat) : Event → State → State → Prop
  | grab {s : State} : s ≠ .carry → (w.pickUp i).1 = true → Passage w i (.pickUp i) s .carry
  | drop : (w.deliver i).score ≠ w.score → Passage w i (.deliver i) .carry .backup
  | turn : Passage w i (.advance i) .backup .uturn
  | resume : Passage w i (.advance i) .uturn .search

/-- Backing up and turning do not last longer than they should, and to carry a treat is to be in that state. -/
structure Mode.Timed (m : Mode) : Prop where
  backup : m.state = .backup → m.phase < 20
  uturn : m.state = .uturn → m.phase < 30
  carry : m.state = .carry ↔ m.carrying ≠ none

theorem Mode.Timed.advance {m : Mode} (h : m.Timed) : m.advance.Timed ∧
    (m.advance.state = m.state ∨ m.state = .backup ∧ m.advance.state = .uturn ∨
      m.state = .uturn ∧ m.advance.state = .search) := by
  have hcarry := h.carry
  have hbackup := h.backup
  have huturn := h.uturn
  unfold Mode.advance
  split
  · rename_i hturn
    rw [hturn.1] at hcarry
    refine ⟨⟨nofun, fun _ => Nat.zero_lt_succ _, ⟨nofun, fun hc => ?_⟩⟩, .inr (.inl ⟨hturn.1, rfl⟩)⟩
    cases hcarry.mpr hc
  · split
    · rename_i hresume
      rw [hresume.1] at hcarry
      refine ⟨⟨nofun, nofun, ⟨nofun, fun hc => ?_⟩⟩, .inr (.inr ⟨hresume.1, rfl⟩)⟩
      cases hcarry.mpr hc
    · rename_i hturn hresume
      refine ⟨⟨fun hs => ?_, fun hs => ?_, hcarry⟩, .inl rfl⟩
      · by_contra hlong
        exact hturn ⟨hs, Nat.le_of_not_lt hlong⟩
      · by_contra hlong
        exact hresume ⟨hs, Nat.le_of_not_lt hlong⟩

/-- Changes keep modes timed, and change states in no other way. -/
theorem Change.timed {w : World} {i : Nat} {e : Event} {m m' : Mode} (h : Change w i m e m') (hm : m.Timed) :
    m'.Timed ∧ (m'.state = m.state ∨ Passage w i e m.state m'.state) := by
  cases h with
  | grab t hnone hdone =>
    have hstate : m.state ≠ .carry := fun hs => hm.carry.mp hs hnone
    exact ⟨⟨nofun, nofun, ⟨fun _ => nofun, fun _ => rfl⟩⟩, .inr (.grab hstate hdone)⟩
  | wait =>
    obtain ⟨htimed, hsame | ⟨hfrom, hto⟩ | ⟨hfrom, hto⟩⟩ := hm.advance
    · exact ⟨htimed, .inl hsame⟩
    · rw [hfrom, hto]
      exact ⟨htimed, .inr .turn⟩
    · rw [hfrom, hto]
      exact ⟨htimed, .inr .resume⟩
  | drop t hcarrying hscore =>
    have hstate : m.state = .carry := hm.carry.mpr (by rw [hcarrying]; nofun)
    rw [hstate]
    exact ⟨⟨fun _ => by decide, nofun, ⟨nofun, fun hc => absurd rfl hc⟩⟩, .inr (.drop hscore)⟩

/-! ## Worlds -/

def World.Timed (w : World) : Prop := ∀ i m, w.mode i = some m → m.Timed

theorem Event.timed {w : World} (h : w.Timed) (e : Event) : (e.apply w).Timed := by
  intro i m' hm'
  rcases e.mode w i with hsame | ⟨m, m'', hm, hm'', hchange⟩
  · exact h i m' (hsame ▸ hm')
  · rw [hm'', Option.some.injEq] at hm'
    exact hm' ▸ (hchange.timed (h i m hm)).1

theorem World.Reaches.timed {w v : World} (h : w.Reaches v) (hw : w.Timed) : v.Timed := by
  induction h with
  | refl => exact hw
  | tail _ hevent ih =>
    obtain ⟨e, rfl⟩ := hevent
    exact Event.timed ih e

/-- An event changes the state of a robot by a passage, if at all. -/
theorem Event.passage {w : World} (h : w.Timed) (e : Event) {i : Nat} {r r' : Robot} (hr : w.robots[i]? = some r)
    (hr' : (e.apply w).robots[i]? = some r') : r'.state = r.state ∨ Passage w i e r.state r'.state := by
  have hm : w.mode i = some r.mode := by rw [World.mode, hr]; rfl
  have hm' : (e.apply w).mode i = some r'.mode := by rw [World.mode, hr']; rfl
  rcases e.mode w i with hsame | ⟨m, m', hbefore, hafter, hchange⟩
  · rw [hm, hm', Option.some.injEq] at hsame
    exact .inl (congrArg Mode.state hsame)
  · rw [hm, Option.some.injEq] at hbefore
    rw [hm', Option.some.injEq] at hafter
    subst hbefore hafter
    exact (hchange.timed (h i _ hm)).2

theorem lineup_mode (c : Config) (programs : List Expr) (side : Side) :
    ∀ r ∈ lineup c programs side, r.mode = ⟨.search, 0, none⟩ := by
  intro r hr
  obtain ⟨i, -, rfl⟩ := List.mem_map.mp hr
  rfl

/-- The robots of a new world are searching. -/
theorem new_timed (c : Config) (team opponent : List Expr) :
    Gives (fun w? => ∀ w, w? = some w → w.Timed) (World.new c team opponent) := by
  refine .bind (.any (placeTreats Chance.unit c)) fun places _ => .pure ?_
  intro w hw i m hm
  obtain ⟨places, -, rfl⟩ := Option.map_eq_some_iff.mp hw
  obtain ⟨r, hr, rfl⟩ := Option.map_eq_some_iff.mp hm
  have hmode : r.mode = ⟨.search, 0, none⟩ := by
    rcases List.mem_append.mp (List.mem_of_getElem? hr) with hr | hr
    · exact lineup_mode c team .home r hr
    · exact lineup_mode c opponent .away r hr
  rw [hmode]
  exact ⟨nofun, nofun, ⟨nofun, fun hc => absurd rfl hc⟩⟩

end Forager.Arena
