import Forager.Proofs.Arena.Modes
import Forager.Proofs.Arena.Spacing
import Forager.Proofs.Number.Overflow
import Forager.Proofs.Program.Notes

/-!
# Recovering from a delivery

A robot that delivers a treat backs up for 20 steps and turns for 30, and searches from then on, unless it picks up
another treat meanwhile. Programs run at the beginning of a step and states change at its end, so what counts is what
the program of the robot gets to know in each of the steps that follow.

* `Begins w₀ n w` : step `n` of a match begins in the world `w`; `playFrom_follows` : these are the steps that are
  taken;
* `World.turn w i` : the world in which it is the turn of the program of robot `i`; `World.Shows v i s` : until it
  picks up a treat, this program is shown the state `s`; `shows_iff` : that is the state in which the robot was at the
  beginning of the step;
* `World.PicksUp w i`, `World.Delivers w i` : what robot `i` does in the step that begins in `w`; `step_mode`,
  `step_delivers` : its mode at the beginning of the next step;
* `recovery k` : the mode of a robot `k` whole steps after it delivered; `Begins.recovers` : it is in that mode;
* `recovery_cycle` : the times of all states, and what changes them.
-/

namespace Forager.Arena

set_option autoImplicit false

open Program

/-! ## Steps of a match -/

/-- Whether step `n` of a match from `w₀` on begins in the world `w`. Steps are counted from 1. -/
inductive Begins (w₀ : World) : Nat → World → Prop
  | first : Begins w₀ 1 w₀
  | next {n : Nat} {w v : World} : Begins w₀ n w → World.step.run w = (.ok (), v) → Begins w₀ (n + 1) v

namespace Begins

variable {w₀ w v : World} {n : Nat}

theorem pos (h : Begins w₀ n w) : 0 < n := by cases h <;> omega

theorem unique (h : Begins w₀ n w) (h' : Begins w₀ n v) : w = v := by
  induction h generalizing v with
  | first =>
    cases h' with
    | first => rfl
    | next hpred _ => exact absurd hpred.pos (Nat.lt_irrefl 0)
  | next hpred hstep ih =>
    cases h' with
    | first => exact absurd hpred.pos (Nat.lt_irrefl 0)
    | next hpred' hstep' =>
      rw [ih hpred', hstep', Prod.mk.injEq] at hstep
      exact hstep.2.symm

theorem reaches (h : Begins w₀ n w) : w₀.Reaches w := by
  induction h with
  | first => exact .rfl
  | next _ hstep ih => exact (step_reaches w₀ _ _ _ ih hstep).1

end Begins

/-- Whether a match from `w₀` on took one step after the other: it ended before another step began, or when one
failed. -/
def Finish.Follows (f : Finish) (w₀ : World) : Prop :=
  (∀ e, f.ending ≠ .failed e) ∧ Begins w₀ (f.steps + 1) f.world ∨
    ∃ e w, f.ending = .failed e ∧ Begins w₀ f.steps w ∧ World.step.run w = (.error e, f.world)

theorem playFrom_follows {w₀ w : World} (fuel : Nat) {steps : Nat} (h : Begins w₀ (steps + 1) w) (deadline : Deadline) :
    (playFrom fuel steps w deadline).Follows w₀ := by
  induction fuel generalizing steps w deadline with
  | zero => exact .inl ⟨fun _ hfailed => (by cases hfailed), h⟩
  | succ fuel ih =>
    rw [playFrom]
    split
    · exact .inl ⟨fun _ hfailed => (by cases hfailed), h⟩
    · rcases (if steps % lookInterval = 0 then deadline.look else (false, deadline)) with ⟨passed, deadline'⟩
      dsimp only
      split
      · exact .inl ⟨fun _ hfailed => (by cases hfailed), h⟩
      · rcases hrun : World.step.run w with ⟨r, w'⟩
        cases r with
        | ok u => exact ih (h.next hrun) deadline'
        | error e => exact .inr ⟨e, w, rfl, h, hrun⟩

/-! ## What happens in a step -/

namespace World

/-- The world in which it is the turn of the program of robot `i`, in the step that begins in `w`. There is none if an
earlier program fails. -/
def turn (w : World) (i : Nat) : Option World :=
  match (think 0 (w.robots.take i)).run w with
  | (.ok (), v) => some v
  | (.error _, _) => none

/-- What the program of robot `i` gets to know if it runs in the world `v`. -/
def notes (v : World) (i : Nat) : List Note :=
  match v.robots[i]? with
  | some r => Program.notes (agent i) r.program v
  | none => []

/-- Whether robot `i` picks up a treat in the step that begins in `w`. -/
def PicksUp (w : World) (i : Nat) : Prop := ∃ v, w.turn i = some v ∧ .pickUp true ∈ v.notes i

/-- The world in which robot `i` may deliver, after all programs have run and left the world `v`. -/
def arrival (v : World) (i : Nat) : World := (((List.range i).foldl settle v).move i).advance i

/-- Whether robot `i` delivers a treat in the step that begins in `w`. -/
def Delivers (w : World) (i : Nat) : Prop :=
  ∃ v, (think 0 w.robots).run w = (.ok (), v) ∧ ((v.arrival i).deliver i).score ≠ (v.arrival i).score

/-- Whether robot `i` is in the state `s` in the world `v`, and its program is told so whenever it asks, until it
picks up a treat. -/
structure Shows (v : World) (i : Nat) (s : State) : Prop where
  state : ∃ r, v.robots[i]? = some r ∧ r.state = s
  answers : ∀ before asked answer after,
    v.notes i = before ++ .asked asked answer :: after → .pickUp true ∉ before → answer = decide (s = asked)

end World

/-! ## Turns -/

variable {w v : World} {i j : Nat} {m : Mode}

theorem agent_mode (h : j ≠ i) (m? : Option Mode) : (agent j).Keeps fun w => w.mode i = m? where
  range _ _ hm := hm
  midpoint _ hm := hm
  width _ hm := hm
  inState _ _ hm := hm
  pickUp w hm := (w.mode_pickUp_ne h).trans hm
  setSpeed _ _ w hm := (w.mode_updateRobot_ne _ h).trans hm
  isCarrying _ hm := hm

/-- The programs of other robots do not change the mode of robot `i`. -/
theorem think_mode {robots : List Robot} (h : ∀ k, j ≤ k → k < j + robots.length → k ≠ i) (m? : Option Mode) :
    Safe (fun w => w.mode i = m?) (fun _ => True) (World.think j robots) := by
  induction robots generalizing j with
  | nil => exact .pure trivial
  | cons r robots ih =>
    rw [List.length_cons] at h
    refine .bind (eval_keeps (agent_mode (h j (by omega) (by omega)) m?) r.program) fun _ _ => ih fun k hk hlast => ?_
    exact h k (by omega) (by omega)

theorem think_programs (programs : List Expr) (j : Nat) (robots : List Robot) :
    Safe (fun w => w.programs = programs) (fun _ => True) (World.think j robots) := by
  induction robots generalizing j with
  | nil => exact .pure trivial
  | cons r robots ih => exact .bind (eval_keeps (agent_keeps j programs) r.program) fun _ _ => ih (j + 1)

theorem turn_eq_some : w.turn i = some v ↔ (World.think 0 (w.robots.take i)).run w = (.ok (), v) := by
  unfold World.turn
  rcases (World.think 0 (w.robots.take i)).run w with ⟨⟨e⟩ | ⟨⟨⟩⟩, u⟩
  · exact ⟨nofun, nofun⟩
  · exact ⟨fun h => Option.some.inj h ▸ rfl, fun h => congrArg some (Prod.mk.inj h).2⟩

theorem mode_of_turn (h : w.turn i = some v) : v.mode i = w.mode i := by
  refine (think_mode (fun k _ hk => ?_) (w.mode i) w _ v rfl (turn_eq_some.mp h)).1
  have := List.length_take_le i w.robots
  omega

theorem program_of_turn (h : w.turn i = some v) {r r' : Robot} (hr : w.robots[i]? = some r)
    (hr' : v.robots[i]? = some r') : r'.program = r.program := by
  have hsame : v.programs = w.programs := (think_programs w.programs 0 _ w _ v rfl (turn_eq_some.mp h)).1
  have hget : v.programs[i]? = w.programs[i]? := by rw [hsame]
  unfold World.programs at hget
  rw [List.getElem?_map, List.getElem?_map, hr, hr'] at hget
  exact Option.some.inj hget

/-! ## Notes -/

/-- What holds of a program's notes while it runs: until it picks up a treat, the mode of its robot is `m`, and this is
what it is told. -/
structure Told (i : Nat) (m : Mode) (p : World × List Note) : Prop where
  mode : .pickUp true ∉ p.2 → p.1.mode i = some m
  answers : ∀ before asked answer after,
    p.2 = before ++ .asked asked answer :: after → .pickUp true ∉ before → answer = decide (m.state = asked)

namespace Told

variable {notes : List Note}

theorem silent (h : Told i m (w, notes)) (hmode : v.mode i = w.mode i) : Told i m (v, notes ++ []) := by
  rw [List.append_nil]
  exact ⟨fun hnone => hmode.trans (h.mode hnone), h.answers⟩

theorem note (h : Told i m (w, notes)) {n : Note} (hmode : n ≠ .pickUp true → v.mode i = w.mode i)
    (hanswer : ∀ asked answer, n = .asked asked answer → w.mode i = some m → answer = decide (m.state = asked)) :
    Told i m (v, notes ++ [n]) := by
  refine ⟨fun hnone => ?_, fun before asked answer after heq hnone => ?_⟩
  · rw [List.mem_append, List.mem_singleton, not_or] at hnone
    exact (hmode (Ne.symm hnone.2)).trans (h.mode hnone.1)
  · -- The answer is the one that was noted last, or one of those before.
    rcases List.eq_nil_or_concat after with rfl | ⟨after', last, rfl⟩
    · obtain ⟨rfl, hlast⟩ := List.append_inj' heq rfl
      exact hanswer asked answer (List.singleton_inj.mp hlast) (h.mode hnone)
    · have heq' : notes ++ [n] = (before ++ .asked asked answer :: after') ++ [last] := by simpa using heq
      exact h.answers before asked answer after' (List.append_inj' heq' rfl).1 hnone

end Told

theorem inState_run (h : w.mode i = some m) (s : State) : ((agent i).inState s).run w = (decide (m.state = s), w) := by
  obtain ⟨r, hr, rfl⟩ := Option.map_eq_some_iff.mp h
  change (match w.robots[i]? with | some r => decide (r.state = s) | none => false, w) = _
  rw [hr]
  rfl

/-- Watched from its own robot, a program that has not picked up a treat has not changed the mode, and was told the
truth about it. -/
theorem noting_told (i : Nat) (m : Mode) : (agent i).noting.Keeps (Told i m) where
  range _ _ h := h.silent rfl
  midpoint _ h := h.silent rfl
  width _ h := h.silent rfl
  inState s p h := by
    refine h.note (fun _ => rfl) fun asked answer hnote hmode => ?_
    cases hnote
    exact congrArg Prod.fst (inState_run hmode s)
  pickUp p h := by
    refine h.note (fun hnone => ?_) fun asked answer hnote => by cases hnote
    have hfalse : (p.1.pickUp i).1 = false := by
      cases hdone : (p.1.pickUp i).1 with
      | false => rfl
      | true => exact absurd (congrArg Note.pickUp hdone) hnone
    exact congrArg (World.mode · i) (World.pickUp_of_false hfalse)
  setSpeed _ _ p h := h.silent (p.1.mode_updateRobot i i fun _ => rfl)
  isCarrying p h := by
    refine h.note (fun _ => rfl) fun asked answer hnote hmode => ?_
    cases hnote
    exact congrArg Prod.fst (inState_run hmode .carry)

theorem notes_told {r : Robot} (hr : v.robots[i]? = some r) :
    Told i r.mode (((eval (agent i) r.program).run v).2, v.notes i) := by
  have hstart : Told i r.mode (v, []) := by
    refine ⟨fun _ => by rw [World.mode, hr]; rfl, fun before asked answer after heq => ?_⟩
    cases before <;> cases heq
  have hend := (eval_keeps (noting_told i r.mode) r.program (v, []) _ _ hstart rfl).1
  have hnotes : v.notes i = ((eval (agent i).noting r.program).run (v, [])).2.2 := by
    unfold World.notes
    rw [hr]
    rfl
  rw [hnotes, ← (eval_noting (agent i) r.program v []).2]
  exact hend

/-- What a program is shown is the state in which its robot was at the beginning of the step. -/
theorem shows_iff (hturn : w.turn i = some v) (hm : w.mode i = some m) (s : State) : v.Shows i s ↔ s = m.state := by
  obtain ⟨r, hr, rfl⟩ := Option.map_eq_some_iff.mp ((mode_of_turn hturn).trans hm)
  constructor
  · rintro ⟨⟨r', hr', rfl⟩, -⟩
    rw [hr, Option.some.injEq] at hr'
    rw [← hr']
    rfl
  · rintro rfl
    exact ⟨⟨r, hr, rfl⟩, (notes_told hr).answers⟩

/-! ## Modes after a step -/

theorem think_append (j : Nat) (xs ys : List Robot) :
    World.think j (xs ++ ys) = (do World.think j xs; World.think (j + xs.length) ys) := by
  induction xs generalizing j with
  | nil => rfl
  | cons r xs ih =>
    rw [List.cons_append, World.think, World.think, bind_assoc, List.length_cons]
    refine bind_congr fun _ => ?_
    rw [ih (j + 1), Nat.add_right_comm, Nat.add_assoc]

/-- In a step that does not fail every robot has its turn, and if it does not pick up a treat then, it is in the same
mode after all programs have run. -/
theorem think_keeps_mode (hthink : (World.think 0 w.robots).run w = (.ok (), v)) (hm : w.mode i = some m)
    (hpick : ¬w.PicksUp i) : v.mode i = some m := by
  obtain ⟨r, hr, -⟩ := Option.map_eq_some_iff.mp hm
  obtain ⟨hi, hget⟩ := List.getElem?_eq_some_iff.mp hr
  have hsplit : w.robots = w.robots.take i ++ r :: w.robots.drop (i + 1) := by
    rw [← hget, List.getElem_cons_drop, List.take_append_drop]
  rw [hsplit, think_append, List.length_take_of_le hi.le, Nat.zero_add, World.think] at hthink
  obtain ⟨⟨⟩, u, hbefore, hthink⟩ := run_bind_ok hthink
  obtain ⟨b, u', hrun, hafter⟩ := run_bind_ok hthink
  have hturn : w.turn i = some u := turn_eq_some.mpr hbefore
  have hu : u.mode i = some m := (mode_of_turn hturn).trans hm
  obtain ⟨r', hr', rfl⟩ := Option.map_eq_some_iff.mp hu
  have hprogram := program_of_turn hturn hr hr'
  have htold := notes_told hr'
  rw [hprogram, hrun] at htold
  have hu' : u'.mode i = some r'.mode := htold.mode fun hdone => hpick ⟨u, hturn, hdone⟩
  exact (think_mode (fun k hk _ => by omega) _ u' _ v hu' hafter).1

theorem mode_settle_ne (w : World) (h : j ≠ i) : (w.settle j).mode i = w.mode i := by
  rw [World.settle, World.mode_deliver_ne _ h, World.mode_advance_ne _ h, World.mode_move]

theorem mode_foldl_settle {is : List Nat} (h : i ∉ is) (w : World) : (is.foldl World.settle w).mode i = w.mode i := by
  induction is generalizing w with
  | nil => rfl
  | cons j is ih =>
    rw [List.mem_cons, not_or] at h
    rw [List.foldl_cons, ih h.2, mode_settle_ne w (Ne.symm h.1)]

theorem mode_arrival (v : World) (i : Nat) : (v.arrival i).mode i = (v.mode i).map Mode.advance := by
  rw [World.arrival, World.mode_advance, World.mode_move, mode_foldl_settle (by simp)]

/-- The others change nothing about robot `i` after it has had the chance to deliver. -/
theorem mode_settled {n : Nat} (hi : i < n) (v : World) :
    ((List.range n).foldl World.settle v).mode i = ((v.arrival i).deliver i).mode i := by
  obtain ⟨k, rfl⟩ := Nat.exists_eq_add_of_lt hi
  have hrange : List.range (i + k + 1) = List.range i ++ i :: (List.range k).map fun j => i + (j + 1) := by
    rw [Nat.add_assoc, List.range_add, List.range_succ_eq_map, List.map_cons, List.map_map]
    rfl
  rw [hrange, List.foldl_append, List.foldl_cons, mode_foldl_settle (by simp)]
  rfl

theorem step_ok (h : World.step.run w = (.ok (), v)) :
    ∃ u, (World.think 0 w.robots).run w = (.ok (), u) ∧ v = (List.range u.robots.length).foldl World.settle u := by
  unfold World.step at h
  rw [run_get_bind] at h
  obtain ⟨⟨⟩, u, hthink, hsettle⟩ := run_bind_ok h
  cases hsettle
  exact ⟨u, hthink, rfl⟩

theorem lt_of_mode (h : w.mode i = some m) : i < w.robots.length := by
  obtain ⟨r, hr, -⟩ := Option.map_eq_some_iff.mp h
  exact (List.getElem?_eq_some_iff.mp hr).1

/-- Over a step in which it does not pick up a treat, a robot that carries none lets time pass. -/
theorem step_mode (hstep : World.step.run w = (.ok (), v)) (hm : w.mode i = some m) (hempty : m.carrying = none)
    (hpick : ¬w.PicksUp i) : v.mode i = some m.advance := by
  obtain ⟨u, hthink, rfl⟩ := step_ok hstep
  have hu := think_keeps_mode hthink hm hpick
  have harrival : (u.arrival i).mode i = some m.advance := by rw [mode_arrival, hu]; rfl
  rw [mode_settled (lt_of_mode hu), World.deliver_of_empty harrival (m.carrying_advance.trans hempty), harrival]

/-- A robot that has delivered a treat begins the next step by backing up. -/
theorem step_delivers (hstep : World.step.run w = (.ok (), v)) (h : w.Delivers i) :
    v.mode i = some ⟨.backup, 0, none⟩ := by
  obtain ⟨u, hthink, rfl⟩ := step_ok hstep
  obtain ⟨u', hthink', hscore⟩ := h
  obtain ⟨-, rfl⟩ := Prod.mk.inj (hthink'.symm.trans hthink)
  rcases (u'.arrival i).deliver_cases i with hsame | ⟨-, m, t, hm, -, hafter⟩
  · exact absurd (congrArg World.score hsame) hscore
  · obtain ⟨m₀, hm₀, -⟩ := Option.map_eq_some_iff.mp ((mode_arrival u' i).symm.trans hm)
    rw [mode_settled (lt_of_mode hm₀), hafter]

/-! ## Recovery -/

/-- The mode of a robot `k` whole steps after the one in which it delivered a treat, if it has not picked up another. -/
def recovery (k : Nat) : Mode :=
  if k < 20 then ⟨.backup, k, none⟩ else if k < 50 then ⟨.uturn, k - 20, none⟩ else ⟨.search, k - 50, none⟩

theorem recovery_advance (k : Nat) : (recovery k).advance = recovery (k + 1) := by
  unfold recovery Mode.advance backupSteps uturnSteps
  grind

theorem recovery_carrying (k : Nat) : (recovery k).carrying = none := by
  unfold recovery
  split
  · rfl
  · split <;> rfl

/-- **A robot that has delivered a treat recovers**, step by step. -/
theorem Begins.recovers {w₀ u : World} {d n : Nat} (hd : Begins w₀ d w) (hdeliver : w.Delivers i) (hn : Begins w₀ n u)
    (hlt : d < n) (hpick : ∀ m x, Begins w₀ m x → d < m → m < n → ¬x.PicksUp i) :
    u.mode i = some (recovery (n - d - 1)) := by
  induction hn with
  | first => exact absurd hd.pos (by omega)
  | @next n x u hx hstep ih =>
    rcases Nat.lt_or_eq_of_le (Nat.le_of_lt_succ hlt) with hlater | rfl
    · have hmode := ih hlater fun m y hy hm hmn => hpick m y hy hm (by omega)
      rw [step_mode hstep hmode (recovery_carrying _) (hpick n x hx hlater (Nat.lt_succ_self n)), recovery_advance]
      congr 2
      omega
    · rw [hd.unique hx] at hdeliver
      rw [step_delivers hstep hdeliver, Nat.add_sub_cancel_left, Nat.sub_self]
      rfl

theorem recovery_state {d n : Nat} (h : d < n) : (recovery (n - d - 1)).state =
    if n ≤ d + 20 then .backup else if n ≤ d + 50 then .uturn else .search := by
  unfold recovery
  grind

/-- **The cycle of a delivery.** A match takes one step after the other. In a world that a match leads to, backing up
has lasted for less than 20 steps and turning for less than 30, and the state of a robot changes only when it picks up
a treat, when it delivers the one it carries, and when backing up or turning is over. After a robot has delivered a
treat in step `d`, and as long as it does not pick up another, its program is shown that it backs up in the next 20
steps, that it turns in the 30 after those, and that it searches in all later ones. -/
theorem recovery_cycle :
    (∀ (c : Config) (team opponent : List Expr) (source : Chance.Source) (w₀ : World),
      ((World.new c team opponent).run source).1 = some w₀ → w₀.Timed) ∧
    ∀ w₀ : World, w₀.Timed →
      (∀ fuel deadline, (playFrom fuel 0 w₀ deadline).Follows w₀) ∧
      (Closed w₀.Reaches ∧ ∀ n w, Begins w₀ n w → w₀.Reaches w) ∧
      (∀ w, w₀.Reaches w → ∀ (i : Nat) (r : Robot), w.robots[i]? = some r →
        (r.state = .backup → r.phase < 20) ∧ (r.state = .uturn → r.phase < 30) ∧
        ∀ (e : Event) (r' : Robot), (e.apply w).robots[i]? = some r' →
          r'.state = r.state ∨ Passage w i e r.state r'.state) ∧
      ∀ (d : Nat) (w : World) (i : Nat), Begins w₀ d w → w.Delivers i →
        ∀ (n : Nat) (u : World), Begins w₀ n u → d < n →
          (∀ m x, Begins w₀ m x → d < m → m < n → ¬x.PicksUp i) →
          ∀ v, u.turn i = some v → ∀ s, v.Shows i s ↔
            s = if n ≤ d + 20 then .backup else if n ≤ d + 50 then .uturn else .search := by
  refine ⟨new_timed, fun w₀ htimed => ⟨fun fuel deadline => playFrom_follows fuel .first deadline,
    ⟨closed_reaches w₀, fun _ _ h => h.reaches⟩, fun w hw i r hr => ?_, ?_⟩⟩
  · have hw' := hw.timed htimed
    have hmode := hw' i r.mode (by rw [World.mode, hr]; rfl)
    exact ⟨hmode.backup, hmode.uturn, fun e r' hr' => Event.passage hw' e hr hr'⟩
  · intro d w i hd hdeliver n u hn hlt hpick v hv s
    rw [shows_iff hv (hd.recovers hdeliver hn hlt hpick), recovery_state hlt]

/-- A robot that waits at its goal with a treat in hand and asks whether it backs up, and another one at its start. -/
def homecoming : World where
  config := ⟨220, 150, 1, 100, 1, 100⟩
  robots :=
    [{ side := .home
       program := .node .step [.leaf (.inState .backup)]
       pos := ⟨20, 75⟩
       heading := pi
       state := .carry
       carrying := some 0 },
     { side := .away
       program := .idle
       pos := ⟨132, 75⟩
       heading := pi }]
  treats := [{ pos := ⟨4, 75⟩, carrier := some 0 }]

theorem homecoming_timed : homecoming.Timed := by
  intro i m hm
  obtain ⟨r, hr, rfl⟩ := Option.map_eq_some_iff.mp hm
  rcases List.mem_pair.mp (List.mem_of_getElem? hr) with rfl | rfl
  · exact ⟨nofun, nofun, ⟨fun _ => nofun, fun _ => rfl⟩⟩
  · exact ⟨nofun, nofun, ⟨nofun, fun h => absurd rfl h⟩⟩

/-- The robot does not get away from its goal. The direction it looks in has no value in the logic, but is multiplied by
zero. -/
theorem homecoming_arrival : ∃ r, (homecoming.arrival 0).robots[0]? = some r ∧ r.side = .home ∧ r.carrying = some 0 ∧
    (r.pos.x = 20 ∨ r.pos.x = Number.nan) ∧ (r.pos.y = 75 ∨ r.pos.y = Number.nan) := by
  have hspeed : ((0 : Float) + 0) / 2 = 0 := by decide +kernel
  change ∃ r, ((homecoming.move 0).advance 0).robots[0]? = some r ∧ _
  obtain ⟨r, hr, hx, hy⟩ : ∃ r, homecoming.robots[0]? = some r ∧
      (r.ahead.x = 20 ∨ r.ahead.x = Number.nan) ∧ (r.ahead.y = 75 ∨ r.ahead.y = Number.nan) := by
    refine ⟨_, rfl, ?_⟩
    unfold Robot.ahead Vec.add Vec.scale
    dsimp only
    rw [hspeed]
    exact ⟨Number.add_mul_zero (by decide +kernel) (by decide +kernel) _,
      Number.add_mul_zero (by decide +kernel) (by decide +kernel) _⟩
  by_cases hclear : Clear homecoming.config homecoming.places 0 r.ahead
  · rw [World.move_of_clear hr hclear]
    cases hr
    exact ⟨_, rfl, rfl, rfl, hx, hy⟩
  · rw [World.move_of_blocked hr hclear]
    cases hr
    exact ⟨_, rfl, rfl, rfl, .inl rfl, .inl rfl⟩

theorem homecoming_delivers : homecoming.Delivers 0 := by
  refine ⟨homecoming, rfl, ?_⟩
  have hconfig : (homecoming.arrival 0).config = homecoming.config :=
    (Event.config _ (.advance 0)).trans (Event.config _ (.move 0))
  obtain ⟨r, hr, hside, hcarrying, hx, hy⟩ := homecoming_arrival
  have hgoal : (homecoming.arrival 0).atGoal r = true := by
    unfold World.atGoal Vec.distance Vec.sub
    rw [hconfig, hside]
    rcases hx with hx | hx <;> rcases hy with hy | hy <;> rw [hx, hy] <;> decide +kernel
  rw [World.score_deliver hr hcarrying hgoal]
  exact World.score_add_ne _ _

theorem homecoming_begins (n : Nat) : ∃ w, Begins homecoming (n + 1) w ∧ w.programs = homecoming.programs := by
  have hsound : ∀ e ∈ homecoming.programs, Sound e :=
    List.forall_mem_cons.mpr ⟨⟨rfl, by decide, rfl⟩, List.forall_mem_singleton.mpr .idle⟩
  induction n with
  | zero => exact ⟨homecoming, .first, rfl⟩
  | succ n ih =>
    obtain ⟨w, hw, hprograms⟩ := ih
    obtain ⟨_, v, hstep, hv, -⟩ := (step_safe hsound).exists_result hprograms
    exact ⟨v, hw.next hstep, hv⟩

theorem homecoming_picksUp {n : Nat} {w : World} (h : Begins homecoming n w) : ¬w.PicksUp 0 := by
  obtain ⟨k, rfl⟩ := Nat.exists_eq_add_of_lt h.pos
  rw [Nat.zero_add] at h
  obtain ⟨w', hw', hprograms⟩ := homecoming_begins k
  obtain rfl := h.unique hw'
  rintro ⟨v, hv, hdone⟩
  cases hv
  unfold World.notes at hdone
  split at hdone
  · rename_i r hr
    have hprogram : r.program = .node .step [.leaf (.inState .backup)] := by
      have hget : w.programs[0]? = homecoming.programs[0]? := by rw [hprograms]
      unfold World.programs at hget
      rw [List.getElem?_map, hr] at hget
      exact Option.some.inj hget
    rw [hprogram] at hdone
    cases List.mem_singleton.mp hdone
  · cases hdone

theorem recovery_cycle_homecoming :
    (∃ w, ((World.new contested [.idle] [.leaf .pickUp]).run (.ofSeed 7)).1 = some w ∧ w.Timed) ∧
    homecoming.Timed ∧ homecoming.Delivers 0 ∧
    (∃ w, Begins homecoming 21 w ∧ w.turn 0 = some w ∧ w.Shows 0 .backup) ∧
    (∃ w, Begins homecoming 22 w ∧ w.turn 0 = some w ∧ w.Shows 0 .uturn ∧ ¬w.Shows 0 .backup) ∧
    (∃ w, Begins homecoming 52 w ∧ w.turn 0 = some w ∧ w.Shows 0 .search ∧ ¬w.Shows 0 .uturn) := by
  have hcycle {n : Nat} (hn : 1 < n) {w : World} (hw : Begins homecoming n w) (s : State) :=
    (recovery_cycle.2 homecoming homecoming_timed).2.2.2 1 homecoming 0 .first homecoming_delivers n w hw hn
      (fun _ _ hx _ _ => homecoming_picksUp hx) w rfl s
  obtain ⟨w₀, hnew⟩ := new_single (c := contested) rfl [.idle] [.leaf .pickUp] (.ofSeed 7)
  obtain ⟨w, hw, -⟩ := homecoming_begins 20
  obtain ⟨v, hv, -⟩ := homecoming_begins 21
  obtain ⟨u, hu, -⟩ := homecoming_begins 51
  refine ⟨⟨w₀, hnew, recovery_cycle.1 _ _ _ _ w₀ hnew⟩, homecoming_timed, homecoming_delivers, ⟨w, hw, rfl, ?_⟩,
    ⟨v, hv, rfl, ?_, ?_⟩, ⟨u, hu, rfl, ?_, ?_⟩⟩
  · exact (hcycle (by decide) hw _).mpr rfl
  · exact (hcycle (by decide) hv _).mpr rfl
  · exact fun h => absurd ((hcycle (by decide) hv _).mp h) (by decide)
  · exact (hcycle (by decide) hu _).mpr rfl
  · exact fun h => absurd ((hcycle (by decide) hu _).mp h) (by decide)

end Forager.Arena
