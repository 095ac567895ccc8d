import Forager.Arena.Forage
import Forager.Proofs.Program.Soundness

/-!
# Programs in a match

Nothing that happens in a match changes the programs of the robots, so a match of sound programs is never cut short.

* `World.map_pickUp`, `World.map_advance`, `World.map_deliver` : what does not depend on what a robot is busy with
  stays;
* `World.programs w` : the programs of the robots; `agent_keeps`, `programs_settle` : neither a robot nor the world
  changes them;
* `step_safe` : a step of a world of sound programs does not fail;
* `playMatch_sound` : neither does a match.
-/

namespace Forager.Arena

set_option autoImplicit false

open Program

theorem map_modify_of_eq {α β : Type} {f : α → β} {g : α → α} (h : ∀ x, f (g x) = f x) (xs : List α) (i : Nat) :
    (xs.modify i g).map f = xs.map f := by
  apply List.ext_getElem?
  intro j
  rw [List.getElem?_map, List.getElem?_map, List.getElem?_modify]
  cases xs[j]? with
  | none => rfl
  | some x =>
    by_cases hij : i = j
    · simp [hij, h]
    · simp [hij]

namespace World

section

-- Picking up, waiting and delivering change nothing of a robot but what it is busy with.
variable {β : Type} {f : Robot → β} (h : ∀ r state phase carrying, f { r with state, phase, carrying } = f r)
include h

theorem map_pickUp (w : World) (i : Nat) : (w.pickUp i).2.robots.map f = w.robots.map f := by
  unfold pickUp
  split
  · split
    · exact map_modify_of_eq (fun r => h r .carry 0 _) _ i
    · rfl
  · rfl

theorem map_advance (w : World) (i : Nat) : (w.advance i).robots.map f = w.robots.map f := by
  refine map_modify_of_eq (fun r => ?_) _ i
  unfold Robot.advance
  dsimp only
  split
  · exact h r .uturn 0 r.carrying
  · split
    · exact h r .search 0 r.carrying
    · exact h r r.state (r.phase + 1) r.carrying

theorem map_deliver (w : World) (i : Nat) : (w.deliver i).robots.map f = w.robots.map f := by
  unfold deliver
  split
  · split
    · split
      · exact map_modify_of_eq (fun r => h r .backup 0 none) _ i
      · rfl
    · rfl
  · rfl

end

end World

def World.programs (w : World) : List Expr := w.robots.map (·.program)

namespace World

theorem programs_updateRobot (w : World) (i : Nat) {change : Robot → Robot}
    (h : ∀ r, (change r).program = r.program) : (w.updateRobot i change).programs = w.programs :=
  map_modify_of_eq h w.robots i

theorem programs_pickUp (w : World) (i : Nat) : (w.pickUp i).2.programs = w.programs :=
  map_pickUp (fun _ _ _ _ => rfl) w i

theorem programs_move (w : World) (i : Nat) : (w.move i).programs = w.programs := by
  unfold move
  split
  · rename_i r _
    dsimp only
    split
    · exact programs_updateRobot w i fun _ => rfl
    · split
      · exact programs_updateRobot w i fun _ => rfl
      · exact programs_updateRobot w i fun _ => rfl
  · rfl

theorem programs_advance (w : World) (i : Nat) : (w.advance i).programs = w.programs :=
  map_advance (fun _ _ _ _ => rfl) w i

theorem programs_deliver (w : World) (i : Nat) : (w.deliver i).programs = w.programs :=
  map_deliver (fun _ _ _ _ => rfl) w i

/-- What the world does with a robot changes no program. -/
theorem programs_settle (w : World) (i : Nat) : (w.settle i).programs = w.programs := by
  rw [settle, programs_deliver, programs_advance, programs_move]

theorem programs_foldl_settle (is : List Nat) (w : World) : (is.foldl settle w).programs = w.programs := by
  induction is generalizing w with
  | nil => rfl
  | cons i is ih => rw [List.foldl_cons, ih, programs_settle]

end World

/-- A robot changes no program, whatever it senses and does. -/
theorem agent_keeps (i : Nat) (programs : List Expr) : (agent i).Keeps fun w => w.programs = programs where
  range _ _ h := h
  midpoint _ h := h
  width _ h := h
  inState _ _ h := h
  pickUp w h := (w.programs_pickUp i).trans h
  setSpeed left right w h :=
    (w.programs_updateRobot i fun r => show (r.drive left right).program = r.program from rfl).trans h
  isCarrying _ h := h

/-! ## Steps -/

variable {programs : List Expr} (hprograms : ∀ e ∈ programs, Sound e)

theorem think_safe (i : Nat) (robots : List Robot) (h : ∀ r ∈ robots, Sound r.program) :
    Safe (fun w => w.programs = programs) (fun _ => False) (World.think i robots) := by
  induction robots generalizing i with
  | nil => exact .pure trivial
  | cons r robots ih =>
    rw [List.forall_mem_cons] at h
    exact .bind (h.1.safe (agent_keeps i programs) _) fun _ _ => ih (i + 1) h.2

include hprograms in
/-- A step of a world of sound programs does not fail, and changes no program. -/
theorem step_safe : Safe (fun w => w.programs = programs) (fun _ => False) World.step := by
  intro w r w' hw hrun
  have hrobots : ∀ robot ∈ w.robots, Sound robot.program := fun robot hrobot =>
    hprograms _ (hw ▸ List.mem_map_of_mem hrobot)
  have hrest : Safe (fun w => w.programs = programs) (fun _ => False) (do
      World.think 0 w.robots
      modify fun w => (List.range w.robots.length).foldl World.settle w) :=
    .bind (think_safe 0 w.robots hrobots) fun _ _ =>
      .lift (fun w hw => (World.programs_foldl_settle _ w).trans hw) (.any _)
  exact hrest w r w' hw hrun

include hprograms in
/-- A match of sound programs does not end with an error. -/
theorem playFrom_ending (fuel steps : Nat) (w : World) (deadline : Deadline) (hw : w.programs = programs)
    (e : EvalError) : (playFrom fuel steps w deadline).ending ≠ .failed e := by
  induction fuel generalizing steps w deadline with
  | zero => exact fun h => by cases h
  | succ fuel ih =>
    rw [playFrom]
    split
    · exact fun h => by cases h
    · rcases (if steps % lookInterval = 0 then deadline.look else (false, deadline)) with ⟨passed, deadline'⟩
      dsimp only
      split
      · exact fun h => by cases h
      -- Only a step could fail.
      · obtain ⟨_, w', hrun, hw', -⟩ := (step_safe hprograms).exists_result hw
        rw [hrun]
        exact ih _ w' _ hw'

include hprograms in
/-- A match of sound programs that is never called off is completed. -/
theorem playFrom_never (fuel steps : Nat) (w : World) (hw : w.programs = programs) :
    (playFrom fuel steps w .never).ending = .complete ∧ (playFrom fuel steps w .never).deadline = .never := by
  induction fuel generalizing steps w with
  | zero => exact ⟨rfl, rfl⟩
  | succ fuel ih =>
    have hlook : (if steps % lookInterval = 0 then Deadline.never.look else (false, .never)) = (false, .never) := by
      split <;> rfl
    rw [playFrom, hlook]
    split
    · exact ⟨rfl, rfl⟩
    · obtain ⟨_, w', hrun, hw', -⟩ := (step_safe hprograms).exists_result hw
      simp only [Bool.false_eq_true, if_false, hrun]
      exact ih _ w' hw'

/-! ## Matches -/

section

variable {P : Expr → Prop} (hidle : P .idle)
include hidle

theorem lineup_forall (c : Config) {programs : List Expr} (h : ∀ e ∈ programs, P e) (side : Side) :
    ∀ r ∈ lineup c programs side, P r.program := by
  intro r hr
  obtain ⟨i, -, rfl⟩ := List.mem_map.mp hr
  exact getD_of_forall h hidle _

/-- What holds of the programs of both teams, and of the idle one, holds of those in a new world. -/
theorem new_forall (c : Config) {team opponent : List Expr} (hteam : ∀ e ∈ team, P e)
    (hopponent : ∀ e ∈ opponent, P e) :
    Gives (fun w? => ∀ w, w? = some w → ∀ e ∈ w.programs, P e) (World.new c team opponent) := by
  refine .bind (.any (placeTreats Chance.unit c)) fun places _ => .pure ?_
  intro w hw e he
  obtain ⟨places, -, rfl⟩ := Option.map_eq_some_iff.mp hw
  obtain ⟨r, hr, rfl⟩ := List.mem_map.mp he
  rcases List.mem_append.mp hr with hr | hr
  · exact lineup_forall hidle c hteam .home r hr
  · exact lineup_forall hidle c hopponent .away r hr

theorem opponent_forall {opponent : List Expr} (h : ∀ e ∈ opponent, P e) :
    ∀ e ∈ (if opponent.isEmpty then [.idle] else opponent), P e := by
  split
  · exact List.forall_mem_singleton.mpr hidle
  · exact h

end

/-- **A match of sound programs is never cut short**: it is not aborted, and does not fail because of a program. -/
theorem playMatch_sound (c : Config) (deadline : Deadline) (m : Match) (hteam : ∀ e ∈ m.team, Sound e)
    (hopponent : ∀ e ∈ m.opponent, Sound e) :
    (∀ outcome, (playMatch c deadline m).result = .ok outcome → outcome.aborted = false) ∧
    ∀ e, (playMatch c deadline m).result ≠ .error (.program e) := by
  unfold playMatch
  split
  · exact ⟨fun _ h => (by cases h), fun _ h => (by cases h)⟩
  · dsimp only
    split
    · exact ⟨fun _ h => (by cases h), fun _ h => (by cases h)⟩
    · rename_i w _ hnew
      have hw := new_forall .idle c hteam (opponent_forall .idle hopponent) (.ofSeed m.seed) w (by rw [hnew])
      have hending := playFrom_ending hw c.maxSteps.toNat 0 w deadline rfl
      split
      · refine ⟨fun outcome h => ?_, fun _ h => by cases h⟩
        cases h
        rfl
      · exact ⟨fun _ h => (by cases h), fun _ h => (by cases h)⟩
      · rename_i hfailed
        exact absurd hfailed (hending _)
      · rename_i hfailed
        exact absurd hfailed (hending _)

/-- A single treat always finds room. -/
theorem new_single {c : Config} (h : c.treats = 1) (team opponent : List Expr) :
    Gives (fun w? => ∃ w, w? = some w) (World.new c team opponent) := by
  refine .bind ?_ fun places (hplaces : ∃ ps, places = some ps) => .pure ?_
  · unfold placeTreats
    rw [h]
    exact .bind (.any (candidate Chance.unit c)) fun p _ => .pure ⟨[p], rfl⟩
  · obtain ⟨ps, rfl⟩ := hplaces
    exact ⟨_, rfl⟩

/-- With room for the treats and no deadline, a match of sound programs has an outcome. -/
theorem playMatch_room {c : Config} {m : Match} {w : World} {source : Chance.Source} (hne : m.team ≠ [])
    (hteam : ∀ e ∈ m.team, Sound e) (hopponent : ∀ e ∈ m.opponent, Sound e)
    (hnew : (World.new c m.team (if m.opponent.isEmpty then [.idle] else m.opponent)).run (.ofSeed m.seed) =
      (some w, source)) :
    ∃ outcome, playMatch c .never m = ⟨.ok outcome, .never, []⟩ := by
  have hsound := new_forall .idle c hteam (opponent_forall .idle hopponent) (.ofSeed m.seed) w (by rw [hnew])
  obtain ⟨hending, hdeadline⟩ := playFrom_never hsound c.maxSteps.toNat 0 w rfl
  unfold playMatch
  rw [if_neg (by simpa using hne)]
  dsimp only
  rw [hnew]
  dsimp only
  rw [hending, hdeadline]
  exact ⟨_, rfl⟩

/-- Without room there is none. -/
theorem playMatch_no_room {c : Config} {m : Match} {source : Chance.Source} (deadline : Deadline) (hne : m.team ≠ [])
    (hnew : (World.new c m.team (if m.opponent.isEmpty then [.idle] else m.opponent)).run (.ofSeed m.seed) =
      (none, source)) :
    playMatch c deadline m = ⟨.error (.noRoom c.treats), deadline, []⟩ := by
  unfold playMatch
  rw [if_neg (by simpa using hne)]
  dsimp only
  rw [hnew]

theorem playMatch_never {c : Config} {m : Match} (hne : m.team ≠ []) (hteam : ∀ e ∈ m.team, Sound e)
    (hopponent : ∀ e ∈ m.opponent, Sound e)
    (hroom : ∀ team opponent, Gives (fun w? => ∃ w, w? = some w) (World.new c team opponent)) :
    ∃ outcome, playMatch c .never m = ⟨.ok outcome, .never, []⟩ := by
  have hworld := hroom m.team (if m.opponent.isEmpty then [.idle] else m.opponent) (.ofSeed m.seed)
  obtain ⟨w, hw⟩ := hworld
  exact playMatch_room hne hteam hopponent (Prod.ext hw rfl)

end Forager.Arena
