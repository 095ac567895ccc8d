import Forager.Proofs.Arena.Accounting

/-!
# Idle matches

Robots whose programs do nothing never pick up a treat, so there is nothing to deliver.

* `World.Reaches.config` : the sizes of the field stay as they are;
* `step_idle`, `playFrom_idle` : idle programs do not fail, and it stays as it was who holds what;
* `fitness_idle` : the fitness of an idle team is that of one without a treat;
* `playMatch_in_time` : a match that has an outcome has the same without a deadline; `playMatch_later` : one of a single
  step looks at the deadline once.
-/

namespace Forager

set_option autoImplicit false

namespace Deadline

/-- The deadline that comes `n` looks later. -/
def later (d : Deadline) (n : Nat) : Deadline := d.map (· + n)

theorem later_zero (d : Deadline) : d.later 0 = d := by cases d <;> rfl

theorem look_later (d : Deadline) (n : Nat) : (d.later (n + 1)).look = (false, d.later n) := by cases d <;> rfl

end Deadline

namespace Arena

open Program

/-! ## Sizes -/

theorem Event.config (w : World) (e : Event) : (e.apply w).config = w.config := by
  cases e with
  | pickUp i =>
    change (w.pickUp i).2.config = _
    unfold World.pickUp
    split
    · split <;> rfl
    · rfl
  | drive i left right => rfl
  | move i =>
    change (w.move i).config = _
    unfold World.move
    split
    · dsimp only
      split
      · rfl
      · split <;> rfl
    · rfl
  | advance i => rfl
  | deliver i =>
    change (w.deliver i).config = _
    unfold World.deliver
    split
    · split
      · split <;> rfl
      · rfl
    · rfl

theorem World.Reaches.config {w v : World} (h : w.Reaches v) : v.config = w.config := by
  induction h with
  | refl => rfl
  | tail _ hevent ih =>
    obtain ⟨e, rfl⟩ := hevent
    exact (e.config _).trans ih

/-! ## Steps -/

theorem think_idle (w : World) (i : Nat) {robots : List Robot} (h : ∀ r ∈ robots, r.program = .idle) :
    (World.think i robots).run w = (.ok (), w) := by
  induction robots generalizing i with
  | nil => rfl
  | cons r robots ih =>
    rw [List.forall_mem_cons] at h
    rw [World.think, h.1]
    exact ih (i + 1) h.2

namespace World

variable {w : World} {n : Nat}

theorem deliver_fresh (hfresh : w.holdings.Fresh n) (i : Nat) : w.deliver i = w := by
  unfold deliver
  split
  · rename_i r hr
    have hhand : r.hand = ⟨none, false⟩ := hfresh.hand (i := i) (by simp [holdings, hr])
    have hcarrying : r.carrying = none := congrArg Hand.carrying hhand
    rw [hcarrying]
  · rfl

theorem holdings_settle (hfresh : w.holdings.Fresh n) (i : Nat) : (w.settle i).holdings = w.holdings := by
  have hheld : ((w.move i).advance i).holdings = w.holdings := by rw [holdings_advance, holdings_move]
  rw [settle, deliver_fresh (n := n) (hheld ▸ hfresh), hheld]

theorem holdings_foldl_settle (hfresh : w.holdings.Fresh n) (is : List Nat) :
    (is.foldl settle w).holdings = w.holdings := by
  induction is generalizing w with
  | nil => rfl
  | cons i is ih =>
    have hheld := holdings_settle hfresh i
    rw [List.foldl_cons, ih (hheld ▸ hfresh), hheld]

end World

theorem step_idle {w : World} {n : Nat} (hidle : ∀ e ∈ w.programs, e = .idle) (hfresh : w.holdings.Fresh n) :
    ∃ w', World.step.run w = (.ok (), w') ∧ w'.programs = w.programs ∧ w'.holdings = w.holdings := by
  have hrobots : ∀ r ∈ w.robots, r.program = .idle := fun r hr => hidle _ (List.mem_map_of_mem hr)
  refine ⟨(List.range w.robots.length).foldl World.settle w, ?_, World.programs_foldl_settle _ _,
    World.holdings_foldl_settle hfresh _⟩
  unfold World.step
  rw [run_get_bind, run_bind_of_ok (think_idle w 0 hrobots)]
  rfl

/-! ## Matches -/

theorem playFrom_idle (fuel steps : Nat) {w : World} {n : Nat} (deadline : Deadline)
    (hidle : ∀ e ∈ w.programs, e = .idle) (hfresh : w.holdings.Fresh n) :
    (playFrom fuel steps w deadline).world.holdings = w.holdings := by
  induction fuel generalizing steps w deadline with
  | zero => rfl
  | succ fuel ih =>
    rw [playFrom]
    split
    · rfl
    · rcases (if steps % lookInterval = 0 then deadline.look else (false, deadline)) with ⟨passed, deadline'⟩
      dsimp only
      split
      · rfl
      · obtain ⟨w', hrun, hprograms, hheld⟩ := step_idle hidle hfresh
        rw [hrun]
        exact (ih (steps + 1) deadline' (hprograms ▸ hidle) (hheld ▸ hfresh)).trans hheld

theorem Config.withDefaults_treats {c : Config} (h : 0 < c.treats) : c.withDefaults.treats = c.treats :=
  if_neg (Int.not_le.mpr h)

theorem Config.withDefaults_maxSteps {c : Config} (h : 0 < c.maxSteps) : c.withDefaults.maxSteps = c.maxSteps :=
  if_neg (Int.not_le.mpr h)

theorem new_config (c : Config) (team opponent : List Expr) :
    Gives (fun w? => ∀ w, w? = some w → w.config = c) (World.new c team opponent) := by
  refine .bind (.any (placeTreats Chance.unit c)) fun places _ => .pure fun w hw => ?_
  obtain ⟨_, -, rfl⟩ := Option.map_eq_some_iff.mp hw
  rfl

theorem World.penalty_mem (w : World) (side : Side) : w.penalty side ∈ [1, idlePenalty] := by
  unfold penalty
  dsimp only
  split
  · simp
  · split <;> simp

/-- **An idle team has no treat.** -/
theorem fitness_idle {c : Config} {deadline : Deadline} {m : Match} {outcome : Outcome} (htreats : 0 < c.treats)
    (hsteps : 0 < c.maxSteps) (hteam : ∀ e ∈ m.team, e = .idle) (hopponent : ∀ e ∈ m.opponent, e = .idle)
    (h : (playMatch c deadline m).result = .ok outcome) :
    ∃ steps : Nat, 1 ≤ steps ∧ (steps : Int) ≤ c.maxSteps ∧ ∃ penalty ∈ [1, idlePenalty],
      outcome.fitness = fitness 0 0 steps c.treats penalty := by
  obtain ⟨w₀, rest, reason, hnew, rfl, hending, -⟩ := playMatch_ok h
  have hfresh := new_fresh _ _ _ _ w₀ (by rw [hnew])
  have hboth := opponent_forall (P := (· = .idle)) rfl hopponent
  have hidle := new_forall (P := (· = .idle)) rfl c hteam hboth _ w₀ (by rw [hnew])
  have hleft := remaining_new htreats (congrArg Prod.fst hnew)
  have hfirst := playFrom_progress 0 deadline (by omega) hleft hending
  have hmost := (playFrom_steps c.maxSteps.toNat 0 w₀ deadline).2
  have hlast : w₀.Reaches (playFrom c.maxSteps.toNat 0 w₀ deadline).world := playFrom_reaches .rfl _ _ _
  have hscore : (playFrom c.maxSteps.toNat 0 w₀ deadline).world.score = {} :=
    (congrArg Holdings.score (playFrom_idle _ _ _ hidle hfresh)).trans hfresh.score
  have hconfig := hlast.config.trans (new_config _ _ _ _ w₀ (by rw [hnew]))
  generalize playFrom c.maxSteps.toNat 0 w₀ deadline = f at hfirst hmost hscore hconfig ⊢
  refine ⟨f.steps, hfirst, by omega, f.world.penalty .home, f.world.penalty_mem .home, ?_⟩
  unfold Finish.outcome
  dsimp only
  rw [hscore, hconfig]
  rfl

/-! ## Deadlines -/

/-- A match that is not called off goes on as if there was no deadline. -/
theorem playFrom_in_time (fuel steps : Nat) (w : World) (d : Deadline)
    (h : (playFrom fuel steps w d).ending ≠ .canceled) :
    ∃ d', playFrom fuel steps w d = { playFrom fuel steps w .never with deadline := d' } := by
  induction fuel generalizing steps w d with
  | zero => exact ⟨d, rfl⟩
  | succ fuel ih =>
    have hlook : (if steps % lookInterval = 0 then Deadline.never.look else (false, .never)) = (false, .never) := by
      split <;> rfl
    rw [playFrom] at h
    rw [playFrom, playFrom, hlook]
    by_cases hdone : w.remaining = 0
    · rw [if_pos hdone, if_pos hdone]
      exact ⟨d, rfl⟩
    · rw [if_neg hdone] at h
      rw [if_neg hdone, if_neg hdone]
      generalize (if steps % lookInterval = 0 then d.look else (false, d)) = look at h ⊢
      obtain ⟨passed, d'⟩ := look
      cases passed with
      | true => exact absurd rfl h
      | false =>
        simp only [Bool.false_eq_true, if_false] at h ⊢
        generalize World.step.run w = step at h ⊢
        obtain ⟨r, w'⟩ := step
        cases r with
        | ok u => exact ih (steps + 1) w' d' h
        | error e => exact ⟨d', rfl⟩

theorem playMatch_in_time {c : Config} {d : Deadline} {m : Match} {outcome : Outcome}
    (h : (playMatch c d m).result = .ok outcome) : (playMatch c .never m).result = .ok outcome := by
  unfold playMatch at h ⊢
  split at h
  · cases h
  · rename_i hteam
    rw [if_neg hteam]
    dsimp only at h ⊢
    generalize (World.new c m.team (if m.opponent.isEmpty then [.idle] else m.opponent)).run (.ofSeed m.seed) = new
      at h ⊢
    obtain ⟨w?, source⟩ := new
    cases w? with
    | none => cases h
    | some w =>
      have hending : (playFrom c.maxSteps.toNat 0 w d).ending ≠ .canceled := by
        intro hcanceled
        simp only [hcanceled] at h
        cases h
      obtain ⟨d', hplay⟩ := playFrom_in_time c.maxSteps.toNat 0 w d hending
      dsimp only at h ⊢
      rw [hplay] at h
      generalize playFrom c.maxSteps.toNat 0 w .never = f at h ⊢
      obtain ⟨ending, steps, world, deadline⟩ := f
      cases ending with
      | complete => exact h
      | canceled => cases h
      | failed e => cases e <;> exact h

theorem playFrom_later {w : World} (h : w.remaining ≠ 0) (d : Deadline) :
    playFrom 1 0 w (d.later 1) = { playFrom 1 0 w .never with deadline := d } := by
  simp only [playFrom, if_neg h, Nat.zero_mod, if_true, Deadline.look_later, Deadline.later_zero]
  simp only [Deadline.never, Deadline.look, Bool.false_eq_true, if_false]
  rcases World.step.run w with ⟨r, w'⟩
  cases r with
  | ok u => rfl
  | error e => rfl

/-- A match of one step takes one look at the deadline, and goes on as if there was none. -/
theorem playMatch_later {c : Config} {m : Match} {outcome : Outcome} (htreats : 0 < c.treats) (hsteps : c.maxSteps = 1)
    (h : playMatch c .never m = ⟨.ok outcome, .never, []⟩) (d : Deadline) :
    playMatch c (d.later 1) m = ⟨.ok outcome, d, []⟩ := by
  unfold playMatch at h ⊢
  split at h
  · cases h
  · rename_i hteam
    rw [if_neg hteam]
    dsimp only at h ⊢
    rcases hnew : (World.new c m.team (if m.opponent.isEmpty then [.idle] else m.opponent)).run (.ofSeed m.seed) with
      ⟨w?, source⟩
    rw [hnew] at h
    cases w? with
    | none => cases h
    | some w =>
      have hone : c.maxSteps.toNat = 1 := by rw [hsteps]; rfl
      dsimp only at h ⊢
      rw [hone] at h ⊢
      rw [playFrom_later (remaining_new htreats (congrArg Prod.fst hnew))]
      generalize playFrom 1 0 w .never = f at h ⊢
      obtain ⟨ending, steps, world, deadline⟩ := f
      cases ending with
      | complete =>
        cases h
        rfl
      | canceled => cases h
      | failed e => cases e <;> cases h

end Arena

end Forager
