import Forager.Proofs.Arena.Ownership

/-!
# The accounts of a match

Every treat is either left or was scored, once and for one team.

* `World.Records` : the ledger of the treats that were scored, and for whom; `World.Balanced` : the treats scored and
  those left are all the treats;
* `playFrom_steps`, `playFrom_progress`, `playFrom_complete` : how many steps a match takes, and why it is complete;
* `score_accounted` : the accounts of every match that has a result.
-/

namespace Forager.Arena

set_option autoImplicit false

open Program

/-! ## Accounts of a world -/

namespace World

/-- The treats of the ledger, each scored once and for one team, are those that were scored, and make up the score. -/
structure Records (w : World) (ledger : List (Nat × Side)) : Prop where
  once : (ledger.map (·.1)).Nodup
  scored : ∀ t : Nat, w.Scored t ↔ t ∈ ledger.map (·.1)
  home : w.score.home = ledger.countP (·.2 = .home)
  away : w.score.away = ledger.countP (·.2 = .away)

/-- Of `n` treats, as many were scored as the score says, and the others are left. -/
structure Balanced (n : Int) (w : World) : Prop where
  total : w.score.home + w.score.away = w.treats.countP (·.scored)
  all : (w.score.home + w.score.away + w.remaining : Int) = n

variable {w v : World}

theorem records_iff {ledger : List (Nat × Side)} : w.Records ledger ↔ w.holdings.Records ledger :=
  ⟨fun h => ⟨h.once, fun t => by rw [marks_scored, h.scored], h.home, h.away⟩,
    fun h => ⟨h.once, fun t => by rw [← marks_scored, h.scored], h.home, h.away⟩⟩

/-- A delivery is entered in the ledger: the treat that was carried, for the team of the robot. -/
theorem Records.deliver {ledger : List (Nat × Side)} (h : w.Records ledger) (ho : w.holdings.Owned) {i t : Nat}
    {r : Robot} (hr : w.robots[i]? = some r) (ht : r.carrying = some t) (hgoal : w.atGoal r = true) :
    (w.deliver i).Records (ledger ++ [(t, r.side)]) := by
  rw [records_iff, w.holdings_delivery hr ht hgoal]
  exact (records_iff.mp h).drop ho r.side _ (w.holdings_carrying hr ht)

theorem Balanced.of_holdings {n : Nat} (h : w.holdings.Balanced n) : w.Balanced n := by
  have htotal : w.score.home + w.score.away = w.treats.countP (·.scored) := by
    refine h.total.trans ?_
    unfold holdings
    rw [List.countP_map]
    rfl
  have hlength : w.treats.length = n := (List.length_map _).symm.trans h.length
  refine ⟨htotal, ?_⟩
  have hparts : w.treats.length = w.treats.countP (·.scored) + w.treats.countP fun t => decide ¬t.scored = true :=
    List.length_eq_countP_add_countP _
  have hremaining : w.remaining = w.treats.countP fun t => !t.scored := List.countP_eq_length_filter.symm
  simp only [Bool.not_eq_true, Bool.decide_eq_false] at hparts
  omega

theorem Records.mono {ledger more : List (Nat × Side)} (hw : w.Records ledger) (hv : v.Records (ledger ++ more)) :
    w.score.home ≤ v.score.home ∧ w.score.away ≤ v.score.away ∧ ∀ t, w.Scored t → v.Scored t := by
  refine ⟨?_, ?_, fun t ht => ?_⟩
  · rw [hw.home, hv.home, List.countP_append]
    exact Nat.le_add_right _ _
  · rw [hw.away, hv.away, List.countP_append]
    exact Nat.le_add_right _ _
  · rw [hw.scored] at ht
    rw [hv.scored, List.map_append]
    exact List.mem_append_left _ ht

section

variable {w₀ : World}

theorem Reaches.balanced {n : Int} (hn : 0 ≤ n) (hfresh : w₀.holdings.Fresh n.toNat) (h : w₀.Reaches w) :
    w.Balanced n := by
  have hbalanced := Balanced.of_holdings (hfresh.balanced.steps hfresh.owned h.holdings)
  rwa [Int.toNat_of_nonneg hn] at hbalanced

theorem Reaches.ledger {n : Nat} (hfresh : w₀.holdings.Fresh n) (h : w₀.Reaches w) :
    ∃ ledger, w.Records ledger ∧ ∀ v, w.Reaches v → ∃ more, v.Records (ledger ++ more) := by
  obtain ⟨ledger, hledger, hlater⟩ := h.records hfresh
  refine ⟨ledger, records_iff.mpr hledger, fun v hv => ?_⟩
  obtain ⟨more, hmore⟩ := hlater v hv
  exact ⟨more, records_iff.mpr hmore⟩

end

end World

/-! ## Steps of a match -/

/-- What is left of `playFrom` after its look at the deadline. -/
theorem playFrom_succ (fuel steps : Nat) (w : World) (deadline : Deadline) : ∃ deadline',
    playFrom (fuel + 1) steps w deadline = ⟨.complete, steps, w, deadline'⟩ ∧ w.remaining = 0 ∨
    playFrom (fuel + 1) steps w deadline = ⟨.canceled, steps, w, deadline'⟩ ∧ w.remaining ≠ 0 ∨
    (∃ w', playFrom (fuel + 1) steps w deadline = playFrom fuel (steps + 1) w' deadline') ∨
    ∃ e w', playFrom (fuel + 1) steps w deadline = ⟨.failed e, steps + 1, w', deadline'⟩ := by
  rw [playFrom]
  split
  · rename_i hdone
    exact ⟨deadline, .inl ⟨rfl, hdone⟩⟩
  · rename_i hleft
    rcases (if steps % lookInterval = 0 then deadline.look else (false, deadline)) with ⟨passed, deadline'⟩
    refine ⟨deadline', .inr ?_⟩
    dsimp only
    split
    · exact .inl ⟨rfl, hleft⟩
    · rcases World.step.run w with ⟨r, w'⟩
      cases r with
      | ok u => exact .inr (.inl ⟨w', rfl⟩)
      | error e => exact .inr (.inr ⟨e, w', rfl⟩)

theorem playFrom_steps (fuel steps : Nat) (w : World) (deadline : Deadline) :
    steps ≤ (playFrom fuel steps w deadline).steps ∧ (playFrom fuel steps w deadline).steps ≤ steps + fuel := by
  induction fuel generalizing steps w deadline with
  | zero => exact ⟨Nat.le_refl _, Nat.le_refl _⟩
  | succ fuel ih =>
    obtain ⟨deadline', ⟨h, -⟩ | ⟨h, -⟩ | ⟨w', h⟩ | ⟨e, w', h⟩⟩ := playFrom_succ fuel steps w deadline
    · rw [h]
      dsimp only
      omega
    · rw [h]
      dsimp only
      omega
    · rw [h]
      have := ih (steps + 1) w' deadline'
      omega
    · rw [h]
      dsimp only
      omega

/-- A match that is not called off takes a step, if there is a treat left. -/
theorem playFrom_progress {fuel : Nat} (steps : Nat) {w : World} (deadline : Deadline) (hfuel : 0 < fuel)
    (hleft : w.remaining ≠ 0) (h : (playFrom fuel steps w deadline).ending ≠ .canceled) :
    steps < (playFrom fuel steps w deadline).steps := by
  cases fuel with
  | zero => omega
  | succ fuel =>
    obtain ⟨deadline', ⟨-, hdone⟩ | ⟨hc, -⟩ | ⟨w', hnext⟩ | ⟨e, w', hfailed⟩⟩ := playFrom_succ fuel steps w deadline
    · exact absurd hdone hleft
    · rw [hc] at h
      exact absurd rfl h
    · rw [hnext]
      exact (playFrom_steps fuel (steps + 1) w' deadline').1
    · rw [hfailed]
      exact Nat.lt_succ_self steps

/-- A match is complete when its time is up or no treat is left. -/
theorem playFrom_complete (fuel steps : Nat) (w : World) (deadline : Deadline)
    (h : (playFrom fuel steps w deadline).ending = .complete) :
    (playFrom fuel steps w deadline).steps = steps + fuel ∨ (playFrom fuel steps w deadline).world.remaining = 0 := by
  induction fuel generalizing steps w deadline with
  | zero => exact .inl rfl
  | succ fuel ih =>
    obtain ⟨deadline', ⟨heq, hdone⟩ | ⟨heq, -⟩ | ⟨w', heq⟩ | ⟨e, w', heq⟩⟩ := playFrom_succ fuel steps w deadline
    · rw [heq]
      exact .inr hdone
    · rw [heq] at h
      cases h
    · rw [heq] at h ⊢
      rcases ih (steps + 1) w' deadline' h with hsteps | hdone
      · exact .inl (by omega)
      · exact .inr hdone
    · rw [heq] at h
      cases h

/-! ## Matches -/

theorem Config.withDefaults_pos (c : Config) : 0 < c.withDefaults.treats ∧ 0 < c.withDefaults.maxSteps := by
  unfold Config.withDefaults Config.standard
  dsimp only
  constructor
  · split <;> omega
  · split <;> omega

theorem remaining_new {c : Config} (htreats : 0 < c.treats) {team opponent : List Expr} {source : Chance.Source}
    {w : World} (h : ((World.new c team opponent).run source).1 = some w) : w.remaining ≠ 0 := by
  have hfresh := new_fresh _ _ _ _ w h
  have hall := (World.Reaches.rfl.balanced (by omega) hfresh : w.Balanced c.treats).all
  have hscore : w.score = {} := hfresh.score
  rw [hscore] at hall
  dsimp only at hall
  omega

/-- A match that has a result was played to its end or up to an error. -/
theorem playMatch_ok {c : Config} {deadline : Deadline} {m : Match} {outcome : Outcome}
    (h : (playMatch c deadline m).result = .ok outcome) :
    ∃ w₀ rest reason,
      (World.new c m.team (if m.opponent.isEmpty then [.idle] else m.opponent)).run (.ofSeed m.seed) = (some w₀, rest) ∧
      outcome = (playFrom c.maxSteps.toNat 0 w₀ deadline).outcome reason ∧
      (playFrom c.maxSteps.toNat 0 w₀ deadline).ending ≠ .canceled ∧
      (reason = none → (playFrom c.maxSteps.toNat 0 w₀ deadline).ending = .complete) := by
  unfold playMatch at h
  split at h
  · cases h
  · dsimp only at h
    split at h
    · cases h
    · rename_i w₀ rest hnew
      split at h
      · rename_i hending
        cases h
        exact ⟨w₀, rest, none, hnew, rfl, by simp [hending], fun _ => hending⟩
      · cases h
      · rename_i e hending
        cases h
        exact ⟨w₀, rest, some e.message, hnew, rfl, by simp [hending], fun hreason => by cases hreason⟩
      · cases h

/-- **The score of a match is accounted for.** In every world that a match with a result leads to, the treats scored and
those left are all the treats; each of those scored raised the score of one team, once; and what was scored stays so. A
robot that is at its goal with a treat adds that treat to the ledger, for its team. In the world in which the match
stopped, it has taken a step and no more than it may, and if it was not cut short, its time is up or all the treats were
scored. -/
theorem score_accounted (c : Config) (before : Nat) (deadline : Deadline) (m : Match) (outcome : Outcome)
    (h : ((forage c).play before deadline m).result = .ok outcome) :
    ∃ w₀ rest,
      (World.new c.withDefaults m.team (if m.opponent.isEmpty then [.idle] else m.opponent)).run (.ofSeed m.seed) =
        (some w₀, rest) ∧
      Closed w₀.Reaches ∧
      (∀ w, w₀.Reaches w → w.Balanced c.withDefaults.treats ∧
        ∃ ledger, w.Records ledger ∧ (∀ v, w.Reaches v → ∃ more, v.Records (ledger ++ more)) ∧
          ∀ i r t, w.robots[i]? = some r → r.carrying = some t → w.atGoal r = true →
            (w.deliver i).Records (ledger ++ [(t, r.side)])) ∧
      (∀ w v, w₀.Reaches w → w.Reaches v →
        w.score.home ≤ v.score.home ∧ w.score.away ≤ v.score.away ∧ ∀ t, w.Scored t → v.Scored t) ∧
      ∃ last report, (playFrom c.withDefaults.maxSteps.toNat 0 w₀ deadline).world = last ∧ w₀.Reaches last ∧
        outcome.report = some report ∧
        (playFrom c.withDefaults.maxSteps.toNat 0 w₀ deadline).steps = report.steps ∧
        report.score = last.score.home ∧ report.opponentScore = last.score.away ∧
        1 ≤ report.steps ∧ (report.steps : Int) ≤ c.withDefaults.maxSteps ∧
        (report.score + report.opponentScore : Int) ≤ c.withDefaults.treats ∧
        (outcome.aborted = false → (report.steps : Int) = c.withDefaults.maxSteps ∨
          (report.score + report.opponentScore : Int) = c.withDefaults.treats) := by
  obtain ⟨w₀, rest, reason, hnew, rfl, hending, hcomplete⟩ := playMatch_ok h
  obtain ⟨htreats, hsteps⟩ := c.withDefaults_pos
  have hfresh := new_fresh _ _ _ _ w₀ (by rw [hnew])
  have hbalanced : ∀ w, w₀.Reaches w → w.Balanced c.withDefaults.treats := fun w hw =>
    hw.balanced (by omega) hfresh
  refine ⟨w₀, rest, hnew, closed_reaches w₀, fun w hw => ⟨hbalanced w hw, ?_⟩, fun w v hw hv => ?_, ?_⟩
  · obtain ⟨ledger, hledger, hlater⟩ := hw.ledger hfresh
    have howned := hfresh.owned.steps hw.holdings
    exact ⟨ledger, hledger, hlater, fun i r t hr ht hgoal => hledger.deliver howned hr ht hgoal⟩
  · obtain ⟨ledger, hledger, hlater⟩ := hw.ledger hfresh
    obtain ⟨more, hmore⟩ := hlater v hv
    exact hledger.mono hmore
  · have hlast : w₀.Reaches (playFrom c.withDefaults.maxSteps.toNat 0 w₀ deadline).world :=
      playFrom_reaches .rfl _ _ _
    have hend := (hbalanced _ hlast).all
    have hfirst := playFrom_progress 0 deadline (by omega) (remaining_new htreats (congrArg Prod.fst hnew)) hending
    have hmost := (playFrom_steps c.withDefaults.maxSteps.toNat 0 w₀ deadline).2
    refine ⟨_, _, rfl, hlast, rfl, rfl, rfl, rfl, hfirst, ?_, ?_, fun haborted => ?_⟩
    · dsimp only
      omega
    · dsimp only
      omega
    · cases reason with
      | some text => cases haborted
      | none =>
        dsimp only
        rcases playFrom_complete _ _ _ _ (hcomplete rfl) with hup | hdone
        · exact .inl (by omega)
        · exact .inr (by omega)

/-- A program that turns towards the treat it sees, and picks one up when it has none. -/
def gatherer : Expr :=
  .node .step [
    .node .branch [
      .node (.comparison .lt) [.leaf .getMidpoint, .leaf (.literal 0)],
      .leaf (.setSpeed 2 1),
      .leaf (.setSpeed 1 2)],
    .node .all [.node .negation [.leaf .isCarrying], .leaf .pickUp]]

/-- The standard field with three treats for two teams of three. -/
def harvest : Config := { treats := 3, maxSteps := 400 }

/-- A match of gatherers against gatherers and one robot that stands still. -/
def gathering : Match := ⟨[gatherer], [gatherer, .idle, gatherer], 7⟩

theorem gathering_room : ∃ w rest,
    (World.new harvest.withDefaults gathering.team gathering.opponent).run (.ofSeed gathering.seed) =
      (some w, rest) := by
  have hroom : ((World.new harvest.withDefaults gathering.team gathering.opponent).run
      (.ofSeed gathering.seed)).1.isSome = true := by
    decide +kernel
  revert hroom
  rcases (World.new harvest.withDefaults gathering.team gathering.opponent).run (.ofSeed gathering.seed)
    with ⟨_ | w, rest⟩
  · exact nofun
  · exact fun _ => ⟨w, rest, rfl⟩

theorem gathering_sound : (∀ e ∈ gathering.team, Sound e) ∧ ∀ e ∈ gathering.opponent, Sound e := by
  have hgatherer : Sound gatherer := ⟨rfl, by decide +kernel, by decide +kernel⟩
  refine ⟨List.forall_mem_singleton.mpr hgatherer, fun e he => ?_⟩
  rcases List.mem_cons.mp he with rfl | he
  · exact hgatherer
  · rcases List.mem_pair.mp he with rfl | rfl
    · exact .idle
    · exact hgatherer

-- Which of the treats are picked up depends on sines and arctangents, which have no values in the logic.
theorem score_accounted_gathering :
    ∃ outcome, ((forage harvest).play 0 .never gathering).result = .ok outcome ∧ ∃ w₀ rest,
      (World.new harvest.withDefaults gathering.team gathering.opponent).run (.ofSeed gathering.seed) =
        (some w₀, rest) ∧
      ∃ report ledger, outcome.report = some report ∧
        (playFrom 400 0 w₀ .never).world.Records ledger ∧ (playFrom 400 0 w₀ .never).steps = report.steps ∧
        report.score = ledger.countP (·.2 = .home) ∧ report.opponentScore = ledger.countP (·.2 = .away) ∧
        1 ≤ report.steps ∧ (report.steps : Int) ≤ 400 ∧ (report.score + report.opponentScore : Int) ≤ 3 := by
  obtain ⟨w, rest, hroom⟩ := gathering_room
  obtain ⟨outcome, hplay⟩ :=
    playMatch_room (m := gathering) (List.cons_ne_nil _ _) gathering_sound.1 gathering_sound.2 hroom
  have hresult : ((forage harvest).play 0 .never gathering).result = .ok outcome := congrArg Reply.result hplay
  obtain ⟨w₀, rest, hnew, -, hledger, -, _, report, rfl, hlast, hreport, hsteps, hhome, haway, hfirst, hmost, hscore,
    -⟩ := score_accounted harvest 0 .never gathering outcome hresult
  obtain ⟨-, ledger, hrecords, -⟩ := hledger _ hlast
  refine ⟨outcome, hresult, w₀, rest, hnew, report, ledger, hreport, hrecords, hsteps, ?_, ?_, hfirst, hmost, hscore⟩
  · rw [hhome, hrecords.home]
  · rw [haway, hrecords.away]

end Forager.Arena
