import Mathlib.Data.List.Basic
import Mathlib.Logic.Relation
import Mathlib.Tactic.Common
import Forager.Arena.World

/-!
# Who holds what

Of a world in which treats are collected, this keeps what matters for their possession: the treat that each robot
carries and whether it is in the state of carrying, the carrier of each treat and whether it was scored, and the score.

* `Step h h'` : nothing changes hands, a robot grabs a free treat, or it drops the one it carries into its goal;
* `Owned h` : robots and treats agree on who carries what; `Owned.step` : steps keep that, since they relink a robot
  and a treat that have nobody else (`Owned.relink`);
* `Records h ledger` : the treats in the ledger, each with the team that scored it, make up the score; `Records.step` :
  a step adds at most one entry;
* `Balanced n h` : there are `n` treats, and as many were scored as the score says; `Balanced.step` : steps keep that;
* `Fresh n h` : all this at the start, where nobody holds anything.
-/

namespace Forager.Arena

set_option autoImplicit false

/-- A robot's part: the treat it carries, and whether it is in the state of carrying. -/
structure Hand where
  carrying : Option Nat
  inCarry : Bool

/-- A treat's part: the robot that carries it, and whether it was scored. -/
structure Mark where
  carrier : Option Nat
  scored : Bool

/-- Who holds what, and the score. -/
structure Holdings where
  hands : List Hand
  marks : List Mark
  score : Score

namespace Holdings

/-- What can happen to the holdings. -/
inductive Step (h : Holdings) : Holdings → Prop where
  | rest : Step h h
  | grab {i t : Nat} {state : Bool} (hi : h.hands[i]? = some ⟨none, state⟩) (ht : h.marks[t]? = some ⟨none, false⟩) :
      Step h ⟨h.hands.set i ⟨some t, true⟩, h.marks.set t ⟨some i, false⟩, h.score⟩
  | drop {i t : Nat} {state : Bool} (side : Side) (hi : h.hands[i]? = some ⟨some t, state⟩) :
      Step h ⟨h.hands.set i ⟨none, false⟩, h.marks.set t ⟨none, true⟩, h.score.add side⟩

/-! ## Ownership -/

/-- Robots and treats agree on who carries what, scored treats have no carrier, and robots that carry are in the state
of carrying. -/
structure Owned (h : Holdings) : Prop where
  carrier_iff : ∀ i t : Nat,
    h.hands[i]?.map (·.carrying) = some (some t) ↔ h.marks[t]?.map (·.carrier) = some (some i)
  scored : ∀ (t : Nat) (carrier : Option Nat), h.marks[t]? = some ⟨carrier, true⟩ → carrier = none
  state : ∀ (i : Nat) (hand : Hand), h.hands[i]? = some hand → hand.inCarry = hand.carrying.isSome

variable {h h' : Holdings}

theorem Owned.mark (ho : h.Owned) {i t : Nat} {state : Bool} (hi : h.hands[i]? = some ⟨some t, state⟩) :
    h.marks[t]? = some ⟨some i, false⟩ := by
  have hcarrier := (ho.carrier_iff i t).mp (by rw [hi]; rfl)
  obtain ⟨⟨carrier, scored⟩, hmark, hc⟩ := Option.map_eq_some_iff.mp hcarrier
  cases hc
  cases scored with
  | false => exact hmark
  | true => cases ho.scored t _ hmark

/-- A robot and a treat that have nobody but each other may be linked or parted. -/
theorem Owned.relink (ho : h.Owned) {i t : Nat} {old hand : Hand} {was mark : Mark} (score : Score)
    (hi : h.hands[i]? = some old) (ht : h.marks[t]? = some was)
    (hbefore : old.carrying = none ∧ was.carrier = none ∨ old.carrying = some t ∧ was.carrier = some i)
    (hafter : hand.carrying = none ∧ mark.carrier = none ∨ hand.carrying = some t ∧ mark.carrier = some i)
    (hscored : mark.scored = true → mark.carrier = none) (hstate : hand.inCarry = hand.carrying.isSome) :
    Owned ⟨h.hands.set i hand, h.marks.set t mark, score⟩ := by
  refine ⟨fun j u => ?_, fun u carrier hu => ?_, fun j other hj => ?_⟩
  · have hlink := ho.carrier_iff j u
    dsimp only
    rw [List.getElem?_set', List.getElem?_set']
    by_cases hj : i = j
    · subst hj
      rw [hi] at hlink ⊢
      by_cases hu : t = u
      · subst hu
        rw [ht]
        rcases hafter with ⟨hhand, hmark⟩ | ⟨hhand, hmark⟩
        · simp [hhand, hmark]
        · simp [hhand, hmark]
      -- Another treat is not carried by this robot, neither before nor after.
      · grind
    · by_cases hu : t = u
      · subst hu
        rw [ht] at hlink ⊢
        grind
      · rw [if_neg hj, if_neg hu]
        exact hlink
  · dsimp only at hu
    rw [List.getElem?_set'] at hu
    by_cases htu : t = u
    · grind
    · rw [if_neg htu] at hu
      exact ho.scored u carrier hu
  · dsimp only at hj
    rw [List.getElem?_set'] at hj
    by_cases hij : i = j
    · grind
    · rw [if_neg hij] at hj
      exact ho.state j other hj

theorem Owned.step (ho : h.Owned) (hstep : Step h h') : h'.Owned := by
  cases hstep with
  | rest => exact ho
  | grab hi ht => exact ho.relink _ hi ht (.inl ⟨rfl, rfl⟩) (.inr ⟨rfl, rfl⟩) (fun hscored => by cases hscored) rfl
  | drop side hi => exact ho.relink _ hi (ho.mark hi) (.inr ⟨rfl, rfl⟩) (.inl ⟨rfl, rfl⟩) (fun _ => rfl) rfl

/-! ## The score -/

/-- The treats of the ledger, each scored once and for one team, are those that were scored, and make up the score. -/
structure Records (h : Holdings) (ledger : List (Nat × Side)) : Prop where
  once : (ledger.map (·.1)).Nodup
  scored : ∀ t : Nat, h.marks[t]?.map (·.scored) = some true ↔ t ∈ ledger.map (·.1)
  home : h.score.home = ledger.countP (·.2 = .home)
  away : h.score.away = ledger.countP (·.2 = .away)

/-- There are `n` treats, of which as many were scored as the score says. -/
structure Balanced (n : Nat) (h : Holdings) : Prop where
  length : h.marks.length = n
  total : h.score.home + h.score.away = h.marks.countP (·.scored)

/-- A carried treat that is scored is entered in the ledger, for the team that scored it. -/
theorem Records.drop {ledger : List (Nat × Side)} (hr : h.Records ledger) (ho : h.Owned) {i t : Nat} {state : Bool}
    (side : Side) (hand : Hand) (hi : h.hands[i]? = some ⟨some t, state⟩) :
    Records ⟨h.hands.set i hand, h.marks.set t ⟨none, true⟩, h.score.add side⟩ (ledger ++ [(t, side)]) := by
  -- The treat was carried, so it was not in the ledger yet.
  have ht := ho.mark hi
  have hfresh : t ∉ ledger.map (·.1) := by
    rw [← hr.scored t, ht]
    simp
  refine ⟨?_, fun u => ?_, ?_, ?_⟩
  · rw [List.map_append, List.nodup_append]
    refine ⟨hr.once, List.pairwise_singleton _ t, fun u hu v hv huv => ?_⟩
    obtain rfl : v = t := List.mem_singleton.mp hv
    exact hfresh (huv ▸ hu)
  · have := hr.scored u
    simp only [List.getElem?_set', List.map_append, List.mem_append]
    grind
  · rw [List.countP_append, ← hr.home]
    cases side <;> rfl
  · rw [List.countP_append, ← hr.away]
    cases side <;> rfl

theorem Records.step {ledger : List (Nat × Side)} (hr : h.Records ledger) (ho : h.Owned) (hstep : Step h h') :
    ∃ more, h'.Records (ledger ++ more) := by
  cases hstep with
  | rest => exact ⟨[], by simpa using hr⟩
  | @grab i t state hi ht =>
    refine ⟨[], by simpa using hr.once, fun u => ?_, by simpa using hr.home, by simpa using hr.away⟩
    have := hr.scored u
    simp only [List.getElem?_set', List.append_nil]
    grind
  | drop side hi => exact ⟨_, hr.drop ho side _ hi⟩

theorem Balanced.step {n : Nat} (hb : h.Balanced n) (ho : h.Owned) (hstep : Step h h') : h'.Balanced n := by
  cases hstep with
  | rest => exact hb
  | @grab i t state hi ht =>
    obtain ⟨hlt, hget⟩ := List.getElem?_eq_some_iff.mp ht
    refine ⟨(List.length_set ..).trans hb.length, ?_⟩
    rw [List.countP_set hlt, hget]
    simpa using hb.total
  | @drop i t state side hi =>
    obtain ⟨hlt, hget⟩ := List.getElem?_eq_some_iff.mp (ho.mark hi)
    refine ⟨(List.length_set ..).trans hb.length, ?_⟩
    rw [List.countP_set hlt, hget]
    have htotal := hb.total
    cases side with
    | home => simpa [Score.add] using by omega
    | away => simpa [Score.add] using by omega

/-! ## The start -/

/-- Nobody holds any of the `n` treats, and none was scored. -/
structure Fresh (n : Nat) (h : Holdings) : Prop where
  hands : ∀ hand ∈ h.hands, hand = ⟨none, false⟩
  marks : h.marks = List.replicate n ⟨none, false⟩
  score : h.score = {}

namespace Fresh

variable {n : Nat} (hf : h.Fresh n)
include hf

theorem hand {i : Nat} {hand : Hand} (hi : h.hands[i]? = some hand) : hand = ⟨none, false⟩ :=
  hf.hands hand (List.mem_of_getElem? hi)

theorem mark {t : Nat} {mark : Mark} (ht : h.marks[t]? = some mark) : mark = ⟨none, false⟩ := by
  rw [hf.marks] at ht
  exact List.eq_of_mem_replicate (List.mem_of_getElem? ht)

theorem owned : h.Owned := by
  refine ⟨fun i t => ⟨fun hi => ?_, fun ht => ?_⟩, fun t carrier ht => ?_, fun i hand hi => ?_⟩
  · obtain ⟨hand, hget, hhand⟩ := Option.map_eq_some_iff.mp hi
    rw [hf.hand hget] at hhand
    cases hhand
  · obtain ⟨mark, hget, hmark⟩ := Option.map_eq_some_iff.mp ht
    rw [hf.mark hget] at hmark
    cases hmark
  · cases hf.mark ht
  · rw [hf.hand hi]
    rfl

theorem records : h.Records [] := by
  refine ⟨.nil, fun t => ⟨fun ht => ?_, fun ht => by cases ht⟩, ?_, ?_⟩
  · obtain ⟨mark, hget, hmark⟩ := Option.map_eq_some_iff.mp ht
    rw [hf.mark hget] at hmark
    cases hmark
  · rw [hf.score]
    rfl
  · rw [hf.score]
    rfl

theorem balanced : h.Balanced n := by
  refine ⟨by rw [hf.marks, List.length_replicate], ?_⟩
  rw [hf.score, hf.marks, List.countP_replicate]
  rfl

end Fresh

/-! ## Runs -/

/-- What all steps keep of owned holdings, sequences of steps keep too. -/
theorem Owned.steps (ho : h.Owned) (hsteps : Relation.ReflTransGen Step h h') : h'.Owned := by
  induction hsteps with
  | refl => exact ho
  | tail _ hstep ih => exact ih.step hstep

theorem Records.steps {ledger : List (Nat × Side)} (hr : h.Records ledger) (ho : h.Owned)
    (hsteps : Relation.ReflTransGen Step h h') : ∃ more, h'.Records (ledger ++ more) := by
  induction hsteps with
  | refl => exact ⟨[], by simpa using hr⟩
  | tail hsteps hstep ih =>
    obtain ⟨more, hmore⟩ := ih
    obtain ⟨last, hlast⟩ := hmore.step (ho.steps hsteps) hstep
    exact ⟨more ++ last, by rwa [← List.append_assoc]⟩

theorem Balanced.steps {n : Nat} (hb : h.Balanced n) (ho : h.Owned) (hsteps : Relation.ReflTransGen Step h h') :
    h'.Balanced n := by
  induction hsteps with
  | refl => exact hb
  | tail hsteps hstep ih => exact ih.step (ho.steps hsteps) hstep

end Holdings

end Forager.Arena
