import Forager.Proofs.Arena.Fitness
import Forager.Proofs.Chance.Fractions
import Forager.Proofs.Number.Values

/-!
# Where treats are placed

Positions are tried one after the other until enough of them are accepted, or until it is time to give up.

* `after draw s n`, `nth draw s n` : what is left of a source after `n` draws, and what draw `n` gives;
* `accepted clash tries n` : what is accepted of the first `n` tries; `scatter_run` : how many tries are made, and what
  comes of them;
* `central_exact`, `central_mono` : where a fraction below one selects a place, in exact arithmetic and in doubles;
* `treats_placed` : a new world takes a bounded number of tries, and its treats lie in the central part of the field and
  keep apart.
-/

namespace Forager.Arena

set_option autoImplicit false

open Program Number

/-! ## Draws in a row -/

section Scatter

variable {σ P : Type}

/-- What is left of a source after `n` draws. -/
def after (draw : StateM σ P) (s : σ) : Nat → σ
  | 0 => s
  | n + 1 => (draw.run (after draw s n)).2

/-- What draw `n` gives, counted from zero. -/
def nth (draw : StateM σ P) (s : σ) (n : Nat) : P := (draw.run (after draw s n)).1

/-- What is accepted of the first `n` tries: each that does not clash with those accepted before it. -/
def accepted (clash : List P → P → Bool) (tries : Nat → P) : Nat → List P
  | 0 => []
  | n + 1 =>
    if clash (accepted clash tries n) (tries n) then accepted clash tries n
    else accepted clash tries n ++ [tries n]

variable (clash : List P → P → Bool) (tries : Nat → P)

theorem length_accepted_succ (n : Nat) :
    (accepted clash tries n).length ≤ (accepted clash tries (n + 1)).length ∧
      (accepted clash tries (n + 1)).length ≤ (accepted clash tries n).length + 1 := by
  rw [accepted]
  split
  · omega
  · rw [List.length_append, List.length_singleton]
    omega

theorem length_accepted_mono : Monotone fun n => (accepted clash tries n).length :=
  monotone_nat_of_le_succ fun n => (length_accepted_succ clash tries n).1

variable {clash tries}

theorem exists_of_mem_accepted {n : Nat} {p : P} (hp : p ∈ accepted clash tries n) : ∃ i < n, p = tries i := by
  induction n with
  | zero => cases hp
  | succ n ih =>
    have hmem : p ∈ accepted clash tries n ∨ p = tries n := by
      rw [accepted] at hp
      split at hp
      · exact .inl hp
      · simpa using hp
    rcases hmem with hp | rfl
    · obtain ⟨i, hi, rfl⟩ := ih hp
      exact ⟨i, by omega, rfl⟩
    · exact ⟨n, by omega, rfl⟩

/-- What is accepted keeps clear of all that was accepted before it. -/
theorem pairwise_accepted {R : P → P → Prop} (hclash : ∀ ps p, clash ps p = false → ∀ q ∈ ps, R q p) (n : Nat) :
    (accepted clash tries n).Pairwise R := by
  induction n with
  | zero => exact .nil
  | succ n ih =>
    rw [accepted]
    split
    · exact ih
    · rename_i hclear
      refine List.pairwise_append.mpr ⟨ih, List.pairwise_singleton _ _, fun q hq p hp => ?_⟩
      rw [List.mem_singleton.mp hp]
      exact hclash _ _ (eq_false_of_ne_true hclear) q hq

/-- After `k` of at most `limit` tries there is an end: `wanted` are accepted then and not before, or all tries are
made. -/
structure Stops (clash : List P → P → Bool) (tries : Nat → P) (wanted limit k : Nat) : Prop where
  le : k ≤ limit
  missing : ∀ j < k, (accepted clash tries j).length < wanted
  enough : k < limit → wanted ≤ (accepted clash tries k).length

namespace Stops

variable {wanted limit k : Nat} (h : Stops clash tries wanted limit k)

include h

theorem length_le : (accepted clash tries k).length ≤ wanted := by
  cases k with
  | zero => exact Nat.zero_le _
  | succ k =>
    have hbefore := h.missing k (by omega)
    have hstep := (length_accepted_succ clash tries k).2
    omega

theorem lt_iff : (accepted clash tries k).length < wanted ↔ (accepted clash tries limit).length < wanted := by
  constructor
  · intro hlt
    have hlast : k = limit := by
      by_contra hne
      have := h.enough (Nat.lt_of_le_of_ne h.le hne)
      omega
    rwa [← hlast]
  · exact (length_accepted_mono clash tries h.le).trans_lt

end Stops

/-- **Scattering** goes on until enough candidates are accepted, or until all tries are made. -/
theorem scatter_run (next : StateM σ P) (clash : List P → P → Bool) (wanted limit : Nat) (s : σ) :
    ∃ k, Stops clash (nth next s) wanted limit k ∧
      (scatter next clash wanted limit []).run s =
        (if wanted ≤ (accepted clash (nth next s) k).length then some (accepted clash (nth next s) k) else none,
          after next s k) := by
  -- The induction is on the tries that are left after `i` of them.
  have hfrom : ∀ fuel i, (∀ j < i, (accepted clash (nth next s) j).length < wanted) →
      ∃ k, Stops clash (nth next s) wanted (i + fuel) k ∧
        (scatter next clash wanted fuel (accepted clash (nth next s) i)).run (after next s i) =
          (if wanted ≤ (accepted clash (nth next s) k).length then some (accepted clash (nth next s) k) else none,
            after next s k) := by
    intro fuel
    induction fuel with
    | zero => exact fun i hmissing => ⟨i, ⟨le_rfl, hmissing, fun hlt => absurd hlt (lt_irrefl i)⟩, rfl⟩
    | succ fuel ih =>
      intro i hmissing
      rw [scatter]
      by_cases henough : wanted ≤ (accepted clash (nth next s) i).length
      · refine ⟨i, ⟨by omega, hmissing, fun _ => henough⟩, ?_⟩
        rw [if_pos henough, if_pos henough]
        rfl
      · obtain ⟨k, hk, hrun⟩ := ih (i + 1) fun j hj => by
          rcases Nat.lt_succ_iff_lt_or_eq.mp hj with hj | rfl
          · exact hmissing j hj
          · omega
        refine ⟨k, by rwa [Nat.add_right_comm] at hk, ?_⟩
        rw [if_neg henough, run_bind_state, ← hrun, accepted]
        change StateT.run (if clash _ (nth next s i) = true then _ else _) (after next s (i + 1)) = _
        split <;> rfl
  obtain ⟨k, hk, hrun⟩ := hfrom limit 0 fun j hj => absurd hj (Nat.not_lt_zero j)
  rw [Nat.zero_add] at hk
  exact ⟨k, hk, hrun⟩

end Scatter

/-! ## Places in the field -/

/-- In exact arithmetic, a fraction below one selects a place in the central four fifths of an extent. -/
theorem central_exact {extent u : ℚ} (hextent : 0 < extent) (hlow : 0 ≤ u) (hhigh : u < 1) :
    extent / 10 ≤ central extent u ∧ central extent u < 9 * extent / 10 := by
  have heq : central extent u = extent / 10 + extent * u * (8 / 10) := by
    simp only [central, ofInteger]
    push_cast
    ring
  rw [heq]
  constructor
  · have : 0 ≤ extent * u := mul_nonneg hextent.le hlow
    linarith
  · have : extent * u < extent * 1 := mul_lt_mul_of_pos_left hhigh hextent
    linarith

section

variable {extent u v : Float}

/-- The double nearest to four fifths. -/
def fourFifths : Float := ofInteger 8 / ofInteger 10

/-- The double nearest to a tenth. -/
def tenth : Float := ofInteger 1 / ofInteger 10

/-- The share of an extent that lies before the place that a fraction selects. -/
def share (u : Float) : Float := u * fourFifths + tenth

theorem fraction_fourFifths : Fraction fourFifths ∧ value fourFifths ≤ 81 / 100 := by
  have hshape : shape fourFifths = .finite false 7205759403792794 (-53) := by decide +kernel
  obtain ⟨hfinite, hvalue⟩ := value_of_shape hshape
  have hbounds : 0 ≤ value fourFifths ∧ value fourFifths ≤ 81 / 100 := by
    rw [hvalue]
    norm_num
  exact ⟨⟨hfinite, hbounds.1, by linarith [hbounds.2]⟩, hbounds.2⟩

theorem fraction_tenth : Fraction tenth ∧ value tenth ≤ 11 / 100 := by
  have hshape : shape tenth = .finite false 7205759403792794 (-56) := by decide +kernel
  obtain ⟨hfinite, hvalue⟩ := value_of_shape hshape
  have hbounds : 0 ≤ value tenth ∧ value tenth ≤ 11 / 100 := by
    rw [hvalue]
    norm_num
  exact ⟨⟨hfinite, hbounds.1, by linarith [hbounds.2]⟩, hbounds.2⟩

theorem part_rounds (hu : Fraction u) : Rounds (value u * value fourFifths) (u * fourFifths) :=
  fraction_fourFifths.1.mul_rounds hu.isFinite hu.nonneg

theorem share_rounds (hu : Fraction u) : Rounds (value (u * fourFifths) + value tenth) (share u) := by
  obtain ⟨height, hmost⟩ := fraction_fourFifths
  obtain ⟨htenth, hleast⟩ := fraction_tenth
  have hpart := part_rounds hu
  -- Four fifths of a fraction are rounded to at most four fifths, which leaves room for the tenth.
  have hle : u * fourFifths ≤ fourFifths :=
    hpart.le (rounds_self height.isFinite height.nonneg) (mul_nonneg hu.nonneg height.nonneg)
      (mul_le_of_le_one_left height.nonneg hu.le_one)
  rw [le_iff_value hpart.isFinite height.isFinite] at hle
  refine add_rounds hpart.isFinite htenth.isFinite value_one.1 hpart.value_nonneg htenth.nonneg ?_
  rw [value_one.2]
  linarith

theorem share_mono (hu : Fraction u) (hv : Fraction v) (h : u ≤ v) : share u ≤ share v := by
  have hpart : u * fourFifths ≤ v * fourFifths := by
    refine (part_rounds hu).le (part_rounds hv) (mul_nonneg hu.nonneg fraction_fourFifths.1.nonneg) ?_
    exact mul_le_mul_of_nonneg_right ((le_iff_value hu.isFinite hv.isFinite).mp h) fraction_fourFifths.1.nonneg
  rw [le_iff_value (part_rounds hu).isFinite (part_rounds hv).isFinite] at hpart
  refine (share_rounds hu).le (share_rounds hv) ?_ (by linarith)
  exact add_nonneg (part_rounds hu).value_nonneg fraction_tenth.1.nonneg

theorem fraction_share (hu : Fraction u) : Fraction (share u) := by
  have hone : Fraction 1 := ⟨value_one.1, by rw [value_one.2]; norm_num, value_one.2.le⟩
  have hmost := share_mono hu hone ((le_iff_value hu.isFinite value_one.1).mpr (value_one.2 ▸ hu.le_one))
  have hend : value (share 1) ≤ 1 := by
    have hshape : shape (share 1) = .finite false 8106479329266893 (-53) := by decide +kernel
    rw [(value_of_shape hshape).2]
    norm_num
  rw [le_iff_value (share_rounds hu).isFinite (share_rounds hone).isFinite] at hmost
  exact ⟨(share_rounds hu).isFinite, (share_rounds hu).value_nonneg, hmost.trans hend⟩

/-- **Places are ordered like the fractions that select them**, also when they are rounded. -/
theorem central_mono (hextent : isFinite extent = true) (hpos : 0 ≤ value extent) (hu : Fraction u) (hv : Fraction v)
    (h : u ≤ v) : central extent u ≤ central extent v := by
  have hshare := share_mono hu hv h
  rw [le_iff_value (fraction_share hu).isFinite (fraction_share hv).isFinite] at hshare
  exact ((fraction_share hu).mul_rounds hextent hpos).le ((fraction_share hv).mul_rounds hextent hpos)
    (mul_nonneg hpos (fraction_share hu).nonneg) (mul_le_mul_of_nonneg_left hshare hpos)

/-- The place that a fraction selects lies in the central four fifths of the extent: in exact arithmetic from a tenth to
below nine tenths, and in doubles between the places at the two ends. -/
structure InCentre (extent u : Float) : Prop where
  exact : value extent / 10 ≤ central (value extent) (value u) ∧
    central (value extent) (value u) < 9 * value extent / 10
  rounded : central extent 0 ≤ central extent u ∧ central extent u ≤ central extent 1

theorem inCentre (hextent : isFinite extent = true) (hpos : 0 < value extent) (hlow : 0 ≤ u) (hhigh : u < 1) :
    InCentre extent u := by
  obtain ⟨hu, hless⟩ := fraction_of_lt hlow hhigh
  have hzero : Fraction 0 := ⟨value_zero.1, value_zero.2.ge, by rw [value_zero.2]; norm_num⟩
  have hone : Fraction 1 := ⟨value_one.1, by rw [value_one.2]; norm_num, value_one.2.le⟩
  refine ⟨central_exact hpos hu.nonneg hless, central_mono hextent hpos.le hzero hu hlow, ?_⟩
  exact central_mono hextent hpos.le hu hone ((le_iff_value hu.isFinite hone.isFinite).mpr (value_one.2 ▸ hu.le_one))

end

/-! ## Treats -/

section

variable {σ : Type} (fraction : StateM σ Float) (c : Config) (s : σ)

/-- The position that is tried at attempt `i`, with two draws. -/
def tried (i : Nat) : Vec :=
  ⟨central c.length (nth fraction s (2 * i)), central c.width (nth fraction s (2 * i + 1))⟩

theorem after_candidate (n : Nat) : after (candidate fraction c) s n = after fraction s (2 * n) := by
  induction n with
  | zero => rfl
  | succ n ih =>
    rw [after, ih]
    rfl

theorem nth_candidate : nth (candidate fraction c) s = tried fraction c s := by
  funext n
  unfold nth tried
  rw [after_candidate]
  rfl

end

theorem clear_of_overlaps {ps : List Vec} {p : Vec} (h : overlaps ps p = false) :
    ∀ q ∈ ps, ¬q.distance p < 2 * treatRadius := by
  intro q hq
  unfold overlaps at h
  rw [List.any_eq_false] at h
  simpa using h q hq

/-- A finite extent, with its default in place if it is not positive, is positive. -/
theorem extent_pos {x y : Float} (hy : 0 < y) (hfinite : isFinite (if x ≤ 0 then y else x) = true) :
    0 < value (if x ≤ 0 then y else x) := by
  rw [← value_zero.2, ← lt_iff_value value_zero.1 hfinite]
  split
  · exact hy
  · rename_i hx
    rw [if_neg hx] at hfinite
    rw [le_iff_value hfinite value_zero.1, not_le] at hx
    exact (lt_iff_value value_zero.1 hfinite).mpr hx

theorem Config.length_pos (c : Config) (h : isFinite c.withDefaults.length = true) : 0 < value c.withDefaults.length :=
  extent_pos (by decide +kernel) h

theorem Config.width_pos (c : Config) (h : isFinite c.withDefaults.width = true) : 0 < value c.withDefaults.width :=
  extent_pos (by decide +kernel) h

/-- A new world has a treat at every position that is accepted, if these are enough. -/
theorem arrange_run {σ : Type} (fraction : StateM σ Float) (c : Config) (team opponent : List Expr) (s : σ) :
    ∃ k w, Stops overlaps (tried fraction c s) c.treats.toNat (attemptsPerTreat * c.treats.toNat + 1) k ∧
      w.treats = (accepted overlaps (tried fraction c s) k).map ({ pos := · }) ∧
      (World.arrange fraction c team opponent).run s =
        (if (accepted overlaps (tried fraction c s) k).length < c.treats.toNat then none else some w,
          after fraction s (2 * k)) := by
  obtain ⟨k, hstops, hrun⟩ := scatter_run (candidate fraction c) overlaps c.treats.toNat
    (attemptsPerTreat * c.treats.toNat + 1) s
  rw [nth_candidate] at hstops hrun
  rw [after_candidate] at hrun
  refine ⟨k, { config := c, robots := lineup c team .home ++ lineup c opponent .away, treats := _ }, hstops, rfl, ?_⟩
  rw [World.arrange, run_bind_state, placeTreats, hrun]
  by_cases hfew : (accepted overlaps (tried fraction c s) k).length < c.treats.toNat
  · rw [if_pos hfew, if_neg (by omega)]
    rfl
  · rw [if_neg hfew, if_pos (by omega)]
    rfl

/-- The treats of `w` are as many as `c` asks for and lie free on the field, in its central part if it is finite, where
some of the first `n` tries found room for them. -/
structure Strewn {σ : Type} (fraction : StateM σ Float) (c : Config) (s : σ) (n : Nat) (w : World) : Prop where
  places : w.treats.map (·.pos) = accepted overlaps (tried fraction c s) n
  count : (w.treats.length : Int) = c.treats
  free : ∀ t ∈ w.treats, t.carrier = none ∧ t.scored = false
  central : ∀ t ∈ w.treats, ∃ i < n, t.pos = tried fraction c s i ∧
    (isFinite c.length = true → InCentre c.length (nth fraction s (2 * i))) ∧
    (isFinite c.width = true → InCentre c.width (nth fraction s (2 * i + 1)))
  apart : w.treats.Pairwise fun earlier later => ¬earlier.pos.distance later.pos < 2 * treatRadius

/-- Treats at enough accepted positions are where they should be. -/
theorem strewn {σ : Type} {fraction : StateM σ Float} (hfraction : Gives (fun u => 0 ≤ u ∧ u < 1) fraction) (c : Config)
    (s : σ) {n : Nat} {w : World} (hcount : ((accepted overlaps (tried fraction c.withDefaults s) n).length : Int) =
      c.withDefaults.treats)
    (hw : w.treats = (accepted overlaps (tried fraction c.withDefaults s) n).map ({ pos := · })) :
    Strewn fraction c.withDefaults s n w where
  places := by
    rw [hw, List.map_map]
    exact List.map_id _
  count := by rw [hw, List.length_map, hcount]
  free t ht := by
    rw [hw] at ht
    obtain ⟨p, -, rfl⟩ := List.mem_map.mp ht
    exact ⟨rfl, rfl⟩
  central t ht := by
    rw [hw] at ht
    obtain ⟨p, hp, rfl⟩ := List.mem_map.mp ht
    obtain ⟨i, hi, rfl⟩ := exists_of_mem_accepted hp
    have hdraw (k : Nat) : 0 ≤ nth fraction s k ∧ nth fraction s k < 1 := hfraction _
    exact ⟨i, hi, rfl, fun h => inCentre h (c.length_pos h) (hdraw _).1 (hdraw _).2,
      fun h => inCentre h (c.width_pos h) (hdraw _).1 (hdraw _).2⟩
  apart := by
    have hclear : (accepted overlaps (tried fraction c.withDefaults s) n).Pairwise
        fun p q => ¬p.distance q < 2 * treatRadius := pairwise_accepted (fun _ _ h => clear_of_overlaps h) n
    rw [hw]
    exact List.pairwise_map.mpr hclear

/-- **Treats are placed or the field is given up.** Whatever the source of fractions below one, a new world is found or
not after at most a thousand tries for each treat and one more, each of two draws. It is not found iff all of these
accept too few positions. If it is found, it has all its treats free on the field, in its central four fifths, and none
overlaps one that was placed before it. -/
theorem treats_placed {σ : Type} (fraction : StateM σ Float) (hfraction : Gives (fun u => 0 ≤ u ∧ u < 1) fraction)
    (c : Config) (team opponent : List Expr) (s : σ) :
    let d := c.withDefaults
    let run := (World.arrange fraction d team opponent).run s
    let found n : Int := (accepted overlaps (tried fraction d s) n).length
    ∃ attempts : Nat, (attempts : Int) ≤ 1000 * d.treats + 1 ∧ run.2 = after fraction s (2 * attempts) ∧
      (∀ n < attempts, found n < d.treats) ∧
      (run.1 = none ↔ found (1000 * d.treats + 1).toNat < d.treats) ∧
      (run.1 = none → (attempts : Int) = 1000 * d.treats + 1) ∧
      ∀ w, run.1 = some w → Strewn fraction d s attempts w := by
  intro d run found
  have htreats : 0 < d.treats := c.withDefaults_pos.1
  obtain ⟨k, w₀, hstops, htreated, hrun⟩ := arrange_run fraction d team opponent s
  have hlimit : attemptsPerTreat * d.treats.toNat + 1 = (1000 * d.treats + 1).toNat := by
    unfold attemptsPerTreat
    omega
  rw [hlimit] at hstops
  have hle : (k : Int) ≤ 1000 * d.treats + 1 := by
    have := hstops.le
    omega
  have hfound (n : Nat) : found n < d.treats ↔ (accepted overlaps (tried fraction d s) n).length < d.treats.toNat := by
    change ((accepted overlaps (tried fraction d s) n).length : Int) < d.treats ↔ _
    omega
  have hresult : run.1 = if (accepted overlaps (tried fraction d s) k).length < d.treats.toNat then none else some w₀ :=
    congrArg Prod.fst hrun
  refine ⟨k, hle, congrArg Prod.snd hrun, fun n hn => (hfound n).mpr (hstops.missing n hn), ?_, ?_, ?_⟩
  · rw [hfound, ← hstops.lt_iff, hresult]
    simp
  · intro hfail
    by_contra hmore
    -- If tries are left, there are enough treats and a world.
    have henough := hstops.enough (by omega)
    rw [hresult, if_neg (by omega)] at hfail
    cases hfail
  · intro w hw
    rw [hresult] at hw
    split at hw
    · cases hw
    · cases hw
      have hmost := hstops.length_le
      have hcount : found k = d.treats := by
        change ((accepted overlaps (tried fraction d s) k).length : Int) = d.treats
        omega
      exact strewn hfraction c s hcount htreated

/-- A source that always gives one half and counts its draws. -/
def halves : StateM Nat Float := modifyGet fun drawn => (0.5, drawn + 1)

theorem after_halves (n : Nat) : after halves 0 n = n := by
  induction n with
  | zero => rfl
  | succ n ih =>
    rw [after, ih]
    rfl

/-- Of tries at a single place that a treat there would block, one is accepted. -/
theorem length_accepted_const {P : Type} {clash : List P → P → Bool} {p : P} (hclash : clash [p] p = true) (n : Nat) :
    (accepted clash (fun _ => p) n).length ≤ 1 := by
  have hone : accepted clash (fun _ => p) n = [] ∨ accepted clash (fun _ => p) n = [p] := by
    induction n with
    | zero => exact .inl rfl
    | succ n ih =>
      rw [accepted]
      rcases ih with ih | ih
      · rw [ih]
        split
        · exact .inl rfl
        · exact .inr rfl
      · rw [ih, if_pos hclash]
        exact .inr rfl
  rcases hone with h | h <;> simp [h]

/-- The contested field with one more treat. -/
def crowded : Config := { contested with treats := 2 }

theorem treats_placed_contested :
    (World.arrange halves crowded [.idle] [.idle]).run 0 = (none, 4002) ∧
      ∃ w n, ((World.new contested [.idle] [.idle]).run (.ofSeed 7)).1 = some w ∧ n ≤ 1001 ∧
        Strewn Chance.unit contested (.ofSeed 7) n w := by
  constructor
  · have hhalf : (0 : Float) ≤ 0.5 ∧ (0.5 : Float) < 1 := by decide +kernel
    -- All tries are at the middle of the field, where the first treat is.
    have hmiddle : tried halves crowded 0 = fun _ => ⟨central 220 0.5, central 150 0.5⟩ := rfl
    have hfew (n : Nat) : (accepted overlaps (tried halves crowded 0) n).length < 2 := by
      rw [hmiddle]
      exact Nat.lt_succ_of_le (length_accepted_const (by decide +kernel) n)
    obtain ⟨n, -, hafter, -, hnone, hlast, -⟩ := treats_placed halves (fun _ => hhalf) crowded [.idle] [.idle] 0
    have hfail := hnone.mpr (Int.ofNat_lt.mpr (hfew _))
    have hn : n = 2001 := Int.natCast_inj.mp (hlast hfail)
    rw [hn, after_halves] at hafter
    exact Prod.ext hfail hafter
  · obtain ⟨w, hw⟩ := new_single (c := contested) rfl [.idle] [.idle] (.ofSeed 7)
    obtain ⟨n, hle, -, -, -, -, hstrewn⟩ :=
      treats_placed Chance.unit Chance.unit_range contested [.idle] [.idle] (.ofSeed 7)
    exact ⟨w, n, hw, Int.ofNat_le.mp hle, hstrewn w hw⟩

end Forager.Arena
