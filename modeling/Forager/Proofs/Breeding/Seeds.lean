import Mathlib.Data.FinEnum
import Forager.Proofs.Breeding.Interleaving

/-!
# Seeds that never repeat

All seeds of a run are derived from one. Every step of the derivation can be undone, so that trials with different
numbers have different seeds, and so have trials of one number under different seeds.

* `mix_bijective` : mixing the bits of a word loses nothing;
* `derive_injective`, `derive_bijective` : hence a derivation loses nothing of the number and nothing of the seed;
* `Simulator.noting s` : a simulator that notes the seed of every match it plays; `evaluate_noting` : what is noted
  during an evaluation;
* `seeds_never_repeat` : no seed is used twice where the run relies on it.
-/

namespace Forager

set_option autoImplicit false

namespace Chance

/-! ## Words -/

/-- A factor that has an inverse loses nothing. -/
theorem mul_injective {c c' : UInt64} (h : c * c' = 1) : Function.Injective fun z : UInt64 => z * c := by
  intro a b hab
  have hundo : a * c * c' = b * c * c' := congrArg (· * c') hab
  rwa [UInt64.mul_assoc, UInt64.mul_assoc, h, UInt64.mul_one, UInt64.mul_one] at hundo

/-- Nor does adding a word's own high bits to its low bits: the difference of two words of one image would equal its
own shift, and only zero does. -/
theorem xor_shiftRight_injective {k : UInt64} (hk : k.toNat % 64 ≠ 0) :
    Function.Injective fun z : UInt64 => z ^^^ (z >>> k) := by
  intro a b hab
  have hshift : (a ^^^ b) >>> k = a ^^^ b := by
    have hzero : (a ^^^ (a >>> k)) ^^^ (b ^^^ (b >>> k)) = 0 := UInt64.xor_eq_zero_iff.mpr hab
    have hswap : (a ^^^ (a >>> k)) ^^^ (b ^^^ (b >>> k)) = ((a >>> k) ^^^ (b >>> k)) ^^^ (a ^^^ b) := by ac_rfl
    rw [UInt64.shiftRight_xor]
    exact UInt64.xor_eq_zero_iff.mp (hswap ▸ hzero)
  have hdiv : (a ^^^ b).toNat / 2 ^ (k.toNat % 64) = (a ^^^ b).toNat := by
    rw [← Nat.shiftRight_eq_div_pow, ← UInt64.toNat_shiftRight, hshift]
  apply UInt64.xor_eq_zero_iff.mp
  apply UInt64.toNat_inj.mp
  by_contra hne
  have hlt := Nat.div_lt_self (Nat.pos_of_ne_zero hne) (Nat.one_lt_two_pow hk)
  omega

/-- **Mixing** the bits of a word can be undone. -/
theorem mix_bijective : Function.Bijective mix := by
  have hsteps : mix = (fun z : UInt64 => z ^^^ (z >>> 31)) ∘ (· * 0x94D049BB133111EB) ∘
      (fun z : UInt64 => z ^^^ (z >>> 27)) ∘ (· * 0xBF58476D1CE4E5B9) ∘ fun z : UInt64 => z ^^^ (z >>> 30) := rfl
  have hfirst : Function.Injective fun z : UInt64 => z * 0xBF58476D1CE4E5B9 :=
    mul_injective (show 0xBF58476D1CE4E5B9 * 0x96DE1B173F119089 = 1 by decide)
  have hsecond : Function.Injective fun z : UInt64 => z * 0x94D049BB133111EB :=
    mul_injective (show 0x94D049BB133111EB * 0x319642B2D24D8EC3 = 1 by decide)
  rw [← Finite.injective_iff_bijective, hsteps]
  exact (xor_shiftRight_injective (by decide)).comp <| hsecond.comp <| (xor_shiftRight_injective (by decide)).comp <|
    hfirst.comp (xor_shiftRight_injective (by decide))

theorem toUInt64_injective : Function.Injective Int64.toUInt64 := by
  intro a b h
  cases a
  cases b
  exact congrArg Int64.ofUInt64 h

/-! ## Derivations -/

/-- Different trials have different seeds. -/
theorem derive_injective (base : Int64) : Function.Injective (derive base) := by
  intro i j h
  have hplace := mix_bijective.injective (Int64.ofUInt64.inj h)
  have hstride : Function.Injective fun z : UInt64 => z * stride :=
    mul_injective (show stride * 0xF1DE83E19937733D = 1 by decide)
  have hnext : i + 1 = j + 1 := toUInt64_injective (hstride ((UInt64.add_right_inj _).mp hplace))
  exact (Int64.add_left_inj 1).mp hnext

/-- Every word is the seed of a trial under one seed only. -/
theorem derive_bijective (index : Int64) : Function.Bijective fun base => derive base index := by
  constructor
  · intro a b h
    have hplace := mix_bijective.injective (Int64.ofUInt64.inj h)
    exact toUInt64_injective ((UInt64.add_left_inj _).mp hplace)
  · intro s
    obtain ⟨z, hz⟩ := mix_bijective.surjective s.toUInt64
    refine ⟨⟨z - (index + 1).toUInt64 * stride⟩, ?_⟩
    change Int64.ofUInt64 (mix (z - _ + _)) = s
    rw [UInt64.sub_add_cancel, hz]

theorem selectionSeed_injective (base : Int64) : Function.Injective (selectionSeed base) := derive_injective (~~~base)

/-- No seed is its own complement, so selections and matches draw from different seeds. -/
theorem selectionSeed_ne (base index : Int64) : selectionSeed base index ≠ derive base index := by
  intro h
  have hself : ~~~base = base := (derive_bijective index).injective h
  have hbit : (~~~base).toBitVec.getLsbD 0 = base.toBitVec.getLsbD 0 := by rw [hself]
  rw [Int64.toBitVec_not, BitVec.getLsbD_not] at hbit
  simp at hbit

theorem ofNat_injOn : Set.InjOn Int64.ofNat (Set.Iio (2 ^ 64)) := by
  intro m hm n hn h
  have hwords : (UInt64.ofNat m).toNat = (UInt64.ofNat n).toNat := congrArg (UInt64.toNat ∘ Int64.toUInt64) h
  rwa [UInt64.toNat_ofNat_of_lt' hm, UInt64.toNat_ofNat_of_lt' hn] at hwords

def seeds (base : Int64) (count : Nat) : List Int64 := (List.range count).map fun r => derive base (.ofNat r)

theorem nodup_seeds (base : Int64) {count : Nat} (h : count ≤ 2 ^ 64) : (seeds base count).Nodup := by
  refine List.Nodup.map_on (fun m hm n hn heq => ?_) List.nodup_range
  rw [List.mem_range] at hm hn
  exact ofNat_injOn (Set.mem_Iio.mpr (by omega)) (Set.mem_Iio.mpr (by omega)) (derive_injective base heq)

end Chance

/-! ## Evaluations -/

/-- The note that a match with this seed was played. -/
def Journal.seedNote (seed : Int64) : Journal.Entry := ⟨.debug, "match", [("seed", .integer seed.toInt)]⟩

/-- The simulator that plays the same matches and notes their seeds. -/
def Simulator.noting (s : Simulator) : Simulator :=
  { s with play := fun before deadline m =>
      { s.play before deadline m with journal := [Journal.seedNote m.seed] } }

namespace Breeding

open Program (Expr)
open Chance (derive selectionSeed seeds)

/-- A series notes the seeds of its matches in order, and all of them unless it ends early. -/
theorem playSeries_noting (sim : Simulator) (id : String) (team opponent : List Expr) (seed : Int64) (count r : Nat)
    (totals : Totals) (p : Playing) :
    ∃ n ≤ count, (playSeries sim.noting id team opponent seed count r totals p).2.journal =
        p.journal ++ (List.range' r n).map (fun i => Journal.seedNote (derive seed (.ofNat i))) ∧
      ∀ t, (playSeries sim.noting id team opponent seed count r totals p).1 = .ok t → n = count := by
  induction count generalizing r totals p with
  | zero => exact ⟨0, le_rfl, by simp [playSeries], fun _ _ => rfl⟩
  | succ count ih =>
    rw [playSeries]
    rcases hlook : p.deadline.look with ⟨passed, deadline⟩
    cases passed with
    | true => exact ⟨0, by omega, by simp, fun t ht => by cases ht⟩
    | false =>
      dsimp only
      have hjournal : (sim.noting.play p.before deadline ⟨team, opponent, derive seed (.ofNat r)⟩).journal =
          [Journal.seedNote (derive seed (.ofNat r))] := rfl
      cases hresult : (sim.noting.play p.before deadline ⟨team, opponent, derive seed (.ofNat r)⟩).result with
      | error e =>
        refine ⟨1, by omega, ?_, fun t ht => by cases ht⟩
        simp only [hjournal]
        rfl
      | ok outcome =>
        dsimp only
        obtain ⟨n, hn, hnotes, hall⟩ := ih (r + 1) ⟨totals.fitness + outcome.fitness,
          if outcome.aborted then totals.aborted + 1 else totals.aborted⟩ ⟨p.before + 1, _, p.journal ++ _⟩
        refine ⟨n + 1, by omega, ?_, fun t ht => by rw [hall t ht]⟩
        rw [hnotes, hjournal, List.range'_succ, List.map_cons, List.append_assoc]
        rfl

/-- An evaluation notes the seeds of its matches, as many as it has played. -/
theorem evaluate_noting (ind : Individual) (sim : Simulator) (opponent : List Expr) (repeats : Int) (seed : Int64)
    (p : Playing) :
    ∃ n ≤ repeats.toNat, (ind.evaluate sim.noting opponent repeats seed p).2.journal =
        p.journal ++ (seeds seed n).map Journal.seedNote ∧
      ∀ result, (ind.evaluate sim.noting opponent repeats seed p).1 = .ok result → n = repeats.toNat := by
  unfold Individual.evaluate
  split
  · exact ⟨0, Nat.zero_le _, by simp [seeds], fun result h => by cases h⟩
  · obtain ⟨n, hn, hnotes, hall⟩ :=
      playSeries_noting sim ind.id ind.programs opponent seed repeats.toNat 0 {} p
    refine ⟨n, hn, ?_, ?_⟩
    · rw [seeds, List.range_eq_range', List.map_map]
      rcases hplay : playSeries sim.noting ind.id ind.programs opponent seed repeats.toNat 0 {} p with ⟨_ | _, p'⟩
      all_goals
        rw [hplay] at hnotes
        exact hnotes
    · intro result hresult
      rcases hplay : playSeries sim.noting ind.id ind.programs opponent seed repeats.toNat 0 {} p with ⟨e | totals, p'⟩
      · rw [hplay] at hresult
        cases hresult
      · exact hall totals (by rw [hplay])

/-- **No seed repeats.** Under one seed all trials have different seeds, and each trial has every seed once as the seed
it runs under varies. So the matches of an evaluation, as many as a word can count, are played from different seeds;
so are a match and its counterparts in other generations, and the selections of different generations; and no
generation is selected from the seed that its matches are derived from. -/
theorem seeds_never_repeat :
    (∀ base, Function.Injective (derive base)) ∧ (∀ index, Function.Bijective fun base => derive base index) ∧
    (∀ (ind : Individual) (sim : Simulator) (opponent : List Expr) (repeats : Int) (seed : Int64) (p : Playing),
      repeats ≤ 2 ^ 64 → ∃ n ≤ repeats.toNat, (seeds seed n).Nodup ∧
        (ind.evaluate sim.noting opponent repeats seed p).2.journal =
          p.journal ++ (seeds seed n).map Journal.seedNote ∧
        ∀ result, (ind.evaluate sim.noting opponent repeats seed p).1 = .ok result → n = repeats.toNat) ∧
    (∀ seed r, Function.Injective fun generation => derive (derive seed generation) r) ∧
    (∀ seed, Function.Injective (selectionSeed seed)) ∧
    ∀ seed generation, selectionSeed seed generation ≠ derive seed generation := by
  refine ⟨Chance.derive_injective, Chance.derive_bijective, ?_, ?_, Chance.selectionSeed_injective,
    Chance.selectionSeed_ne⟩
  · intro ind sim opponent repeats seed p hrepeats
    obtain ⟨n, hn, hnotes, hall⟩ := evaluate_noting ind sim opponent repeats seed p
    exact ⟨n, hn, Chance.nodup_seeds seed (by omega), hnotes, hall⟩
  · intro seed r
    exact (Chance.derive_bijective r).injective.comp (Chance.derive_injective seed)

/-- Three matches of one team: the journal names three seeds, all different. -/
theorem seeds_never_repeat_threeMatches :
    (∃ result, ((Individual.default "team").evaluate census.noting [] 3 7 {}).1 = .ok result) ∧
    ((Individual.default "team").evaluate census.noting [] 3 7 {}).2.journal = (seeds 7 3).map Journal.seedNote ∧
    (seeds 7 3).Nodup ∧ seeds 7 3 = [7191089600892374487, 309689372594955804, -1830642326893942270] := by
  obtain ⟨-, -, hmatches, -⟩ := seeds_never_repeat
  obtain ⟨n, -, hnodup, hnotes, hall⟩ := hmatches (.default "team") census [] 3 7 {} (by decide)
  obtain ⟨result, hresult⟩ : ∃ result, ((Individual.default "team").evaluate census.noting [] 3 7 {}).1 = .ok result :=
    ⟨_, rfl⟩
  obtain rfl : n = 3 := hall result hresult
  exact ⟨⟨result, hresult⟩, hnotes, hnodup, by decide⟩

end Breeding

end Forager
