import Forager.Proofs.Breeding.Heredity
import Forager.Proofs.Number.Numerals
import Forager.Proofs.Text.Bytes

/-!
# What generations are made of

* `new_ok` : what a new population was made of; `advance_ok`, `evolve_ok` : what a completed generation comes of, and
  what it leaves;
* `individualId_inj` : a name tells the generation and the number in it;
* `Numbered generation i count inds` : new individuals with consecutive numbers; `founders_numbered`,
  `offspring_numbered` : those of the first and of the next generation are.
-/

namespace Forager.Breeding

set_option autoImplicit false

open Program

/-! ## Populations -/

/-- What a population was made of, and what it is. -/
theorem new_ok {s : Setup} {p : Population} (h : Population.new s = .ok p) :
    ∃ sim baseline progenitor others src,
      s.simulator = some sim ∧ s.baseline = some baseline ∧ s.progenitor = some progenitor ∧
      0 < s.size ∧ s.size % 2 = 0 ∧ progenitor.programs ≠ [] ∧ (∀ e ∈ progenitor.programs, e.kind = .step) ∧
      (Population.founders progenitor s.rate (s.size.toNat - 1) 1).run
        (.ofSeed (Chance.selectionSeed s.seed (-1))) = (.ok others, src) ∧
      p = {
        simulator := sim, opponent := baseline.programs, rate := s.rate, repeats := s.repeats, seed := s.seed,
        selector := s.selector,
        individuals := { id := individualId 0 0, programs := progenitor.programs } :: others } := by
  unfold Population.new at h
  split at h
  · cases h
  · cases h
  · cases h
  rename_i sim baseline progenitor hsim hbaseline hprogenitor
  split at h
  · cases h
  rename_i hsize
  split at h
  · cases h
  split at h
  · cases h
  split at h
  · cases h
  rename_i first hfirst
  split at h
  · cases h
  rename_i others src hothers
  cases h
  obtain ⟨hne, hroots, rfl⟩ := (new_iff _ _ _).mp hfirst
  simp only [Bool.or_eq_true, decide_eq_true_eq, not_or, ne_eq, Decidable.not_not] at hsize
  exact ⟨sim, baseline, progenitor, others, src, hsim, hbaseline, hprogenitor, by omega, hsize.2, hne, hroots, hothers,
    rfl⟩

theorem new_selector {s : Setup} {p : Population} (h : Population.new s = .ok p) : p.selector = s.selector := by
  obtain ⟨_, _, _, _, _, -, -, -, -, -, -, -, -, rfl⟩ := new_ok h
  rfl

/-- What a completed generation comes of, and what it leaves. -/
theorem advance_ok {p : Population} {deadline : Deadline} {g : Generation}
    (h : (p.advance deadline).result = .ok g) :
    ∃ first others playing next,
      evaluateAll p.simulator p.opponent p.repeats p.matchSeed p.individuals ⟨p.played, deadline, []⟩ =
        (none, first :: others, playing) ∧
      p.offspring first others = .ok next ∧
      g = summarize p.generation p.repeats first others ∧
      (p.advance deadline).population = { p with
        individuals := next, played := playing.before, generation := p.generation + 1,
        best := some (Population.improve p.best g.fittest) } := by
  unfold Population.advance at h ⊢
  rcases hall : evaluateAll p.simulator p.opponent p.repeats p.matchSeed p.individuals ⟨p.played, deadline, []⟩ with
    ⟨failure, evaluated, playing⟩
  rw [hall] at h
  dsimp only at h ⊢
  split at h
  · cases h
  · cases h
  · rename_i first others
    cases hnext : p.offspring first others with
    | error e =>
      rw [hnext] at h
      cases h
    | ok next =>
      rw [hnext] at h
      cases h
      exact ⟨first, others, playing, next, rfl, hnext, rfl, rfl⟩

theorem evolve_ok {p : Population} {σ : Type} {observers : List (Observer σ)} {deadline : Deadline} {s : σ}
    {g : Generation} (h : (p.evolve observers deadline s).1.result = .ok g) :
    (p.advance deadline).result = .ok g ∧
      (p.evolve observers deadline s).1.population = (p.advance deadline).population := by
  unfold Population.evolve at h ⊢
  dsimp only at h ⊢
  split at h
  · exact ⟨h, rfl⟩
  · split at h
    · exact ⟨h, rfl⟩
    · cases h

theorem evolve_nil (p : Population) {σ : Type} (deadline : Deadline) (s : σ) :
    p.evolve [] deadline s = (p.advance deadline, s) := by
  unfold Population.evolve
  cases h : (p.advance deadline).result with
  | error e => simp only [h]
  | ok g =>
    simp only [h]
    rfl

/-! ## New individuals -/

/-- A name tells the generation and the number in it. -/
theorem individualId_inj {generation generation' i i' : Nat} :
    individualId generation i = individualId generation' i' ↔ generation = generation' ∧ i = i' := by
  refine ⟨fun h => ?_, fun ⟨hgeneration, hi⟩ => by rw [hgeneration, hi]⟩
  have hchars (generation i : Nat) : (individualId generation i).toList =
      'g' :: (Nat.toDigits 10 generation ++ '-' :: 'i' :: Nat.toDigits 10 i) := by
    simp only [individualId, String.toList_append, Nat.toString_eq_repr, Nat.toList_repr, List.append_assoc]
    rfl
  have hcut (n : Nat) : '-' ∉ Nat.toDigits 10 n := fun hmem =>
    absurd (Number.digits_toDigits n _ hmem) (by decide)
  have hlists := congrArg String.toList h
  rw [hchars, hchars] at hlists
  obtain ⟨hfirst, hrest⟩ := Text.cut_inj (hcut generation) (hcut generation') (List.cons.inj hlists).2
  have hdigits {m n : Nat} (hmn : Nat.toDigits 10 m = Nat.toDigits 10 n) : m = n :=
    Nat.repr_inj.mp (congrArg String.ofList hmn)
  exact ⟨hdigits hfirst, hdigits (List.cons.inj hrest).2⟩

structure Named (id : String) (ind : Individual) : Prop where
  id : ind.id = id
  fresh : ind.evaluated = false

/-- New individuals that are numbered from `i` up to below `i + count`. -/
structure Numbered (generation i count : Nat) (inds : List Individual) : Prop where
  ids : inds.map (·.id) = (List.range' i count).map (individualId generation)
  fresh : ∀ ind ∈ inds, ind.evaluated = false

theorem Numbered.nil (generation i : Nat) : Numbered generation i 0 [] := ⟨rfl, fun _ h => by cases h⟩

theorem Numbered.cons {generation i count : Nat} {ind : Individual} {inds : List Individual}
    (hind : Named (individualId generation i) ind) (hinds : Numbered generation (i + 1) count inds) :
    Numbered generation i (count + 1) (ind :: inds) := by
  refine ⟨?_, List.forall_mem_cons.mpr ⟨hind.fresh, hinds.fresh⟩⟩
  rw [List.range'_succ, List.map_cons, List.map_cons, hind.id, hinds.ids]

theorem Numbered.length {generation i count : Nat} {inds : List Individual} (h : Numbered generation i count inds) :
    inds.length = count := by
  have := congrArg List.length h.ids
  rwa [List.length_map, List.length_map, List.length_range'] at this

theorem new_named (id : String) (programs : List Expr) :
    Returns (fun _ => True) (Named id) (settled .strategy (Individual.new id programs)) := by
  refine settled_returns .strategy fun ind hind => ?_
  obtain ⟨-, -, rfl⟩ := (new_iff id programs ind).mp hind
  exact ⟨rfl, rfl⟩

theorem mutant_named (ind : Individual) (id : String) (rate : Float) :
    Returns (fun _ => True) (Named id) (ind.mutant id rate) :=
  .bind (.any _) fun programs _ => new_named id programs

theorem cross_named (a b : Individual) (ids : String × String) (rate : Float) :
    Returns (fun _ => True) (fun children => Named ids.1 children.1 ∧ Named ids.2 children.2) (a.cross b ids rate) := by
  refine .bind (.draw (.any _)) fun slot _ => .bind (.draw (.any _)) fun result _ => .bind (.any _) fun crossed _ => ?_
  refine .bind (.any _) fun left _ => .bind (.any _) fun right _ => ?_
  exact .bind (new_named _ left) fun first hfirst => .bind (new_named _ right) fun second hsecond =>
    .pure ⟨hfirst, hsecond⟩

/-! ## The individuals of a generation -/

theorem founders_numbered (progenitor : Individual) (rate : Float) (count i : Nat) :
    Returns (fun _ => True) (Numbered 0 i count) (Population.founders progenitor rate count i) := by
  induction count generalizing i with
  | zero => exact .pure (.nil 0 i)
  | succ count ih =>
    exact .bind (mutant_named progenitor _ rate) fun ind hind => .bind (ih (i + 1)) fun rest hrest =>
      .pure (.cons hind hrest)

theorem pickParents_length (selector : Selector) (individuals : List Individual) (fallback : Individual) (count : Nat) :
    Returns (fun _ => True) (fun parents => parents.length = count)
      (pickParents selector individuals fallback count) := by
  induction count with
  | zero => exact .pure rfl
  | succ count ih =>
    refine .bind (.draw (.any _)) fun picked _ => ?_
    cases picked with
    | error e => exact .throw trivial
    | ok i => exact .bind ih fun rest hrest => .pure (congrArg (· + 1) hrest)

/-- Of parents that can all be paired there are as many children. -/
theorem reproduce_numbered (rate : Float) (generation i : Nat) (parents : List Individual)
    (heven : parents.length % 2 = 0) :
    Returns (fun _ => True) (Numbered generation i parents.length) (reproduce rate generation i parents) := by
  fun_induction reproduce rate generation i parents with
  | case1 i a b rest ih =>
    rw [List.length_cons, List.length_cons] at heven ⊢
    refine .bind (.draw (cross_named a b _ rate).gives) fun crossed hcrossed => ?_
    cases crossed with
    | error e => exact .throw trivial
    | ok children =>
      obtain ⟨hfirst, hsecond⟩ := hcrossed.2 children rfl
      exact .bind (ih (by omega)) fun others hothers => .pure (.cons hfirst (.cons hsecond hothers))
  | case2 parents i hshort =>
    rcases parents with _ | ⟨a, _ | ⟨b, rest⟩⟩
    · exact .pure (.nil generation i)
    · cases heven
    · exact absurd rfl (hshort a b rest)

theorem offspring_numbered (p : Population) {first : Individual} {others next : List Individual}
    (heven : (first :: others).length % 2 = 0) (h : p.offspring first others = .ok next) :
    Numbered (p.generation + 1) 0 (first :: others).length next := by
  have hbreed : Returns (fun _ => True) (Numbered (p.generation + 1) 0 (first :: others).length) (do
      let parents ← pickParents p.selector (first :: others) first (first :: others).length
      reproduce p.rate (p.generation + 1) 0 parents : Reproduces (List Individual)) := by
    refine .bind (pickParents_length p.selector _ _ _) fun parents hparents => ?_
    rw [← hparents] at heven ⊢
    exact reproduce_numbered p.rate _ 0 parents heven
  exact (hbreed.gives _).2 next h

end Forager.Breeding
