import Forager.Proofs.Breeding.Evolution

/-!
# Generations in order

* `heritable_root` : mutation and crossover hand down the root of a program;
* `Standing` : what holds between two generations; `Standing.evolve` : it holds again after a completed one;
* `completed_standing` : of a population that completes its generations, how many individuals there are, what is listed,
  and who is next.
-/

namespace Forager.Breeding

set_option autoImplicit false

open Program

/-- A program is what is read as one. -/
theorem heritable_root (rate : Float) : Heritable rate (fun _ => True) (fun e => e.kind = .step) where
  root _ h := h
  mutant slot e _ := by
    refine .bind (.draw (.any _)) fun mutant? _ => ?_
    cases mutant? with
    | none => exact .throw trivial
    | some m =>
      dsimp only
      cases hparse : parseProgram m.print with
      | error x => exact .throw trivial
      | ok e' => exact .pure (parseProgram_iff.mp hparse).2
  crossed a b _ _ := by
    intro s
    have hread : ∀ slot text, Returns (fun _ => True) (fun e : Expr => e.kind = .step) (readCrossed slot text) :=
      fun slot text => settled_returns (.crossed slot) fun e he => (parseProgram_iff.mp he).2
    exact settled_returns .swap fun crossed _ slot => ⟨hread slot _, hread slot _⟩

/-! ## Populations -/

/-- What makes an individual, apart from its evaluation. -/
def Individual.identity (ind : Individual) : String × List Expr := (ind.id, ind.programs)

/-- A completed generation sums up the individuals of the population, all of them evaluated. -/
structure Generation.Reports (g : Generation) (p : Population) : Prop where
  index : g.index = p.generation
  individuals : g.individuals.map (·.identity) = p.individuals.map (·.identity)
  evaluated : ∀ ind ∈ g.individuals, ind.evaluated = true
  evaluations : g.evaluations = p.individuals.length * p.repeats

/-- A population between two generations: `size` new individuals in order, with `n` programs each. -/
structure Standing (size n : Nat) (repeats : Int) (p : Population) : Prop where
  repeats : p.repeats = repeats
  numbered : Numbered p.generation 0 size p.individuals
  carries : ∀ ind ∈ p.individuals, Carries (fun e => e.kind = .step) n ind

theorem new_standing {s : Setup} {progenitor : Individual} {p : Population}
    (hprogenitor : s.progenitor = some progenitor) (hnew : Population.new s = .ok p) :
    0 < s.size ∧ s.size % 2 = 0 ∧ 0 < progenitor.programs.length ∧ p.generation = 0 ∧
      Standing s.size.toNat progenitor.programs.length s.repeats p := by
  obtain ⟨_, _, _, others, src, -, -, hprogenitor', hpos, heven, hne, hroots, hothers, rfl⟩ := new_ok hnew
  cases hprogenitor.symm.trans hprogenitor'
  have hn := List.length_pos_of_ne_nil hne
  obtain ⟨-, -, hnumbered⟩ := founders_numbered progenitor s.rate _ 1 _ _ src trivial hothers
  obtain ⟨-, -, hcarries⟩ := founders_carry (heritable_root s.rate) hn ⟨rfl, hroots⟩ _ 1 _ _ src trivial hothers
  have hcount : s.size.toNat = s.size.toNat - 1 + 1 := by omega
  refine ⟨hpos, heven, hn, rfl, rfl, ?_, ?_⟩
  · rw [hcount]
    exact .cons ⟨rfl, rfl⟩ (hnumbered others rfl)
  · exact List.forall_mem_cons.mpr ⟨⟨rfl, hroots⟩, hcarries others rfl⟩

section

variable {size n : Nat} {repeats : Int} {p : Population}

/-- **After a completed generation** the next one stands in order, and what was completed reports this one. -/
theorem Standing.evolve (h : Standing size n repeats p) (heven : size % 2 = 0) (hn : 0 < n) {σ : Type}
    {observers : List (Observer σ)} {deadline : Deadline} {s : σ} {g : Generation}
    (hg : (p.evolve observers deadline s).1.result = .ok g) :
    (p.evolve observers deadline s).1.population.generation = p.generation + 1 ∧
      Standing size n repeats (p.evolve observers deadline s).1.population ∧ g.Reports p := by
  obtain ⟨hadvance, hpopulation⟩ := evolve_ok hg
  obtain ⟨first, others, playing, next, hall, hnext, rfl, hleft⟩ := advance_ok hadvance
  have hidentity := map_evaluateAll (f := Individual.identity) (fun _ _ _ _ => rfl) p.simulator p.opponent p.repeats
    p.matchSeed p.individuals ⟨p.played, deadline, []⟩
  have hprograms := programs_evaluateAll p.simulator p.opponent p.repeats p.matchSeed p.individuals
    ⟨p.played, deadline, []⟩
  rw [hall] at hidentity hprograms
  have hlength : (first :: others).length = p.individuals.length := by
    simpa only [List.length_map] using congrArg List.length hidentity
  have hcarries := carry_of_programs hprograms h.carries
  have hsize := hlength.trans h.numbered.length
  rw [hpopulation, hleft]
  refine ⟨rfl, ⟨h.repeats, ?_, ?_⟩, ⟨rfl, hidentity, evaluateAll_evaluated hall, ?_⟩⟩
  · have hnumbered := offspring_numbered p (by omega) hnext
    rwa [hsize] at hnumbered
  · exact (offspring_carry (F := fun _ => True) p (heritable_root p.rate) hn (fun _ _ _ _ => trivial) (.any _)
      hcarries).2 next hnext
  · rw [← hlength]
    rfl

/-- Parents who can all be paired, and of whom any two have a slot in common. -/
structure Pairable (parents : List Individual) : Prop where
  some : parents ≠ []
  even : parents.length % 2 = 0
  shared : ∀ a ∈ parents, ∀ b ∈ parents, 0 < min a.programs.length b.programs.length

/-- The parents of the next generation are drawn from the evaluated individuals, and can be paired. -/
theorem Standing.pickParents (h : Standing size n repeats p) (heven : size % 2 = 0) (hsize : 0 < size) (hn : 0 < n)
    {playing playing' : Playing} {failure : Option EvaluationError} {evaluated : List Individual}
    (hall : evaluateAll p.simulator p.opponent p.repeats p.matchSeed p.individuals playing =
      (failure, evaluated, playing'))
    {fallback : Individual} (hfallback : fallback ∈ evaluated) :
    Returns (fun _ => True) (fun parents => (∀ ind ∈ parents, ind ∈ evaluated) ∧ Pairable parents)
      (pickParents p.selector evaluated fallback evaluated.length) := by
  have hprograms := programs_evaluateAll p.simulator p.opponent p.repeats p.matchSeed p.individuals playing
  rw [hall] at hprograms
  have hlength : evaluated.length = size := by
    simpa only [List.length_map, h.numbered.length] using congrArg List.length hprograms
  have hcarries := carry_of_programs hprograms h.carries
  have hmembers : Returns (fun _ => True) (fun parents => ∀ ind ∈ parents, ind ∈ evaluated)
      (Breeding.pickParents p.selector evaluated fallback evaluated.length) :=
    pickParents_returns (.any _) (fun _ hind => hind) hfallback _
  refine (hmembers.and (pickParents_length p.selector evaluated fallback _)).mono fun parents hparents => ?_
  obtain ⟨hmem, hcount⟩ := hparents
  refine ⟨hmem, List.ne_nil_of_length_pos (by omega), by omega, fun a ha b hb => ?_⟩
  rw [(hcarries a (hmem a ha)).length, (hcarries b (hmem b hb)).length, Nat.min_self]
  exact hn

end

/-! ## Runs -/

theorem Completed.trans {p q r : Population} {gs hs : List Generation} (h : Completed p gs q) (h' : Completed q hs r) :
    Completed p (gs ++ hs) r := by
  induction h' with
  | start => rwa [List.append_nil]
  | evolve _ hg ih =>
    rw [← List.append_assoc]
    exact .evolve ih hg

theorem Completed.standing {size n : Nat} {repeats : Int} {p q : Population} {gs : List Generation}
    (h : Completed p gs q) (heven : size % 2 = 0) (hn : 0 < n) (hstart : p.generation = 0)
    (hp : Standing size n repeats p) :
    q.generation = gs.length ∧ gs.map (·.index) = List.range gs.length ∧ Standing size n repeats q := by
  induction h with
  | start => exact ⟨hstart, rfl, hp⟩
  | evolve _ hg ih =>
    obtain ⟨hgeneration, hindices, hq⟩ := ih
    obtain ⟨hnext, hstanding, hreports⟩ := hq.evolve heven hn hg
    rw [List.length_append, List.length_singleton, hnext, hgeneration, List.map_append, hindices, List.range_succ,
      List.map_singleton, hreports.index, hgeneration]
    exact ⟨rfl, rfl, hstanding⟩

/-- **Generations come in order.** After `k` completed generations, there are as many new individuals as at the start,
in order, with names of generation `k`, as many programs as the progenitor, and each rooted in a step. The next
completed generation has the index `k` and reports these individuals. Whenever parents are drawn from them, the parents
can be paired, and any two of them have a slot in common. -/
theorem completed_standing (s : Setup) (progenitor : Individual) (p q : Population) (gs : List Generation)
    (hprogenitor : s.progenitor = some progenitor) (hnew : Population.new s = .ok p) (h : Completed p gs q) :
    (q.generation = gs.length ∧ gs.map (·.index) = List.range gs.length) ∧
    (q.individuals.length : Int) = s.size ∧
    q.individuals.map (·.id) = (List.range q.individuals.length).map (individualId gs.length) ∧
    (∀ ind ∈ q.individuals, ind.evaluated = false ∧ ind.programs.length = progenitor.programs.length ∧
      ∀ e ∈ ind.programs, e.kind = .step) ∧
    (∀ (σ : Type) (observers : List (Observer σ)) (deadline : Deadline) (state : σ) (g : Generation),
      (q.evolve observers deadline state).1.result = .ok g →
        g.index = gs.length ∧ g.individuals.map (·.identity) = q.individuals.map (·.identity) ∧
        (∀ ind ∈ g.individuals, ind.evaluated = true) ∧ g.evaluations = s.size * s.repeats) ∧
    ∀ (deadline : Deadline) (evaluated : List Individual) (playing : Playing),
      evaluateAll q.simulator q.opponent q.repeats q.matchSeed q.individuals ⟨q.played, deadline, []⟩ =
        (none, evaluated, playing) →
      ∀ first ∈ evaluated, ∀ source parents rest,
        (pickParents q.selector evaluated first evaluated.length).run source = (.ok parents, rest) →
        (∀ ind ∈ parents, ind ∈ evaluated) ∧ Pairable parents := by
  obtain ⟨hpos, heven, hn, hstart, hp⟩ := new_standing hprogenitor hnew
  obtain ⟨hgeneration, hindices, hq⟩ := h.standing (by omega) hn hstart hp
  have hlength := hq.numbered.length
  refine ⟨⟨hgeneration, hindices⟩, by omega, ?_, fun ind hind => ?_, fun σ observers deadline state g hg => ?_, ?_⟩
  · rw [hq.numbered.ids, hlength, List.range_eq_range', hgeneration]
  · exact ⟨hq.numbered.fresh ind hind, (hq.carries ind hind).length, (hq.carries ind hind).programs⟩
  · obtain ⟨-, -, hreports⟩ := hq.evolve (by omega) hn hg
    refine ⟨hreports.index.trans hgeneration, hreports.individuals, hreports.evaluated, ?_⟩
    rw [hreports.evaluations, hq.repeats, hlength, Int.toNat_of_nonneg (by omega)]
  · intro deadline evaluated playing hall first hfirst source parents rest hparents
    exact (hq.pickParents (by omega) (by omega) hn hall hfirst source _ rest trivial hparents).2.2 parents rfl

/-- Three generations of four individuals with two programs each. -/
theorem completed_standing_lively :
    ∃ p gs q, Population.new lively = .ok p ∧ Completed p gs q ∧ gs.map (·.index) = [0, 1, 2] ∧ q.generation = 3 ∧
      q.individuals.map (·.id) = ["g3-i0", "g3-i1", "g3-i2", "g3-i3"] ∧
      ∀ ind ∈ q.individuals, ind.programs.length = 2 := by
  obtain ⟨p, hnew, henduring⟩ := new_lively
  obtain ⟨gs, q, hcount, hcompleted, -⟩ := henduring.exists_completed Nat.two_pos 3 (by decide)
  obtain ⟨⟨hgeneration, hindices⟩, hlength, hids, hinds, -⟩ := completed_standing lively _ p q gs rfl hnew hcompleted
  have hfour : q.individuals.length = 4 := Int.ofNat_inj.mp hlength
  have hnames : (List.range 4).map (individualId 3) = ["g3-i0", "g3-i1", "g3-i2", "g3-i3"] := by decide +kernel
  rw [hcount] at hgeneration hindices hids
  rw [hfour] at hids
  exact ⟨p, gs, q, hnew, hcompleted, hindices, hgeneration, hids.trans hnames, fun ind hind => (hinds ind hind).2.1⟩

end Forager.Breeding
