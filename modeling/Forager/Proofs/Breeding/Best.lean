import Forager.Proofs.Breeding.Retry
import Forager.Proofs.Number.Order

/-!
# The best individual so far

* `FirstFittest inds best` : the first of the fittest individuals of a list; `FirstFittest.append` : how to find it in
  two parts, as both the summary of a generation and the population do;
* `Greatest`, `Least` : the greatest and the least of some doubles; `summarize_extremes` : a generation reports those of
  its individuals;
* `Succession p gs q` : what comes of a population that completes the generations `gs`, in whichever order their
  matches were played; `Champion gs best` : what holds of the best individual after the generations `gs`
  (`Succession.champion`);
* `namesFrom size generation count` : the names of generations in a row, all different; `Succession.names` : these are
  the names of all who were evaluated and of those who are next;
* `Headcount p` : a population whose fitness values are all the same;
* `succession_best` : the best individual is the first of the fittest of all generations.
-/

namespace Forager.Breeding

set_option autoImplicit false

/-- Individuals whose fitness is a number. -/
def Scored (inds : List Individual) : Prop := ∀ ind ∈ inds, ind.fitness.isNaN = false

/-- The first of the fittest individuals: all before it are less fit, and none after it is fitter. -/
def FirstFittest (inds : List Individual) (best : Individual) : Prop :=
  ∃ before after, inds = before ++ best :: after ∧ (∀ ind ∈ before, ind.fitness < best.fitness) ∧
    ∀ ind ∈ after, ind.fitness ≤ best.fitness

namespace FirstFittest

theorem single (ind : Individual) : FirstFittest [ind] ind := ⟨[], [], rfl, by simp, by simp⟩

variable {xs ys : List Individual} {b c : Individual}

theorem mem (h : FirstFittest xs b) : b ∈ xs := by
  obtain ⟨before, after, rfl, -, -⟩ := h
  simp

theorem le (h : FirstFittest xs b) (hxs : Scored xs) : ∀ ind ∈ xs, ind.fitness ≤ b.fitness := by
  have hb := hxs b h.mem
  obtain ⟨before, after, rfl, hbefore, hafter⟩ := h
  intro ind hind
  rcases List.mem_append.mp hind with hmem | hmem
  · exact Number.Order.le_of_lt (hxs ind hind) hb (hbefore ind hmem)
  · rcases List.mem_cons.mp hmem with rfl | hmem
    · exact Number.Order.le_self hb
    · exact hafter ind hmem

/-- The first of the fittest of two lists is that of the second only if it is fitter than that of the first. -/
theorem append (hb : FirstFittest xs b) (hc : FirstFittest ys c) (hxs : Scored xs) (hys : Scored ys) :
    FirstFittest (xs ++ ys) (if c.fitness > b.fitness then c else b) := by
  have hbnum := hxs b hb.mem
  have hcnum := hys c hc.mem
  have hble := hb.le hxs
  have hcle := hc.le hys
  split
  · -- All of the first list are at most as fit as `b`, and `b` is less fit than `c`.
    rename_i hlt
    obtain ⟨before, after, rfl, hbefore, hafter⟩ := hc
    refine ⟨xs ++ before, after, by simp, fun ind hind => ?_, hafter⟩
    rcases List.mem_append.mp hind with hind | hind
    · exact Number.Order.lt_of_le_of_lt (hxs ind hind) hbnum hcnum (hble ind hind) hlt
    · exact hbefore ind hind
  · -- All of the second list are at most as fit as `c`, and `c` is at most as fit as `b`.
    rename_i hnot
    obtain ⟨before, after, rfl, hbefore, hafter⟩ := hb
    refine ⟨before, after ++ ys, by simp, hbefore, fun ind hind => ?_⟩
    rcases List.mem_append.mp hind with hind | hind
    · exact hafter ind hind
    · exact Number.Order.le_trans (hys ind hind) hcnum hbnum (hcle ind hind)
        (Number.Order.le_of_not_lt hbnum hcnum hnot)

-- The list that was scanned already, `xs`, grows by one individual at each step.
theorem scan (hb : FirstFittest xs b) (h : Scored (xs ++ ys)) : FirstFittest (xs ++ ys) (fittestFrom b ys) := by
  induction ys generalizing xs b with
  | nil =>
    rw [List.append_nil]
    exact hb
  | cons ind ys ih =>
    have hxs : Scored xs := fun i hi => h i (by simp [hi])
    have hind : Scored [ind] := fun i hi => h i (by simp [List.mem_singleton.mp hi])
    rw [List.append_cons] at h ⊢
    exact ih (hb.append (.single ind) hxs hind) h

end FirstFittest

/-! ## Summaries -/

def Greatest (xs : List Float) (x : Float) : Prop := x ∈ xs ∧ ∀ y ∈ xs, y ≤ x

def Least (xs : List Float) (x : Float) : Prop := x ∈ xs ∧ ∀ y ∈ xs, x ≤ y

theorem FirstFittest.greatest {inds : List Individual} {best : Individual} (h : FirstFittest inds best)
    (hinds : Scored inds) : Greatest (inds.map (·.fitness)) best.fitness :=
  ⟨List.mem_map_of_mem h.mem, List.forall_mem_map.mpr (h.le hinds)⟩

theorem Least.push {xs : List Float} {least x : Float} (h : Least xs least) (hxs : ∀ y ∈ xs, y.isNaN = false)
    (hx : x.isNaN = false) : Least (xs ++ [x]) (if x < least then x else least) := by
  have hleast := hxs least h.1
  split
  · rename_i hlt
    refine ⟨by simp, fun y hy => ?_⟩
    rcases List.mem_append.mp hy with hy | hy
    · exact Number.Order.le_trans hx hleast (hxs y hy) (Number.Order.le_of_lt hx hleast hlt) (h.2 y hy)
    · rw [List.mem_singleton.mp hy]
      exact Number.Order.le_self hx
  · rename_i hnot
    refine ⟨List.mem_append_left _ h.1, fun y hy => ?_⟩
    rcases List.mem_append.mp hy with hy | hy
    · exact h.2 y hy
    · rw [List.mem_singleton.mp hy]
      exact Number.Order.le_of_not_lt hx hleast hnot

theorem Least.scan {xs : List Float} {least : Float} {rest : List Individual} (h : Least xs least)
    (hxs : ∀ x ∈ xs, x.isNaN = false) (hrest : Scored rest) :
    Least (xs ++ rest.map (·.fitness)) (leastFitnessFrom least rest) := by
  induction rest generalizing xs least with
  | nil =>
    rw [List.map_nil, List.append_nil]
    exact h
  | cons ind rest ih =>
    obtain ⟨hind, hrest⟩ := List.forall_mem_cons.mp hrest
    rw [List.map_cons, List.append_cons]
    exact ih (h.push hxs hind) (List.forall_mem_append.mpr ⟨hxs, List.forall_mem_singleton.mpr hind⟩) hrest

/-- What a generation says about the fitness of its individuals. -/
structure Generation.Extremes (g : Generation) : Prop where
  fittest : FirstFittest g.individuals g.fittest
  fitness : g.max = g.fittest.fitness
  max : Greatest (g.individuals.map (·.fitness)) g.max
  min : Least (g.individuals.map (·.fitness)) g.min

theorem summarize_extremes (index : Nat) (repeats : Int) {first : Individual} {others : List Individual}
    (h : Scored (first :: others)) : (summarize index repeats first others).Extremes := by
  have hfittest : FirstFittest (first :: others) (fittestFrom first others) := (FirstFittest.single first).scan h
  obtain ⟨hfirst, hothers⟩ := List.forall_mem_cons.mp h
  have hleast : Least [first.fitness] first.fitness :=
    ⟨List.mem_singleton_self _, List.forall_mem_singleton.mpr (Number.Order.le_self hfirst)⟩
  exact ⟨hfittest, rfl, hfittest.greatest h, hleast.scan (List.forall_mem_singleton.mpr hfirst) hothers⟩

/-! ## Runs -/

/-- The best individual after the generations `gs`, if there was any. -/
def Champion (gs : List Generation) : Option Individual → Prop
  | none => gs = []
  | some best => FirstFittest (gs.flatMap (·.individuals)) best ∧ ∃ g ∈ gs, g.fittest = best

theorem scored_flatMap {gs : List Generation} (h : ∀ g ∈ gs, Scored g.individuals) :
    Scored (gs.flatMap (·.individuals)) := by
  intro ind hind
  obtain ⟨g, hg, hmem⟩ := List.mem_flatMap.mp hind
  exact h g hg ind hmem

theorem Champion.improve {gs : List Generation} {best : Option Individual} {g : Generation} (h : Champion gs best)
    (hgs : Scored (gs.flatMap (·.individuals))) (hg : g.Extremes) (hscored : Scored g.individuals) :
    Champion (gs ++ [g]) (some (Population.improve best g.fittest)) := by
  cases best with
  | none =>
    cases h
    refine ⟨?_, g, by simp, rfl⟩
    rw [List.nil_append, List.flatMap_singleton]
    exact hg.fittest
  | some b =>
    obtain ⟨hfirst, g', hg', hfittest⟩ := h
    rw [Champion, List.flatMap_append, List.flatMap_singleton]
    refine ⟨hfirst.append hg.fittest hgs hscored, ?_⟩
    rw [Population.improve]
    split
    · exact ⟨g, by simp, rfl⟩
    · exact ⟨g', by simp [hg'], hfittest⟩

theorem new_best {s : Setup} {p : Population} (h : Population.new s = .ok p) : p.best = none := by
  obtain ⟨_, _, _, _, _, -, -, -, -, -, -, -, -, rfl⟩ := new_ok h
  rfl

theorem new_generation {s : Setup} {p : Population} (h : Population.new s = .ok p) : p.generation = 0 := by
  obtain ⟨_, _, _, _, _, -, -, -, -, -, -, -, -, rfl⟩ := new_ok h
  rfl

/-- `q` comes of `p` by completing the generation `g`, whose individuals were evaluated in order or by a schedule. -/
inductive Completes (p : Population) (g : Generation) : Population → Prop where
  | inOrder {σ : Type} {observers : List (Observer σ)} {deadline : Deadline} {s : σ}
      (h : (p.evolve observers deadline s).1.result = .ok g) :
      Completes p g (p.evolve observers deadline s).1.population
  | scheduled {σ : Type} {observers : List (Observer σ)} {s : σ} {workers : Int} {trials : Trials}
      (hschedule : p.Disturbed workers trials) (hended : trials.Ended)
      (h : (p.evolveAfter trials observers s).1.result = .ok g) :
      Completes p g (p.evolveAfter trials observers s).1.population

/-- `q` comes of `p` by completing the generations `gs`, one after another. -/
inductive Succession (p : Population) : List Generation → Population → Prop where
  | start : Succession p [] p
  | next {gs : List Generation} {q r : Population} {g : Generation} (h : Succession p gs q) (hg : Completes q g r) :
      Succession p (gs ++ [g]) r

theorem announce_ok {σ : Type} {a : Attempt} {observers : List (Observer σ)} {s : σ} {g : Generation}
    (h : (a.announce observers s).1.result = .ok g) : a.result = .ok g := by
  unfold Attempt.announce at h
  split at h
  · exact h
  · split at h
    · exact h
    · cases h

/-- What a completed generation comes of after its evaluation, and what it leaves. -/
theorem conclude_ok {p : Population} {failure : Option EvaluationError} {individuals : List Individual}
    {playing : Playing} {g : Generation} (h : (p.conclude failure individuals playing).result = .ok g) :
    ∃ first others next, individuals = first :: others ∧ p.offspring first others = .ok next ∧
      g = summarize p.generation p.repeats first others ∧
      (p.conclude failure individuals playing).population = { p with
        individuals := next, played := playing.before, generation := p.generation + 1,
        best := some (Population.improve p.best g.fittest) } := by
  unfold Population.conclude at h ⊢
  dsimp only at h ⊢
  split at h
  · cases h
  · cases h
  · rename_i first others
    cases hnext : p.offspring first others with
    | error e =>
      rw [hnext] at h
      cases h
    | ok next =>
      rw [hnext] at h
      cases h
      exact ⟨first, others, next, rfl, hnext, rfl, rfl⟩

section

variable {p q : Population} {gs : List Generation}

theorem Completes.best {g : Generation} (h : Completes p g q) (hg : Scored g.individuals) :
    g.Extremes ∧ q.best = some (Population.improve p.best g.fittest) := by
  -- Whatever the evaluation came to, the rest of the generation is the same.
  have hconclude : ∀ {failure individuals playing}, (p.conclude failure individuals playing).result = .ok g →
      g.Extremes ∧ (p.conclude failure individuals playing).population.best =
        some (Population.improve p.best g.fittest) := by
    intro failure individuals playing hresult
    obtain ⟨first, others, next, -, -, rfl, hleft⟩ := conclude_ok hresult
    rw [hleft]
    exact ⟨summarize_extremes _ _ hg, rfl⟩
  cases h with
  | inOrder h =>
    rw [evolve_eq, announce_population, advance_eq]
    exact hconclude (announce_ok h)
  | scheduled _ _ h =>
    rw [Population.evolveAfter, announce_population]
    exact hconclude (announce_ok h)

theorem Succession.champion (h : Succession p gs q) (hbest : p.best = none) (hgs : ∀ g ∈ gs, Scored g.individuals) :
    Champion gs q.best ∧ ∀ g ∈ gs, g.Extremes := by
  induction h with
  | start =>
    rw [hbest]
    exact ⟨rfl, fun g hg => by cases hg⟩
  | @next gs q r g _ hg ih =>
    obtain ⟨hold, hnew⟩ := List.forall_mem_append.mp hgs
    have hscored := hnew g List.mem_cons_self
    obtain ⟨hchampion, hextremes⟩ := ih hold
    obtain ⟨hextreme, hleft⟩ := hg.best hscored
    rw [hleft]
    refine ⟨hchampion.improve (scored_flatMap hold) hextreme hscored, ?_⟩
    exact List.forall_mem_append.mpr ⟨hextremes, List.forall_mem_singleton.mpr hextreme⟩

/-- A best individual stays the best until a fitter one comes. -/
theorem Succession.best_kept (h : Succession p gs q) {best : Individual} (hbest : p.best = some best)
    (hnum : best.fitness.isNaN = false) (hgs : ∀ g ∈ gs, Scored g.individuals) :
    ∃ b, q.best = some b ∧ b.fitness.isNaN = false ∧ (b = best ∨ best.fitness < b.fitness) := by
  induction h with
  | start => exact ⟨best, hbest, hnum, .inl rfl⟩
  | @next gs q r g _ hg ih =>
    obtain ⟨hold, hnew⟩ := List.forall_mem_append.mp hgs
    have hscored := hnew g List.mem_cons_self
    obtain ⟨b, hb, hbnum, hsame⟩ := ih hold
    obtain ⟨hextreme, hleft⟩ := hg.best hscored
    rw [hleft, hb, Population.improve]
    split
    · rename_i hlt
      have hfittest := hscored _ hextreme.fittest.mem
      refine ⟨g.fittest, rfl, hfittest, .inr ?_⟩
      rcases hsame with rfl | hless
      · exact hlt
      · exact Number.Order.lt_of_le_of_lt hnum hbnum hfittest (Number.Order.le_of_lt hnum hbnum hless) hlt
    · exact ⟨b, rfl, hbnum, hsame⟩

end

/-! ## Names -/

/-- The names of as many generations, from one on. -/
def namesFrom (size generation count : Nat) : List String :=
  (List.range' generation count).flatMap fun k => (List.range' 0 size).map (individualId k)

/-- **No name is given twice.** -/
theorem nodup_namesFrom (size generation count : Nat) : (namesFrom size generation count).Nodup := by
  refine List.nodup_flatMap.mpr ⟨fun k _ => ?_, ?_⟩
  · exact List.Nodup.map (fun i j h => (individualId_inj.mp h).2) List.nodup_range'
  · refine List.Pairwise.imp (fun {k l} hkl => List.disjoint_left.mpr fun name hk hl => ?_) List.nodup_range'
    obtain ⟨i, -, rfl⟩ := List.mem_map.mp hk
    obtain ⟨j, -, h⟩ := List.mem_map.mp hl
    exact hkl (individualId_inj.mp h).1.symm

section

variable {p q r : Population} {gs gs' : List Generation} {size : Nat}

theorem Completes.numbered {g : Generation} (h : Completes p g q) (heven : size % 2 = 0)
    (hp : Numbered p.generation 0 size p.individuals) :
    g.individuals.map (·.id) = p.individuals.map (·.id) ∧ q.generation = p.generation + 1 ∧
      Numbered q.generation 0 size q.individuals := by
  -- Evaluations leave the names as they are, in whichever order they are made.
  have hconclude : ∀ {failure individuals playing}, (p.conclude failure individuals playing).result = .ok g →
      individuals.map (·.identity) = p.individuals.map (·.identity) →
      g.individuals.map (·.id) = p.individuals.map (·.id) ∧
        (p.conclude failure individuals playing).population.generation = p.generation + 1 ∧
        Numbered (p.conclude failure individuals playing).population.generation 0 size
          (p.conclude failure individuals playing).population.individuals := by
    intro failure individuals playing hresult hidentities
    obtain ⟨first, others, next, rfl, hnext, rfl, hleft⟩ := conclude_ok hresult
    have hids : (first :: others).map (·.id) = p.individuals.map (·.id) := by
      have hfirsts := congrArg (List.map Prod.fst) hidentities
      rwa [List.map_map, List.map_map] at hfirsts
    have hsize : (first :: others).length = size := by
      rw [← hp.length]
      simpa only [List.length_map] using congrArg List.length hids
    rw [hleft]
    exact ⟨hids, rfl, hsize ▸ offspring_numbered p (hsize ▸ heven) hnext⟩
  cases h with
  | inOrder h =>
    rw [evolve_eq, announce_population, advance_eq]
    exact hconclude (announce_ok h) (map_evaluateAll (fun _ _ _ _ => rfl) _ _ _ _ _ _)
  | scheduled hschedule _ h =>
    rw [Population.evolveAfter, announce_population]
    exact hconclude (announce_ok h) hschedule.identities

theorem Succession.trans (h : Succession p gs q) (h' : Succession q gs' r) : Succession p (gs ++ gs') r := by
  induction h' with
  | start => rwa [List.append_nil]
  | next _ hg ih =>
    rw [← List.append_assoc]
    exact .next ih hg

/-- The names of all that were evaluated, and of those who are next. -/
theorem Succession.names (h : Succession p gs q) (heven : size % 2 = 0)
    (hp : Numbered p.generation 0 size p.individuals) :
    (q.generation = p.generation + gs.length ∧ Numbered q.generation 0 size q.individuals) ∧
      (gs.flatMap (·.individuals) ++ q.individuals).map (·.id) = namesFrom size p.generation (gs.length + 1) := by
  induction h with
  | start =>
    refine ⟨⟨rfl, hp⟩, ?_⟩
    simp [namesFrom, hp.ids]
  | @next gs q r g _ hg ih =>
    obtain ⟨⟨hgeneration, hq⟩, hnames⟩ := ih
    obtain ⟨hids, hnext, hr⟩ := hg.numbered heven hq
    refine ⟨⟨?_, hr⟩, ?_⟩
    · rw [hnext, hgeneration, List.length_append, List.length_singleton, Nat.add_assoc]
    · have hlast : r.individuals.map (·.id) = namesFrom size (p.generation + (gs.length + 1)) 1 := by
        rw [hr.ids, hnext, hgeneration]
        simp [namesFrom, Nat.add_assoc]
      rw [List.flatMap_append, List.flatMap_singleton, List.map_append, List.map_append, hids, ← List.map_append,
        hnames, hlast, List.length_append, List.length_singleton, namesFrom, namesFrom, ← List.flatMap_append,
        List.range'_append_1]
      rfl

theorem Succession.nodup (h : Succession p gs q) (heven : size % 2 = 0)
    (hp : Numbered p.generation 0 size p.individuals) :
    ((gs.flatMap (·.individuals) ++ q.individuals).map (·.id)).Nodup := by
  rw [(h.names heven hp).2]
  exact nodup_namesFrom _ _ _

/-- Nobody has the name of one who was evaluated before. -/
theorem Succession.name_ne (h : Succession p gs q) (h' : Succession q gs' r) (heven : size % 2 = 0)
    (hp : Numbered p.generation 0 size p.individuals) {old : Individual} (hold : old ∈ gs.flatMap (·.individuals)) :
    ∀ ind ∈ gs'.flatMap (·.individuals) ++ r.individuals, ind.id ≠ old.id := by
  intro ind hind hsame
  have hnodup := (h.trans h').nodup heven hp
  rw [List.flatMap_append, List.append_assoc, List.map_append, List.nodup_append] at hnodup
  exact hnodup.2.2 _ (List.mem_map_of_mem hold) _ (List.mem_map_of_mem hind) hsame.symm

end

/-! ## Idle programs, counted -/

def headcount : Setup where
  simulator := some census
  baseline := some (.default "baseline")
  progenitor := some (.default "progenitor")
  size := 2
  repeats := 1

/-- What holds of the populations that come of it. -/
structure Headcount (p : Population) : Prop where
  simulator : p.simulator = census
  selector : p.selector = .roulette
  opponent : p.opponent = [.idle]
  standing : Standing 2 1 1 p
  idle : ∀ ind ∈ p.individuals, IsIdle 1 ind

theorem new_headcount : ∃ p, Population.new headcount = .ok p ∧ p.generation = 0 ∧ Headcount p := by
  obtain ⟨p, hnew, hsim, hopponent, -, -, hidle⟩ := new_of_idle (s := headcount) Nat.one_pos rfl rfl rfl (by decide)
    (by decide +kernel) (by decide) ⟨rfl, List.forall_mem_singleton.mpr rfl⟩
  obtain ⟨-, -, -, hstart, hstanding⟩ := new_standing (s := headcount) rfl hnew
  exact ⟨p, hnew, hstart, hsim, new_selector hnew, hopponent, hstanding, hidle⟩

theorem Headcount.alone {p : Population} (h : Headcount p) {ind : Individual} (hind : IsIdle 1 ind) :
    p.course.alone ind = .ok { ind with fitness := 1, evaluated := true, aborted := 0 } := by
  obtain ⟨id, programs, fitness, evaluated, aborted⟩ := ind
  obtain ⟨e, rfl⟩ := List.length_eq_one_iff.mp hind.length
  unfold Population.course Course.alone
  rw [h.simulator, h.opponent, h.standing.repeats]
  have hone : (0 + Float.ofNat 1) / Float.ofInt 1 = (1 : Float) := by decide +kernel
  change Except.ok (⟨id, [e], (0 + Float.ofNat 1) / Float.ofInt 1, true, 0⟩ : Individual) = _
  rw [hone]

theorem Headcount.evolve {p : Population} (h : Headcount p) :
    ∃ g, (p.evolve [] .never ()).1.result = .ok g ∧ Headcount (p.evolve [] .never ()).1.population ∧
      g.individuals.map (·.id) = p.individuals.map (·.id) ∧ ∀ ind ∈ g.individuals, ind.fitness = 1 := by
  have hlength := h.standing.numbered.length
  obtain ⟨g, hg, hidle⟩ := advance_idle Nat.one_pos (h.simulator ▸ responds_census)
    (h.selector ▸ Selector.sure_roulette) (h.opponent ▸ List.forall_mem_singleton.mpr .idle)
    (h.standing.repeats ▸ le_rfl) (List.ne_nil_of_length_pos (by omega)) h.idle
  have hresult : (p.evolve [] .never ()).1.result = .ok g := by
    rw [evolve_nil]
    exact hg
  obtain ⟨-, hstanding, -⟩ := h.standing.evolve (by decide) Nat.one_pos hresult
  obtain ⟨first, others, playing, next, hall, -, rfl, hleft⟩ := advance_ok hg
  have halone : List.Forall₂ (fun ind ind' => p.course.alone ind = .ok ind') p.individuals
      (p.individuals.map fun ind => { ind with fitness := 1, evaluated := true, aborted := 0 }) := by
    rw [List.forall₂_map_right_iff, List.forall₂_same]
    exact fun ind hind => h.alone (h.idle ind hind)
  obtain ⟨playing', hcounted, -⟩ := evaluateAll_of_alone (c := p.course) (h.simulator ▸ plays_census) halone
    ⟨p.played, .never, []⟩ rfl
  -- The individuals of the generation are those of the population, each with the fitness it has on its own.
  have hinds : first :: others = _ := congrArg (·.2.1) (hall.symm.trans hcounted)
  refine ⟨_, hresult, ⟨?_, ?_, ?_, hstanding, ?_⟩, ?_, ?_⟩
  · rw [evolve_nil, hleft]
    exact h.simulator
  · rw [evolve_nil, hleft]
    exact h.selector
  · rw [evolve_nil, hleft]
    exact h.opponent
  · rw [evolve_nil]
    exact hidle
  · change (first :: others).map _ = _
    rw [hinds, List.map_map]
    rfl
  · change ∀ ind ∈ first :: others, _
    rw [hinds, List.forall_mem_map]
    exact fun _ _ => rfl

/-! ## The best of all generations -/

/-- **The best individual so far.** After at least one completed generation, however the matches were scheduled, if all
fitness values are numbers, the best individual is the first of the fittest individuals of all generations, with the
fitness it had there, which is the greatest of the maxima. It stays so until a fitter one comes, and nobody is evaluated
under its name again: all who were evaluated, and all who are next, have different names. Each generation reports the
greatest and the least fitness of its individuals, and the first of the fittest. -/
theorem succession_best (s : Setup) (p q : Population) (gs : List Generation) (hnew : Population.new s = .ok p)
    (h : Succession p gs q) (hne : gs ≠ []) (hgs : ∀ g ∈ gs, ∀ ind ∈ g.individuals, ind.fitness.isNaN = false) :
    (∃ best, q.best = some best ∧ FirstFittest (gs.flatMap (·.individuals)) best ∧
      Greatest (gs.map (·.max)) best.fitness ∧
      ∀ gs' r, Succession q gs' r → (∀ g ∈ gs', ∀ ind ∈ g.individuals, ind.fitness.isNaN = false) →
        (r.best = some best ∨ ∃ b, r.best = some b ∧ best.fitness < b.fitness) ∧
        ∀ ind ∈ gs'.flatMap (·.individuals) ++ r.individuals, ind.id ≠ best.id) ∧
    ((gs.flatMap (·.individuals) ++ q.individuals).map (·.id)).Nodup ∧
    ∀ g ∈ gs, FirstFittest g.individuals g.fittest ∧ g.max = g.fittest.fitness ∧
      Greatest (g.individuals.map (·.fitness)) g.max ∧ Least (g.individuals.map (·.fitness)) g.min := by
  obtain ⟨hchampion, hextremes⟩ := h.champion (new_best hnew) hgs
  obtain ⟨_, _, _, _, _, -, -, hprogenitor, -⟩ := new_ok hnew
  obtain ⟨-, heven, -, -, hstanding⟩ := new_standing hprogenitor hnew
  have heven : s.size.toNat % 2 = 0 := by omega
  refine ⟨?_, h.nodup heven hstanding.numbered, fun g hg =>
    ⟨(hextremes g hg).fittest, (hextremes g hg).fitness, (hextremes g hg).max, (hextremes g hg).min⟩⟩
  cases hbest : q.best with
  | none =>
    rw [hbest] at hchampion
    exact absurd hchampion hne
  | some best =>
    rw [hbest] at hchampion
    obtain ⟨hfirst, g, hg, rfl⟩ := hchampion
    have hscored := scored_flatMap hgs
    refine ⟨g.fittest, rfl, hfirst, ⟨?_, ?_⟩, fun gs' r hr hgs' => ?_⟩
    · rw [← (hextremes g hg).fitness]
      exact List.mem_map_of_mem hg
    · refine List.forall_mem_map.mpr fun g' hg' => ?_
      rw [(hextremes g' hg').fitness]
      exact hfirst.le hscored _ (List.mem_flatMap.mpr ⟨g', hg', (hextremes g' hg').fittest.mem⟩)
    · refine ⟨?_, h.name_ne hr heven hstanding.numbered hfirst.mem⟩
      obtain ⟨b, hb, -, rfl | hlt⟩ := hr.best_kept hbest (hscored _ hfirst.mem) hgs'
      · exact .inl hb
      · exact .inr ⟨b, hb, hlt⟩

theorem succession_best_headcount :
    ∃ p g g' q best, Population.new headcount = .ok p ∧ Succession p [g, g'] q ∧ q.best = some best ∧
      best.id = "g0-i0" ∧ best.fitness = 1 ∧ g'.max = 1 := by
  obtain ⟨p, hnew, hstart, hp⟩ := new_headcount
  obtain ⟨g, hg, hq, hids, hones⟩ := hp.evolve
  obtain ⟨g', hg', -, -, hones'⟩ := hq.evolve
  have hcompleted : Succession p [g, g'] _ := .next (.next .start (.inOrder hg)) (.inOrder hg')
  have hfitness : ∀ ind ∈ g.individuals ++ g'.individuals, ind.fitness = 1 := List.forall_mem_append.mpr ⟨hones, hones'⟩
  have hnan : (1 : Float).isNaN = false := by decide
  obtain ⟨⟨best, hbest, hfirst, -⟩, -, hextremes⟩ := succession_best headcount p _ [g, g'] hnew hcompleted (by simp) (by
    simp only [List.forall_mem_cons]
    exact ⟨fun ind hind => (hones ind hind) ▸ hnan, fun ind hind => (hones' ind hind) ▸ hnan, by simp⟩)
  have hflat : [g, g'].flatMap (·.individuals) = g.individuals ++ g'.individuals := by simp
  rw [hflat] at hfirst
  have hone := hfitness best hfirst.mem
  refine ⟨p, g, g', _, best, hnew, hcompleted, hbest, ?_, hone, ?_⟩
  · -- No individual is less fit than the best, so the best is the first of all.
    obtain ⟨before, after, hsplit, hbefore, -⟩ := hfirst
    cases before with
    | nil =>
      have hnames := congrArg (List.map (·.id)) hsplit
      rw [List.map_append, hids, hp.standing.numbered.ids, hstart] at hnames
      have hname : individualId 0 0 = "g0-i0" := by decide +kernel
      exact (List.cons.inj hnames).1.symm.trans hname
    | cons ind before =>
      have hless := hbefore ind List.mem_cons_self
      rw [hfitness ind (by simp [hsplit]), hone] at hless
      exact absurd hless (by decide)
  · obtain ⟨hfittest, hmax, -⟩ := hextremes g' (by simp)
    rw [hmax]
    exact hones' _ hfittest.mem

end Forager.Breeding
