import Forager.Breeding.Population
import Forager.Proofs.Breeding.Roulette
import Forager.Proofs.Program.Soundness

/-!
# What individuals hand down

A property of programs that mutation and crossover keep is handed down from generation to generation, and so is the
number of programs. What is handed down may differ from slot to slot, and the children may have another property than
the parents.

* `Hands rate E S S'` : where parents have the property `S`, mutation and crossover give the property `S'`, slot by
  slot, and fail only with errors among `E`; `Bears S n ind` : the individual has `n` programs with the property;
* `Heritable rate E S` : mutation and crossover keep the property `S` in all slots; `Carries S n ind` : the individual
  has `n` programs, all of which have the property;
* `founders_bear`, `offspring_bear`, `founders_carry`, `offspring_carry` : the individuals of the first and of the next
  generation do.
-/

namespace Forager.Breeding

set_option autoImplicit false

open Program

/-- What is handed down slot by slot: of programs with the property `S`, mutants at this rate have the property `S'`,
and crossover keeps `S`, while the errors are among `E`. -/
structure Hands (rate : Float) (E : BreedError → Prop) (S S' : Nat → Expr → Prop) : Prop where
  root : ∀ slot e, S' slot e → e.kind = .step
  mutant : ∀ slot e, S slot e → Returns E (S' slot) (mutateSlot rate slot e)
  crossed : ∀ slot a b, S slot a → S slot b → Gives (fun result =>
    Returns E (fun crossed =>
        Returns E (S slot) (readCrossed slot crossed.first) ∧ Returns E (S slot) (readCrossed slot crossed.second))
      (settled .swap result)) (crossover a b)

/-- A property of programs that mutation at this rate and crossover keep, while their errors are among `E`. -/
structure Heritable (rate : Float) (E : BreedError → Prop) (S : Expr → Prop) : Prop where
  root : ∀ e, S e → e.kind = .step
  mutant : ∀ slot e, S e → Returns E S (mutateSlot rate slot e)
  crossed : ∀ a b, S a → S b → Gives (fun result =>
    Returns E (fun crossed => ∀ slot,
        Returns E S (readCrossed slot crossed.first) ∧ Returns E S (readCrossed slot crossed.second))
      (settled .swap result)) (crossover a b)

theorem Heritable.hands {rate : Float} {E : BreedError → Prop} {S : Expr → Prop} (hS : Heritable rate E S) :
    Hands rate E (fun _ => S) (fun _ => S) where
  root _ := hS.root
  mutant := hS.mutant
  crossed slot a b ha hb s := (hS.crossed a b ha hb s).mono fun _ h => h slot

theorem settled_returns {ε α : Type} {P : α → Prop} (wrap : ε → BreedError) {result : Except ε α}
    (h : ∀ a, result = .ok a → P a) : Returns (fun _ => True) P (settled wrap result) := by
  cases result with
  | error e => exact .throw trivial
  | ok a => exact .pure (h a rfl)

/-- Programs from slot `i` on that have the property of their slots. -/
def Slots (S : Nat → Expr → Prop) (i : Nat) (programs : List Expr) : Prop :=
  ∀ j e, programs[j]? = some e → S (i + j) e

theorem slots_nil (S : Nat → Expr → Prop) (i : Nat) : Slots S i [] := by
  intro j e he
  cases he

theorem slots_cons {S : Nat → Expr → Prop} {i : Nat} {e : Expr} {programs : List Expr} :
    Slots S i (e :: programs) ↔ S i e ∧ Slots S (i + 1) programs := by
  constructor
  · intro h
    refine ⟨h 0 e rfl, fun j e' he' => ?_⟩
    rw [Nat.add_assoc, Nat.add_comm 1]
    exact h (j + 1) e' he'
  · rintro ⟨he, hrest⟩ j e' he'
    cases j with
    | zero =>
      cases he'
      exact he
    | succ j =>
      have := hrest j e' he'
      rwa [Nat.add_assoc, Nat.add_comm 1] at this

theorem slots_const_iff {S : Expr → Prop} {i : Nat} {programs : List Expr} :
    Slots (fun _ => S) i programs ↔ ∀ e ∈ programs, S e := by
  constructor
  · intro h e he
    obtain ⟨j, hj⟩ := List.mem_iff_getElem?.mp he
    exact h j e hj
  · exact fun h j e he => h e (List.mem_of_getElem? he)

/-- An individual with `n` programs, each with the property of its slot. -/
structure Bears (S : Nat → Expr → Prop) (n : Nat) (ind : Individual) : Prop where
  length : ind.programs.length = n
  programs : Slots S 0 ind.programs

theorem Bears.mono {S S' : Nat → Expr → Prop} {n : Nat} {ind : Individual} (h : Bears S n ind)
    (hS : ∀ slot e, S slot e → S' slot e) : Bears S' n ind :=
  ⟨h.length, fun j e he => hS (0 + j) e (h.programs j e he)⟩

/-- An individual with `n` programs, all of which have the property. -/
structure Carries (S : Expr → Prop) (n : Nat) (ind : Individual) : Prop where
  length : ind.programs.length = n
  programs : ∀ e ∈ ind.programs, S e

theorem bears_const_iff {S : Expr → Prop} {n : Nat} {ind : Individual} :
    Bears (fun _ => S) n ind ↔ Carries S n ind :=
  ⟨fun h => ⟨h.length, slots_const_iff.mp h.programs⟩, fun h => ⟨h.length, slots_const_iff.mpr h.programs⟩⟩

/-- What individuals bear depends on their programs only. -/
theorem bear_of_programs {S : Nat → Expr → Prop} {n : Nat} {individuals others : List Individual}
    (h : others.map (·.programs) = individuals.map (·.programs)) (hbear : ∀ ind ∈ individuals, Bears S n ind) :
    ∀ ind ∈ others, Bears S n ind := by
  intro ind hind
  have hmem : ind.programs ∈ individuals.map (·.programs) := h ▸ List.mem_map_of_mem hind
  obtain ⟨same, hsame, heq⟩ := List.mem_map.mp hmem
  exact ⟨heq ▸ (hbear same hsame).length, heq ▸ (hbear same hsame).programs⟩

theorem carry_of_programs {S : Expr → Prop} {n : Nat} {individuals others : List Individual}
    (h : others.map (·.programs) = individuals.map (·.programs)) (hcarry : ∀ ind ∈ individuals, Carries S n ind) :
    ∀ ind ∈ others, Carries S n ind := by
  intro ind hind
  exact bears_const_iff.mp (bear_of_programs h (fun ind hind => bears_const_iff.mpr (hcarry ind hind)) ind hind)

/-! ## New individuals -/

theorem checkSlots_iff (slot : Nat) (programs checked : List Expr) :
    Individual.checkSlots slot (programs.map some) = .ok checked ↔
      checked = programs ∧ ∀ e ∈ programs, e.kind = .step := by
  induction programs generalizing slot checked with
  | nil =>
    rw [List.map_nil, Individual.checkSlots, Except.ok.injEq]
    exact ⟨fun h => ⟨h.symm, fun e he => by cases he⟩, fun h => h.1.symm⟩
  | cons e programs ih =>
    rw [List.map_cons, Individual.checkSlots, List.forall_mem_cons]
    by_cases he : e.kind = .step
    · rw [if_pos he]
      cases hrest : Individual.checkSlots (slot + 1) (programs.map some) with
      | error x =>
        refine ⟨fun h => (by cases h), fun h => ?_⟩
        rw [(ih (slot + 1) programs).mpr ⟨rfl, h.2.2⟩] at hrest
        cases hrest
      | ok rest =>
        obtain ⟨rfl, hall⟩ := (ih (slot + 1) rest).mp hrest
        refine ⟨fun h => ?_, fun h => by rw [h.1]; rfl⟩
        cases h
        exact ⟨rfl, he, hall⟩
    · rw [if_neg he]
      exact ⟨fun h => (by cases h), fun h => absurd h.2.1 he⟩

/-- Individuals are made from at least one program, and from programs with the right root only. -/
theorem new_iff (id : String) (programs : List Expr) (ind : Individual) :
    Individual.new id programs = .ok ind ↔
      programs ≠ [] ∧ (∀ e ∈ programs, e.kind = .step) ∧ ind = { id, programs } := by
  unfold Individual.new Individual.ofSlots
  by_cases hne : programs = []
  · subst hne
    exact ⟨fun h => (by cases h), fun h => absurd rfl h.1⟩
  · rw [if_neg (by simpa using hne)]
    cases hslots : Individual.checkSlots 0 (programs.map some) with
    | error x =>
      refine ⟨fun h => (by cases h), fun h => ?_⟩
      rw [(checkSlots_iff 0 programs programs).mpr ⟨rfl, h.2.1⟩] at hslots
      cases hslots
    | ok checked =>
      obtain ⟨rfl, hall⟩ := (checkSlots_iff 0 programs checked).mp hslots
      refine ⟨fun h => ?_, fun h => by rw [h.2.2]; rfl⟩
      cases h
      exact ⟨hne, hall, rfl⟩

/-! ## Offspring -/

section

variable {rate : Float} {E : BreedError → Prop} {S S' : Nat → Expr → Prop} {n : Nat}

theorem mutateSlots_bear (hS : Hands rate E S S') (slot : Nat) {programs : List Expr} (h : Slots S slot programs) :
    Returns E (fun es => es.length = programs.length ∧ Slots S' slot es) (mutateSlots rate slot programs) := by
  induction programs generalizing slot with
  | nil => exact .pure ⟨rfl, slots_nil S' slot⟩
  | cons e programs ih =>
    obtain ⟨he, hrest⟩ := slots_cons.mp h
    refine .bind (hS.mutant slot e he) fun m hm => .bind (ih (slot + 1) hrest) fun ms hms => .pure ⟨?_, ?_⟩
    · rw [List.length_cons, List.length_cons, hms.1]
    · exact slots_cons.mpr ⟨hm, hms.2⟩

theorem childPrograms_bear (hS : Hands rate E S S') (slot : Nat) {crossed : String}
    (hcrossed : Returns E (S slot) (readCrossed slot crossed)) (i : Nat) {programs : List Expr}
    (h : Slots S i programs) :
    Returns E (fun es => es.length = programs.length ∧ Slots S' i es) (childPrograms rate slot crossed i programs) := by
  induction programs generalizing i with
  | nil => exact .pure ⟨rfl, slots_nil S' i⟩
  | cons e programs ih =>
    obtain ⟨he, hrest⟩ := slots_cons.mp h
    have hmutated : ∀ source, S i source →
        Returns E (fun es => es.length = programs.length + 1 ∧ Slots S' i es) (do
          let e ← mutateSlot rate i source
          let rest ← childPrograms rate slot crossed (i + 1) programs
          return e :: rest) := by
      intro source hsource
      refine .bind (hS.mutant i source hsource) fun m hm => .bind (ih (i + 1) hrest) fun ms hms => .pure ⟨?_, ?_⟩
      · rw [List.length_cons, hms.1]
      · exact slots_cons.mpr ⟨hm, hms.2⟩
    rw [childPrograms]
    dsimp only
    split
    · rename_i hi
      subst hi
      exact .bind hcrossed hmutated
    · exact .bind (.pure he) hmutated

theorem new_bears (hS : Hands rate E S S') (hn : 0 < n) (id : String) {programs : List Expr}
    (h : programs.length = n ∧ Slots S' 0 programs) :
    Returns E (Bears S' n) (settled .strategy (Individual.new id programs)) := by
  have hne : programs ≠ [] := List.ne_nil_of_length_pos (by omega)
  have hroots : ∀ e ∈ programs, e.kind = .step := by
    intro e he
    obtain ⟨slot, hslot⟩ := List.mem_iff_getElem?.mp he
    exact hS.root _ e (h.2 slot e hslot)
  rw [(new_iff id programs _).mpr ⟨hne, hroots, rfl⟩]
  exact .pure ⟨h.1, h.2⟩

theorem mutant_bears (hS : Hands rate E S S') (hn : 0 < n) {ind : Individual} (h : Bears S n ind) (id : String) :
    Returns E (Bears S' n) (ind.mutant id rate) :=
  .bind (mutateSlots_bear hS 0 h.programs) fun _ hes => new_bears hS hn id ⟨hes.1.trans h.length, hes.2⟩

theorem cross_bears (hS : Hands rate E S S') (hn : 0 < n) {a b : Individual} (ha : Bears S n a) (hb : Bears S n b)
    (ids : String × String) :
    Returns E (fun children => Bears S' n children.1 ∧ Bears S' n children.2) (a.cross b ids rate) := by
  have hshared : 0 < min a.programs.length b.programs.length := by rw [ha.length, hb.length, Nat.min_self]; exact hn
  refine .bind (.draw (Chance.below_lt hshared)) fun slot hslot => ?_
  rw [ha.length, hb.length, Nat.min_self] at hslot
  have hprogram : ∀ {ind}, Bears S n ind → S slot (ind.programs.getD slot .idle) := by
    intro ind h
    have hlt : slot < ind.programs.length := h.length.symm ▸ hslot
    have := h.programs slot _ (List.getElem?_eq_getElem hlt)
    rwa [Nat.zero_add, ← List.getD_eq_getElem ind.programs .idle hlt] at this
  refine .bind (.draw (hS.crossed slot _ _ (hprogram ha) (hprogram hb))) fun result hresult => ?_
  refine .bind hresult fun crossed hread => ?_
  refine .bind (childPrograms_bear hS slot hread.1 0 ha.programs) fun left hleft => ?_
  refine .bind (childPrograms_bear hS slot hread.2 0 hb.programs) fun right hright => ?_
  refine .bind (new_bears hS hn _ ⟨hleft.1.trans ha.length, hleft.2⟩) fun first hfirst => ?_
  refine .bind (new_bears hS hn _ ⟨hright.1.trans hb.length, hright.2⟩) fun second hsecond => ?_
  exact .pure ⟨hfirst, hsecond⟩

/-! ## Generations -/

/-- The mutants that a population begins with bear what the progenitor hands down. -/
theorem founders_bear (hS : Hands rate E S S') (hn : 0 < n) {progenitor : Individual} (h : Bears S n progenitor)
    (count i : Nat) :
    Returns E (fun inds => ∀ ind ∈ inds, Bears S' n ind) (Population.founders progenitor rate count i) := by
  induction count generalizing i with
  | zero => exact .pure fun ind hind => by cases hind
  | succ count ih =>
    refine .bind (mutant_bears hS hn h _) fun ind hind => .bind (ih (i + 1)) fun rest hrest => ?_
    exact .pure (List.forall_mem_cons.mpr ⟨hind, hrest⟩)

end

/-- Parents are drawn from the individuals that there are. -/
theorem pickParents_returns {E : EvolveError → Prop} {P : Individual → Prop} {selector : Selector}
    {individuals : List Individual} {fallback : Individual}
    (hpick : Returns (fun e => E (.selection e)) (fun _ => True) (selector.pick individuals))
    (h : ∀ ind ∈ individuals, P ind) (hfallback : P fallback) (count : Nat) :
    Returns E (fun inds => ∀ ind ∈ inds, P ind) (pickParents selector individuals fallback count) := by
  induction count with
  | zero => exact .pure fun ind hind => by cases hind
  | succ count ih =>
    refine .bind (.draw hpick.gives) fun picked hpicked => ?_
    cases picked with
    | error e => exact .throw (hpicked.1 e rfl)
    | ok i =>
      refine .bind ih fun rest hrest => .pure (List.forall_mem_cons.mpr ⟨?_, hrest⟩)
      exact getD_of_forall h hfallback i

section

variable {rate : Float} {E : BreedError → Prop} {S S' : Nat → Expr → Prop} {n : Nat}

theorem reproduce_bear (hS : Hands rate E S S') (hn : 0 < n) {F : EvolveError → Prop}
    (hF : ∀ first second e, E e → F (.reproduction first second e)) (generation i : Nat) (parents : List Individual)
    (h : ∀ ind ∈ parents, Bears S n ind) :
    Returns F (fun inds => ∀ ind ∈ inds, Bears S' n ind) (reproduce rate generation i parents) := by
  fun_induction reproduce rate generation i parents with
  | case1 i a b rest ih =>
    obtain ⟨ha, hrest⟩ := List.forall_mem_cons.mp h
    obtain ⟨hb, hrest⟩ := List.forall_mem_cons.mp hrest
    refine .bind (.draw (cross_bears hS hn ha hb _).gives) fun crossed hcrossed => ?_
    cases crossed with
    | error e => exact .throw (hF _ _ e (hcrossed.1 e rfl))
    | ok children =>
      obtain ⟨hfirst, hsecond⟩ := hcrossed.2 children rfl
      refine .bind (ih hrest) fun others hothers => .pure ?_
      exact List.forall_mem_cons.mpr ⟨hfirst, List.forall_mem_cons.mpr ⟨hsecond, hothers⟩⟩
  | case2 => exact .pure fun ind hind => by cases hind

/-- **The next generation bears** what this one hands down. -/
theorem offspring_bear (p : Population) (hS : Hands p.rate E S S') (hn : 0 < n) {F : EvolveError → Prop}
    (hF : ∀ first second e, E e → F (.reproduction first second e)) {first : Individual} {others : List Individual}
    (hpick : Returns (fun e => F (.selection e)) (fun _ => True) (p.selector.pick (first :: others)))
    (h : ∀ ind ∈ first :: others, Bears S n ind) :
    (∀ e, p.offspring first others = .error e → F e) ∧
      ∀ next, p.offspring first others = .ok next → ∀ ind ∈ next, Bears S' n ind := by
  have hbreed : Returns F (fun inds => ∀ ind ∈ inds, Bears S' n ind) (do
      let parents ← pickParents p.selector (first :: others) first (first :: others).length
      reproduce p.rate (p.generation + 1) 0 parents : Reproduces (List Individual)) :=
    .bind (pickParents_returns hpick h (List.forall_mem_cons.mp h).1 _) fun parents hparents =>
      reproduce_bear hS hn hF (p.generation + 1) 0 parents hparents
  exact hbreed.gives _

end

section

variable {rate : Float} {E : BreedError → Prop} {S : Expr → Prop} {n : Nat}

/-- The mutants that a population begins with carry what the progenitor carries. -/
theorem founders_carry (hS : Heritable rate E S) (hn : 0 < n) {progenitor : Individual} (h : Carries S n progenitor)
    (count i : Nat) :
    Returns E (fun inds => ∀ ind ∈ inds, Carries S n ind) (Population.founders progenitor rate count i) :=
  (founders_bear hS.hands hn (bears_const_iff.mpr h) count i).mono fun _ hinds ind hind =>
    bears_const_iff.mp (hinds ind hind)

/-- **The next generation carries** what all individuals of this one carry. -/
theorem offspring_carry (p : Population) (hS : Heritable p.rate E S) (hn : 0 < n) {F : EvolveError → Prop}
    (hF : ∀ first second e, E e → F (.reproduction first second e)) {first : Individual} {others : List Individual}
    (hpick : Returns (fun e => F (.selection e)) (fun _ => True) (p.selector.pick (first :: others)))
    (h : ∀ ind ∈ first :: others, Carries S n ind) :
    (∀ e, p.offspring first others = .error e → F e) ∧
      ∀ next, p.offspring first others = .ok next → ∀ ind ∈ next, Carries S n ind := by
  obtain ⟨herror, hok⟩ := offspring_bear p hS.hands hn hF hpick fun ind hind => bears_const_iff.mpr (h ind hind)
  exact ⟨herror, fun next hnext ind hind => bears_const_iff.mp (hok next hnext ind hind)⟩

end

end Forager.Breeding
