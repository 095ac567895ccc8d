import Forager.Proofs.Breeding.Best
import Forager.Proofs.Breeding.Exchange
import Forager.Proofs.Breeding.Growth

/-!
# Lineages drain at the full rate

At a mutation rate of one, every mutation takes a step away from the root of a program, and nothing gives one back:
crossover puts other lists in the place of steps, but as many as before. So a lineage loses one step in each slot with
every generation, until nothing is left.

* `StepCount A e` : the number of steps at the root of the program `e` is among `A`;
* `mutateSlot_count`, `crossover_count` : what mutation and crossover make of this number; `hands_count` : so every
  count is handed down less one, whichever parents are drawn;
* `Attempted p q` : what comes of a population by any attempts to evolve it; `Draining progenitor p` : what holds of
  all these populations;
* `lineage_drains` : what is left after `k` generations.
-/

namespace Forager.Breeding

set_option autoImplicit false

open Program
open Sexp (Forest Ref)

/-- A program whose number of steps at the root is among `A`. -/
structure StepCount (A : Nat → Prop) (e : Expr) : Prop where
  root : e.kind = .step
  count : A e.args.length

/-! ## Steps and texts -/

theorem length_items_toSexp {e : Expr} (h : e.kind = .step) : e.toSexp.items.length = e.args.length + 1 := by
  obtain ⟨op, args⟩ := e
  cases op with
  | step =>
    change (Sexp.atom _ :: Expr.toSexps args).length = args.length + 1
    rw [Expr.toSexps_eq_map, List.length_cons, List.length_map]
  | _ => cases h

/-- A program has as many steps as there are items after the first in the tree that it is read from. -/
theorem stepCount_of_text {t : Sexp} {e : Expr} (hread : Sexp.Readable t) (h : parseProgram t.print = .ok e) :
    StepCount (fun n => t.items.length = n + 1) e := by
  obtain ⟨hparse, hroot⟩ := parseProgram_iff.mp h
  obtain ⟨s, hs, hbuild⟩ := parse_iff.mp hparse
  rw [Sexp.parse_print hread] at hs
  cases hs
  obtain ⟨word, args, rfl, hbuilt⟩ := build_inv hbuild
  refine ⟨hroot, ?_⟩
  change args.length + 1 = _
  cases hbuilt with
  | logical kind es hw hk hcount hes => rw [← length_buildLists hes, Expr.args]
  | bare kind hw hk hargs => rw [hargs]; rfl
  | sensor | speeds | state | comparison => cases hroot

theorem stepCount_of_print {m e : Expr} (hroot : m.kind = .step) (h : parseProgram m.print = .ok e) :
    StepCount (· = m.args.length) e := by
  obtain ⟨hstep, hcount⟩ := stepCount_of_text (Expr.readable_toSexp (Expr.isLiteral_of_root hroot)) h
  rw [length_items_toSexp hroot] at hcount
  exact ⟨hstep, by omega⟩

/-- Programs with different numbers of steps have different texts. -/
theorem print_ne_of_length {a e : Expr} (ha : a.kind = .step) (he : e.kind = .step)
    (h : e.args.length ≠ a.args.length) : e.print ≠ a.print := by
  intro hprint
  have hparsed := Sexp.parse_print (Expr.readable_toSexp (Expr.isLiteral_of_root he))
  rw [← Expr.print, hprint, Expr.print, Sexp.parse_print (Expr.readable_toSexp (Expr.isLiteral_of_root ha))] at hparsed
  have hitems := congrArg (·.items.length) (Except.ok.inj hparsed)
  rw [length_items_toSexp ha, length_items_toSexp he] at hitems
  omega

theorem eq_idle_of_length {e : Expr} (hroot : e.kind = .step) (h : e.args.length = 0) : e = .idle := by
  obtain ⟨op, args⟩ := e
  cases List.eq_nil_of_length_eq_zero h
  cases op with
  | step => rfl
  | _ => cases hroot

/-! ## Mutation -/

theorem length_mutateAll (rate : Float) (dropped : Option Nat) (args : List Expr) :
    Yields (fun ms => ms.length = (remaining dropped args).length) (mutateAll rate dropped args) := by
  induction args generalizing dropped with
  | nil =>
    rw [mutateAll]
    cases dropped <;> exact .pure rfl
  | cons a args ih =>
    have hcons : ∀ d, Yields (fun ms => ms.length = (remaining d args).length + 1) (do
        let e ← mutate rate a
        let rest ← mutateAll rate d args
        return e :: rest) := fun d =>
      .bind (.any _) fun m _ => .bind (ih d) fun ms hms => .pure (congrArg (· + 1) hms)
    cases dropped with
    | none =>
      rw [mutateAll]
      exact hcons none
    | some k =>
      cases k with
      | zero =>
        rw [mutateAll]
        exact ih none
      | succ k =>
        rw [mutateAll]
        exact hcons (some k)

/-- At the full rate a sequence always loses an argument, if it has one. -/
theorem dropping_one (args : List Expr) :
    Yields (fun dropped => (remaining dropped args).length = args.length - 1) (dropping 1 args.length) := by
  refine .bind always_happens ?_
  rintro _ rfl
  cases args with
  | nil => exact .pure rfl
  | cons a args =>
    refine .bind (.lift (Chance.below_lt (Nat.succ_pos _))) fun k hk => .pure ?_
    exact List.length_eraseIdx_of_lt hk

theorem mutate_count {e : Expr} (hroot : e.kind = .step) :
    Yields (StepCount (· = e.args.length - 1)) (mutate 1 e) := by
  obtain ⟨op, args⟩ := e
  cases op with
  | step =>
    rw [mutate]
    refine .bind (dropping_one args) fun dropped hdropped => ?_
    exact .bind (length_mutateAll 1 dropped args) fun ms hms => .pure ⟨rfl, hms.trans hdropped⟩
  | _ => cases hroot

theorem mutateSlot_count (slot : Nat) {e : Expr} (hroot : e.kind = .step) :
    Returns (fun _ => True) (StepCount (· = e.args.length - 1)) (mutateSlot 1 slot e) := by
  refine .bind (.draw (mutate_count hroot).gives) fun mutant? hmutant => ?_
  cases mutant? with
  | none => exact .throw trivial
  | some m =>
    obtain ⟨hm, hcount⟩ := hmutant m rfl
    dsimp only
    cases hparse : parseProgram m.print with
    | error x => exact .throw trivial
    | ok e' =>
      obtain ⟨hroot', hcount'⟩ := stepCount_of_print hm hparse
      exact .pure ⟨hroot', hcount'.trans hcount⟩

/-! ## Crossover -/

/-- Forests with the same nodes, each of which has as many children in one as in the other. -/
structure Regrown (f g : Forest) : Prop where
  before : f.Linked
  after : g.Linked
  spellable : Spellable g
  lists : ∀ r, g.isList r = f.isList r
  children : ∀ r, (g.children r).length = (f.children r).length

theorem exchange_regrown {f : Forest} (h : f.Linked) (hspellable : Spellable f) (a b : Ref) :
    Gives (fun result => ∀ g swapped, result = .ok (g, swapped) → Regrown f g) (exchange f a b) := by
  intro s g swapped hresult
  rcases exchange_gives f a b s g swapped hresult with rfl | ⟨x, -, y, -, -, hswap⟩
  · exact ⟨h, h, hspellable, fun _ => rfl, fun _ => rfl⟩
  · have hexchanged := h.exchanged hswap
    refine ⟨h, hexchanged.after, hspellable.swap hswap, Forest.isList_swap hswap, fun r => ?_⟩
    rw [hexchanged.children, List.length_map]

theorem Regrown.stepCount {f g : Forest} (h : Regrown f g) {r : Ref} {a : Expr} (hr : f.tree? r = some a.toSexp)
    (ha : a.kind = .step) {e : Expr} (he : parseProgram (g.print r) = .ok e) : StepCount (· = a.args.length) e := by
  have hlength := length_items_toSexp ha
  have hlist := Expr.toSexp_isList (Expr.isLiteral_of_root ha)
  generalize a.toSexp = t at hr hlength hlist
  cases t with
  | atom text => cases hlist
  | list items =>
    obtain ⟨hroot, hitems⟩ := children_of_tree h.before hr
    obtain ⟨items', htree, hitems'⟩ := h.after.tree?_list ((h.lists r).trans hroot)
    rw [print_of_tree htree] at he
    obtain ⟨hstep, hcount⟩ := stepCount_of_text ⟨rfl, h.spellable.atomsFit htree⟩ he
    have hbefore := congrArg List.length hitems
    have hafter := congrArg List.length hitems'
    rw [List.length_map, List.length_map] at hbefore hafter
    rw [Sexp.items] at hlength hcount
    have hchildren := h.children r
    exact ⟨hstep, by omega⟩

/-- **Crossover keeps the number of steps** of both programs, whatever is drawn. -/
theorem crossover_count {a b : Expr} (ha : a.kind = .step) (hb : b.kind = .step) :
    Gives (fun result => ∀ crossed, result = .ok crossed →
        (∀ e, parseProgram crossed.first = .ok e → StepCount (· = a.args.length) e) ∧
        ∀ e, parseProgram crossed.second = .ok e → StepCount (· = b.args.length) e)
      (crossover a b) := by
  obtain ⟨f, ra, rb, h, hspellable, hcrossover⟩ :=
    crossover_planted (Expr.isLiteral_of_root ha) (Expr.isLiteral_of_root hb)
  rw [hcrossover]
  intro s crossed hcrossed
  rw [StateT.run_map] at hcrossed
  change Except.map _ ((exchange f ra rb).run s).1 = _ at hcrossed
  cases hresult : ((exchange f ra rb).run s).1 with
  | error x =>
    rw [hresult] at hcrossed
    cases hcrossed
  | ok outcome =>
    rw [hresult] at hcrossed
    cases hcrossed
    have hregrown := exchange_regrown h.linked hspellable ra rb s outcome.1 outcome.2 hresult
    exact ⟨fun e he => hregrown.stepCount h.first ha he, fun e he => hregrown.stepCount h.second hb he⟩

/-- **At the full rate every count is handed down less one.** -/
theorem hands_count (A : Nat → Nat → Prop) :
    Hands 1 (fun _ => True) (fun slot => StepCount (A slot))
      (fun slot => StepCount fun n => ∃ m, A slot m ∧ n = m - 1) where
  root _ _ h := h.root
  mutant slot _ h := (mutateSlot_count slot h.root).mono fun _ hm => ⟨hm.root, _, h.count, hm.count⟩
  crossed slot a b ha hb s := by
    refine settled_returns .swap fun crossed hcrossed => ?_
    obtain ⟨hfirst, hsecond⟩ := crossover_count ha.root hb.root s crossed hcrossed
    constructor
    · refine settled_returns (.crossed slot) fun e he => ?_
      obtain ⟨hroot, hcount⟩ := hfirst e he
      exact ⟨hroot, hcount ▸ ha.count⟩
    · refine settled_returns (.crossed slot) fun e he => ?_
      obtain ⟨hroot, hcount⟩ := hsecond e he
      exact ⟨hroot, hcount ▸ hb.count⟩

/-! ## Populations -/

/-- `q` comes of `p` by attempts to complete a generation, which may have failed, and whose individuals were evaluated
in order or by a schedule that may be called off at any moment. -/
inductive Attempted (p : Population) : Population → Prop where
  | start : Attempted p p
  | inOrder {q : Population} {σ : Type} {observers : List (Observer σ)} {deadline : Deadline} {s : σ}
      (h : Attempted p q) : Attempted p (q.evolve observers deadline s).1.population
  | scheduled {q : Population} {σ : Type} {observers : List (Observer σ)} {s : σ} {workers : Int} {trials : Trials}
      (h : Attempted p q) (hschedule : q.Disturbed workers trials) :
      Attempted p (q.evolveAfter trials observers s).1.population

theorem Completes.attempted {p q r : Population} {g : Generation} (hp : Attempted p q) (h : Completes q g r) :
    Attempted p r := by
  cases h with
  | inOrder h => exact .inOrder hp
  | scheduled hschedule _ h => exact .scheduled hp hschedule

theorem Completes.generation {p q : Population} {g : Generation} (h : Completes p g q) :
    q.generation = p.generation + 1 := by
  cases h with
  | inOrder h =>
    obtain ⟨_, _, _, -, -, -, hleft⟩ := conclude_ok (announce_ok h)
    rw [evolve_eq, announce_population, advance_eq, hleft]
  | scheduled _ _ h =>
    obtain ⟨_, _, _, -, -, -, hleft⟩ := conclude_ok (announce_ok h)
    rw [Population.evolveAfter, announce_population, hleft]

theorem Succession.attempted {p q : Population} {gs : List Generation} (h : Succession p gs q) :
    Attempted p q ∧ q.generation = p.generation + gs.length := by
  induction h with
  | start => exact ⟨.start, rfl⟩
  | next _ hg ih =>
    refine ⟨hg.attempted ih.1, ?_⟩
    rw [hg.generation, ih.2, List.length_append, List.length_singleton, Nat.add_assoc]

/-- The number of steps of the program of a slot. -/
def Individual.steps (ind : Individual) (slot : Nat) : Nat := (ind.programs.getD slot .idle).args.length

theorem Individual.steps_eq {ind : Individual} {slot : Nat} {e : Expr} (h : ind.programs[slot]? = some e) :
    ind.steps slot = e.args.length := by
  rw [Individual.steps, List.getD_eq_getElem?_getD, h, Option.getD_some]

/-- What may be left of the steps of a slot after `k` generations. -/
def Left (progenitor : Individual) (k slot n : Nat) : Prop :=
  n = progenitor.steps slot - k ∨ n = progenitor.steps slot - k - 1

theorem left_succ {progenitor : Individual} {k slot n : Nat} (h : ∃ m, Left progenitor k slot m ∧ n = m - 1) :
    Left progenitor (k + 1) slot n := by
  obtain ⟨m, hm, rfl⟩ := h
  unfold Left at hm ⊢
  omega

/-- An individual after `k` generations. -/
abbrev Aged (progenitor : Individual) (k : Nat) (ind : Individual) : Prop :=
  Bears (fun slot => StepCount (Left progenitor k slot)) progenitor.programs.length ind

/-- A population at the full rate, whose individuals have lost what they must have lost so far. -/
structure Draining (progenitor : Individual) (p : Population) : Prop where
  rate : p.rate = 1
  individuals : ∀ ind ∈ p.individuals, Aged progenitor p.generation ind

theorem new_draining {s : Setup} {progenitor : Individual} {p : Population} (hrate : s.rate = 1)
    (hprogenitor : s.progenitor = some progenitor) (hnew : Population.new s = .ok p) :
    progenitor.programs ≠ [] ∧ (∀ e ∈ progenitor.programs, e.kind = .step) ∧ Draining progenitor p := by
  obtain ⟨_, _, _, others, src, -, -, hprogenitor', -, -, hne, hroots, hothers, rfl⟩ := new_ok hnew
  cases hprogenitor.symm.trans hprogenitor'
  rw [hrate] at hothers
  have hcount : Bears (fun slot => StepCount (· = progenitor.steps slot)) progenitor.programs.length progenitor := by
    refine ⟨rfl, fun slot e he => ⟨hroots e (List.mem_of_getElem? he), ?_⟩⟩
    rw [Nat.zero_add, Individual.steps_eq he]
  have hfounders := founders_bear (hands_count fun slot n => n = progenitor.steps slot)
    (List.length_pos_of_ne_nil hne) hcount (s.size.toNat - 1) 1
  obtain ⟨-, -, hmutants⟩ := hfounders _ _ src trivial hothers
  refine ⟨hne, hroots, hrate, List.forall_mem_cons.mpr ⟨⟨hcount.length, ?_⟩, fun ind hind => ?_⟩⟩
  · exact fun slot e he => ⟨(hcount.programs slot e he).root, .inl (hcount.programs slot e he).count⟩
  · refine (hmutants others rfl ind hind).mono fun slot e he => ⟨he.root, ?_⟩
    obtain ⟨_, rfl, hmutant⟩ := he.count
    exact .inr hmutant

/-- **A generation takes one step more**, if it is completed; else nothing changes. -/
theorem Draining.conclude {progenitor : Individual} {p : Population} (h : Draining progenitor p)
    (hne : progenitor.programs ≠ []) (failure : Option EvaluationError) {individuals : List Individual}
    (playing : Playing) (hinds : individuals.map (·.identity) = p.individuals.map (·.identity)) :
    Draining progenitor (p.conclude failure individuals playing).population := by
  have hprograms : ∀ {inds : List Individual}, inds.map (·.identity) = p.individuals.map (·.identity) →
      ∀ ind ∈ inds, Aged progenitor p.generation ind := by
    intro inds hinds
    have hsame := congrArg (List.map Prod.snd) hinds
    rw [List.map_map, List.map_map] at hsame
    exact bear_of_programs hsame h.individuals
  cases hresult : (p.conclude failure individuals playing).result with
  | error e =>
    obtain ⟨hsame, hleft⟩ := conclude_error hinds hresult
    have haged := hprograms hleft
    rw [hsame]
    exact ⟨h.rate, haged⟩
  | ok g =>
    obtain ⟨first, others, next, rfl, hnext, -, hleft⟩ := conclude_ok hresult
    rw [hleft]
    have hhands := h.rate.symm ▸ hands_count (Left progenitor p.generation)
    have hchildren := (offspring_bear (F := fun _ => True) p hhands (List.length_pos_of_ne_nil hne)
      (fun _ _ _ _ => trivial) (.any _) (hprograms hinds)).2 next hnext
    exact ⟨h.rate, fun ind hind => (hchildren ind hind).mono fun slot e he => ⟨he.root, left_succ he.count⟩⟩

theorem Attempted.draining {progenitor : Individual} {p q : Population} (h : Attempted p q)
    (hne : progenitor.programs ≠ []) (hp : Draining progenitor p) : Draining progenitor q := by
  induction h with
  | start => exact hp
  | @inOrder q σ observers deadline s _ ih =>
    rw [evolve_eq, announce_population, advance_eq]
    exact ih.conclude hne _ _ (map_evaluateAll (fun _ _ _ _ => rfl) _ _ _ _ _ _)
  | @scheduled q σ observers s workers trials _ hschedule ih =>
    rw [Population.evolveAfter, announce_population]
    exact ih.conclude hne _ _ hschedule.identities

/-! ## A single step -/

def sprig : Expr := .node .step [noop]

/-- Two programs, one of which has a step to lose. -/
def sapling : Individual := { id := "sapling", programs := [sprig, .idle] }

/-- A setup at the full rate. -/
def waning : Setup where
  simulator := some census
  baseline := some (.default "baseline")
  progenitor := some sapling
  size := 2
  rate := 1
  repeats := 1

/-- At the full rate nothing is left of a program with at most one step. -/
theorem mutate_last {e : Expr} (hshaped : e.shaped = true) (hroot : e.kind = .step) (h : e.args.length ≤ 1) :
    Gives (· = some .idle) (mutate 1 e).run := by
  intro s
  obtain ⟨m, s', hrun, -, hm⟩ := ((mutate_mutant 1 hshaped).and_yields (mutate_count hroot)) s
  have hcount := hm.count
  rw [← eq_idle_of_length hm.root (by omega)]
  exact congrArg Prod.fst hrun

theorem crossover_sprig {a b : Expr} (ha : a = .idle ∨ a = sprig) (hb : b = .idle ∨ b = sprig)
    (source : Chance.Source) : ∃ swapped, ((crossover a b).run source).1 = .ok ⟨a.print, b.print, swapped⟩ := by
  have hinner : ∀ {e p s}, e = .idle ∨ e = sprig → e.Inner p s → e = sprig ∧ p = [0] ∧ s = noop := by
    rintro e p s (rfl | rfl) hs
    · cases Expr.mem_inner_iff.mpr hs
    · cases List.mem_singleton.mp (Expr.mem_inner_iff.mpr hs)
      exact ⟨rfl, rfl, rfl⟩
  have hshaped : ∀ {e}, e = Expr.idle ∨ e = sprig → e.shaped = true ∧ e.isLiteral = false := by
    rintro e (rfl | rfl) <;> exact ⟨rfl, rfl⟩
  have hrun : ((crossover a b).run source).1 = .ok ((transplant a b).run source).1 := by
    rw [crossover_eq (hshaped ha).1 (hshaped hb).1 (hshaped ha).2 (hshaped hb).2, StateT.run_map]
    rfl
  rw [hrun]
  have htransplanted := transplanted a b source
  generalize ((transplant a b).run source).1 = crossed at htransplanted
  cases htransplanted with
  | same => exact ⟨false, rfl⟩
  | swapped hs ht _ =>
    obtain ⟨rfl, rfl, rfl⟩ := hinner ha hs
    obtain ⟨rfl, rfl, rfl⟩ := hinner hb ht
    exact ⟨true, rfl⟩

theorem heritable_sprig : Heritable 1 (fun _ => False) (fun e => e = .idle ∨ e = sprig) where
  root := by rintro _ (rfl | rfl) <;> rfl
  mutant := by
    intro slot e he
    have hlast : Gives (· = some .idle) (mutate 1 e).run := by
      rcases he with rfl | rfl
      · exact mutate_last rfl rfl zero_le_one
      · exact mutate_last rfl rfl le_rfl
    refine .bind (.draw hlast) ?_
    rintro _ rfl
    exact .pure (.inl rfl)
  crossed := by
    intro a b ha hb source
    have hread : ∀ slot {e}, e = .idle ∨ e = sprig →
        Returns (fun _ => False) (fun e => e = .idle ∨ e = sprig) (readCrossed slot e.print) := by
      rintro slot e (rfl | rfl)
      · exact .pure (.inl rfl)
      · rw [readCrossed, parseProgram_print rfl (by decide +kernel)]
        exact .pure (.inr rfl)
    obtain ⟨swapped, hrun⟩ := crossover_sprig ha hb source
    rw [hrun]
    exact .pure fun slot => ⟨hread slot ha, hread slot hb⟩

/-! ## What is left of a progenitor -/

/-- What `k` generations have left of the programs of the progenitor in an individual: a step less for each of them, and
one more if the lineage began with a mutant. From the first generation on, no program that had a step is what it was,
and when all steps are gone nothing comes back. -/
structure Drained (progenitor : Individual) (k : Nat) (ind : Individual) : Prop where
  slots : ind.programs.length = progenitor.programs.length
  left : ∀ (slot : Nat) (a e : Expr), progenitor.programs[slot]? = some a → ind.programs[slot]? = some e →
    e.args.length = a.args.length - k ∨ e.args.length = a.args.length - k - 1
  changed : 1 ≤ k → ∀ (slot : Nat) (a e : Expr), progenitor.programs[slot]? = some a →
    ind.programs[slot]? = some e → 1 ≤ a.args.length → e.print ≠ a.print
  idle : (∀ a ∈ progenitor.programs, a.args.length ≤ k) → ∀ e ∈ ind.programs, e = .idle

theorem Bears.drained {progenitor ind : Individual} {k : Nat} (h : Aged progenitor k ind)
    (hroots : ∀ a ∈ progenitor.programs, a.kind = .step) : Drained progenitor k ind := by
  have hleft : ∀ (slot : Nat) (a e : Expr), progenitor.programs[slot]? = some a → ind.programs[slot]? = some e →
      StepCount (fun n => n = a.args.length - k ∨ n = a.args.length - k - 1) e := by
    intro slot a e ha he
    obtain ⟨hroot, hcount⟩ := h.programs slot e he
    rw [Left, Nat.zero_add, Individual.steps_eq ha] at hcount
    exact ⟨hroot, hcount⟩
  refine ⟨h.length, fun slot a e ha he => (hleft slot a e ha he).count, ?_, ?_⟩
  · intro hk slot a e ha he hpos
    obtain ⟨hroot, hcount⟩ := hleft slot a e ha he
    exact print_ne_of_length (hroots a (List.mem_of_getElem? ha)) hroot (by omega)
  · intro hall e he
    obtain ⟨slot, hslot⟩ := List.mem_iff_getElem?.mp he
    have hlt : slot < progenitor.programs.length := h.length ▸ (List.getElem?_eq_some_iff.mp hslot).1
    obtain ⟨hroot, hcount⟩ := hleft slot _ e (List.getElem?_eq_getElem hlt) hslot
    have := hall _ (List.getElem_mem hlt)
    exact eq_idle_of_length hroot (by omega)

/-- **At the full rate every lineage drains.** After `k` completed generations, whatever the selector, the seed and the
fitness values are, and whether individuals are evaluated in order or by a schedule, every individual has in each slot
as many steps as the progenitor less `k` or less `k + 1`, as far as there are any. So from the first generation on it
differs from the progenitor in each slot where the progenitor has a step, and once `k` is the number of steps of the
longest program nothing is left. If attempts have failed in between, this holds of the number of generations that the
population has completed. -/
theorem lineage_drains (s : Setup) (progenitor : Individual) (p : Population) (hrate : s.rate = 1)
    (hprogenitor : s.progenitor = some progenitor) (hnew : Population.new s = .ok p) :
    (∀ gs q, Succession p gs q → ∀ ind ∈ q.individuals, Drained progenitor gs.length ind) ∧
    ∀ q, Attempted p q → ∀ ind ∈ q.individuals, Drained progenitor q.generation ind := by
  obtain ⟨hne, hroots, hp⟩ := new_draining hrate hprogenitor hnew
  have hall : ∀ q, Attempted p q → ∀ ind ∈ q.individuals, Drained progenitor q.generation ind := fun q hq ind hind =>
    ((hq.draining hne hp).individuals ind hind).drained hroots
  refine ⟨fun gs q hq ind hind => ?_, hall⟩
  obtain ⟨hattempted, hgeneration⟩ := hq.attempted
  rw [new_generation hnew, Nat.zero_add] at hgeneration
  exact hgeneration ▸ hall q hattempted ind hind

/-- After one generation the step of the progenitor is gone from all individuals. -/
theorem lineage_drains_waning :
    ∃ p g q, Population.new waning = .ok p ∧ Succession p [g] q ∧ q.individuals.length = 2 ∧
      ∀ ind ∈ q.individuals, Drained sapling 1 ind ∧ ind.programs.map Expr.print = ["(step)", "(step)"] := by
  have hcarries : Carries (fun e => e = .idle ∨ e = sprig) 2 sapling := by
    refine ⟨rfl, List.forall_mem_cons.mpr ⟨.inr rfl, List.forall_mem_singleton.mpr (.inl rfl)⟩⟩
  have hsound : ∀ e, e = .idle ∨ e = sprig → Sound e := by
    rintro e (rfl | rfl)
    · exact .idle
    · exact ⟨rfl, by decide +kernel, rfl⟩
  obtain ⟨p, hnew, hsim, hopponent, hrate, hrepeats, hne, hall⟩ := new_of_heritable (s := waning) heritable_sprig
    Nat.two_pos rfl rfl rfl (by decide) (by decide +kernel) (by decide) hcarries
  obtain ⟨g, hg, -⟩ := advance_heritable (hrate ▸ heritable_sprig) hsound Nat.two_pos (hsim ▸ responds_census)
    (new_selector hnew ▸ Selector.sure_roulette) (hopponent ▸ List.forall_mem_singleton.mpr .idle) (hrepeats ▸ le_rfl)
    hne hall
  have hresult : (p.evolve ([] : List (Observer Unit)) .never ()).1.result = .ok g := by
    rw [evolve_nil]
    exact hg
  have hsuccession : Succession p [g] _ := .next .start (.inOrder hresult)
  obtain ⟨-, -, -, -, hstanding⟩ := new_standing (s := waning) rfl hnew
  obtain ⟨-, hnext, -⟩ := hstanding.evolve rfl Nat.two_pos hresult
  refine ⟨p, g, _, hnew, hsuccession, hnext.numbered.length, fun ind hind => ?_⟩
  have hdrained := (lineage_drains waning sapling p rfl rfl hnew).1 [g] _ hsuccession ind hind
  have hidle := hdrained.idle (List.forall_mem_cons.mpr ⟨le_rfl, List.forall_mem_singleton.mpr zero_le_one⟩)
  refine ⟨hdrained, ?_⟩
  rw [List.eq_replicate_iff.mpr ⟨hdrained.slots, hidle⟩]
  rfl

end Forager.Breeding
