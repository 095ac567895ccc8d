import Mathlib.Tactic.Common

/-!
# Computations with a state

What a computation may end in:

* `Gives P x` : every result of a computation `x` that cannot fail has the property `P`;
* `Ends I E P x` : `x` keeps the invariant `I` of its states, and from such states every error of `x` has the property
  `E` and every result the property `P`; `Safe I E x` and `Returns E P x` leave out the results and the states;
* `Yields P x` : every result of a computation `x` that may have none has the property `P`;
* `Attains P x` : such a computation always has a result, with the property `P`; `Possible x a` : `a` is a result of `x`
  from some state.

Each has a rule for every way to compose computations.
-/

namespace Forager

set_option autoImplicit false

variable {σ ε α β : Type}

theorem run_bind_eq (x : ExceptT ε (StateM σ) α) (f : α → ExceptT ε (StateM σ) β) (s : σ) :
    (x >>= f).run s =
      match x.run s with
      | (.ok a, s') => (f a).run s'
      | (.error e, s') => (.error e, s') := by
  rw [ExceptT.run_bind]
  change (match x.run s with
    | (r, s') => (match r with | .ok a => (f a).run | .error e => Pure.pure (.error e) : StateM σ (Except ε β)) s') = _
  rcases x.run s with ⟨r, s'⟩
  cases r <;> rfl

theorem run_bind_state {σ α β : Type} (x : StateM σ α) (f : α → StateM σ β) (s : σ) :
    (x >>= f).run s = (f (x.run s).1).run (x.run s).2 := rfl

theorem run_get_bind (f : σ → ExceptT ε (StateM σ) α) (s : σ) :
    ((get : ExceptT ε (StateM σ) σ) >>= f).run s = (f s).run s := rfl

theorem run_liftM_bind (x : StateM σ α) (f : α → ExceptT ε (StateM σ) β) (s : σ) :
    ((liftM x : ExceptT ε (StateM σ) α) >>= f).run s = (f (x.run s).1).run (x.run s).2 := rfl

theorem exists_run {x : ExceptT ε (StateM σ) α} {s : σ} {r : Except ε α} (h : (x.run s).1 = r) :
    ∃ s', x.run s = (r, s') := ⟨(x.run s).2, Prod.ext h rfl⟩

/-- A composed computation that ends well has ended well at each of its steps. -/
theorem run_bind_ok {x : ExceptT ε (StateM σ) α} {f : α → ExceptT ε (StateM σ) β} {s s'' : σ} {b : β}
    (h : (x >>= f).run s = (.ok b, s'')) : ∃ a s', x.run s = (.ok a, s') ∧ (f a).run s' = (.ok b, s'') := by
  rw [run_bind_eq] at h
  rcases hr : x.run s with ⟨r, s'⟩
  rw [hr] at h
  cases r with
  | ok a => exact ⟨a, s', rfl, h⟩
  | error e => cases h

theorem run_bind_of_ok {x : ExceptT ε (StateM σ) α} {f : α → ExceptT ε (StateM σ) β} {s s' : σ} {a : α}
    (h : x.run s = (.ok a, s')) : (x >>= f).run s = (f a).run s' := by rw [run_bind_eq, h]

/-- Every result of the computation has the property. -/
def Gives (P : α → Prop) (x : StateM σ α) : Prop := ∀ s, P (x.run s).1

/-- From states with the invariant `I` the computation ends in such a state, every error it ends in has the property
`E`, and every result the property `P`. -/
def Ends (I : σ → Prop) (E : ε → Prop) (P : α → Prop) (x : ExceptT ε (StateM σ) α) : Prop :=
  ∀ s r s', I s → x.run s = (r, s') → I s' ∧ (∀ e, r = .error e → E e) ∧ ∀ a, r = .ok a → P a

/-- The computation keeps the invariant `I`, and its errors have the property `E`. -/
abbrev Safe (I : σ → Prop) (E : ε → Prop) (x : ExceptT ε (StateM σ) α) : Prop := Ends I E (fun _ => True) x

/-- The errors of the computation have the property `E`, and its results the property `P`. -/
abbrev Returns (E : ε → Prop) (P : α → Prop) (x : ExceptT ε (StateM σ) α) : Prop := Ends (fun _ => True) E P x

namespace Gives

variable {P : α → Prop} {Q : β → Prop}

theorem pure {a : α} (h : P a) : Gives P (Pure.pure a : StateM σ α) := fun _ => h

theorem bind {x : StateM σ α} {f : α → StateM σ β} (hx : Gives P x) (hf : ∀ a, P a → Gives Q (f a)) :
    Gives Q (x >>= f) := fun s => hf _ (hx s) (x.run s).2

theorem any (x : StateM σ α) : Gives (fun _ => True) x := fun _ => trivial

/-- Computations that go on in the same way from every result that there can be are the same. -/
theorem bind_congr {x : StateM σ α} {f g : α → StateM σ β} (hx : Gives P x) (h : ∀ a, P a → f a = g a) :
    x >>= f = x >>= g := funext fun s => congrFun (h _ (hx s)) (x.run s).2

end Gives

namespace Ends

variable {I : σ → Prop} {E : ε → Prop} {P : α → Prop} {Q : β → Prop}

theorem pure {a : α} (h : P a) : Ends I E P (Pure.pure a : ExceptT ε (StateM σ) α) := by
  intro s r s' hs hr
  cases hr
  refine ⟨hs, fun e he => (by cases he), fun a' ha => ?_⟩
  cases ha
  exact h

theorem throw {e : ε} (h : E e) : Ends I E P (MonadExcept.throw e : ExceptT ε (StateM σ) α) := by
  intro s r s' hs hr
  cases hr
  refine ⟨hs, fun e' he => ?_, fun a ha => by cases ha⟩
  cases he
  exact h

theorem lift {x : StateM σ α} (hI : ∀ s, I s → I (x.run s).2) (hP : Gives P x) :
    Ends I E P (x : ExceptT ε (StateM σ) α) := by
  intro s r s' hs hr
  cases hr
  refine ⟨hI s hs, fun e he => (by cases he), fun a ha => ?_⟩
  cases ha
  exact hP s

theorem bind {x : ExceptT ε (StateM σ) α} {f : α → ExceptT ε (StateM σ) β} (hx : Ends I E P x)
    (hf : ∀ a, P a → Ends I E Q (f a)) : Ends I E Q (x >>= f) := by
  intro s r s' hs h
  rw [run_bind_eq] at h
  rcases hr : x.run s with ⟨q, t⟩
  obtain ⟨ht, herror, hok⟩ := hx s q t hs hr
  rw [hr] at h
  cases q with
  | ok a => exact hf a (hok a rfl) t r s' ht h
  | error e =>
    cases h
    refine ⟨ht, fun e' he => ?_, fun b hb => by cases hb⟩
    cases he
    exact herror e rfl

theorem mono {P' : α → Prop} {x : ExceptT ε (StateM σ) α} (hx : Ends I E P x) (h : ∀ a, P a → P' a) :
    Ends I E P' x := by
  intro s r s' hs hr
  obtain ⟨hs', herror, hok⟩ := hx s r s' hs hr
  exact ⟨hs', herror, fun a ha => h a (hok a ha)⟩

theorem and {P' : α → Prop} {x : ExceptT ε (StateM σ) α} (hx : Ends I E P x) (hx' : Ends I E P' x) :
    Ends I E (fun a => P a ∧ P' a) x := by
  intro s r s' hs hr
  obtain ⟨hs', herror, hok⟩ := hx s r s' hs hr
  exact ⟨hs', herror, fun a ha => ⟨hok a ha, (hx' s r s' hs hr).2.2 a ha⟩⟩

/-- A computation none of whose errors can occur has a result. -/
theorem exists_result {x : ExceptT ε (StateM σ) α} (h : Ends I (fun _ => False) P x) {s : σ} (hs : I s) :
    ∃ a s', x.run s = (.ok a, s') ∧ I s' ∧ P a := by
  rcases hr : x.run s with ⟨r, t⟩
  obtain ⟨ht, herror, hok⟩ := h s r t hs hr
  cases r with
  | ok a => exact ⟨a, t, rfl, ht, hok a rfl⟩
  | error e => exact (herror e rfl).elim

theorem any (x : ExceptT ε (StateM σ) α) : Returns (fun _ => True) (fun _ => True) x :=
  fun _ _ _ _ _ => ⟨trivial, fun _ _ => trivial, fun _ _ => trivial⟩

theorem draw {x : StateM σ α} (h : Gives P x) : Returns E P (x : ExceptT ε (StateM σ) α) :=
  lift (fun _ _ => trivial) h

/-- The same of the computation that reports its error. -/
theorem gives {x : ExceptT ε (StateM σ) α} (h : Returns E P x) :
    Gives (fun r => (∀ e, r = .error e → E e) ∧ ∀ a, r = .ok a → P a) x.run :=
  fun s => (h s (x.run s).1 (x.run s).2 trivial rfl).2

end Ends

/-! ## Computations that may have no result -/

/-- Every result that the computation can end in, if it has one, has the property. -/
def Yields (P : α → Prop) (x : OptionT (StateM σ) α) : Prop := ∀ s a s', x.run s = (some a, s') → P a

namespace Yields

variable {P : α → Prop} {Q : β → Prop}

theorem pure {a : α} (h : P a) : Yields P (Pure.pure a : OptionT (StateM σ) α) := by
  intro s a' s' ha
  cases ha
  exact h

theorem lift {x : StateM σ α} (h : Gives P x) : Yields P (OptionT.lift x) := by
  intro s a s' ha
  cases ha
  exact h s

theorem bind {x : OptionT (StateM σ) α} {f : α → OptionT (StateM σ) β} (hx : Yields P x)
    (hf : ∀ a, P a → Yields Q (f a)) : Yields Q (x >>= f) := by
  intro s b s' h
  rw [OptionT.run_bind] at h
  change (match x.run s with
    | (r, t) => (Option.elimM (Pure.pure r : StateM σ (Option α)) (Pure.pure none) fun a => (f a).run) t) = _ at h
  rcases hr : x.run s with ⟨r, t⟩
  rw [hr] at h
  cases r with
  | some a => exact hf a (hx s a t hr) t b s' h
  | none => cases h

/-- The same of the computation that reports whether it has a result. -/
theorem gives {x : OptionT (StateM σ) α} (h : Yields P x) : Gives (fun r => ∀ a, r = some a → P a) x.run :=
  fun s a ha => h s a (x.run s).2 (Prod.ext ha rfl)

theorem any (x : OptionT (StateM σ) α) : Yields (fun _ => True) x := fun _ _ _ _ => trivial

end Yields

/-- The computation has a result from every state, and the result has the property. -/
def Attains (P : α → Prop) (x : OptionT (StateM σ) α) : Prop := ∀ s, ∃ a s', x.run s = (some a, s') ∧ P a

/-- Whether the computation can end in `a`. -/
def Possible (x : StateM σ α) (a : α) : Prop := ∃ s, (x.run s).1 = a

theorem gives_possible (x : StateM σ α) : Gives (Possible x) x := fun s => ⟨s, rfl⟩

namespace Attains

variable {P : α → Prop} {Q : β → Prop}

theorem pure {a : α} (h : P a) : Attains P (Pure.pure a : OptionT (StateM σ) α) := fun s => ⟨a, s, rfl, h⟩

theorem lift {x : StateM σ α} (h : Gives P x) : Attains P (OptionT.lift x) := fun s => ⟨_, _, rfl, h s⟩

theorem bind {x : OptionT (StateM σ) α} {f : α → OptionT (StateM σ) β} (hx : Attains P x)
    (hf : ∀ a, P a → Attains Q (f a)) : Attains Q (x >>= f) := by
  intro s
  obtain ⟨a, t, hr, ha⟩ := hx s
  obtain ⟨b, s', hb, hQ⟩ := hf a ha t
  refine ⟨b, s', ?_, hQ⟩
  rw [OptionT.run_bind]
  change (match x.run s with
    | (r, t) => (Option.elimM (Pure.pure r : StateM σ (Option α)) (Pure.pure none) fun a => (f a).run) t) = _
  rw [hr]
  exact hb

theorem mono {P' : α → Prop} {x : OptionT (StateM σ) α} (hx : Attains P x) (h : ∀ a, P a → P' a) : Attains P' x := by
  intro s
  obtain ⟨a, s', hr, ha⟩ := hx s
  exact ⟨a, s', hr, h a ha⟩

/-- The same of the computation that reports whether it has a result. -/
theorem gives {x : OptionT (StateM σ) α} (hx : Attains P x) : Gives (fun r => ∃ a, r = some a ∧ P a) x.run := by
  intro s
  obtain ⟨a, s', hr, ha⟩ := hx s
  exact ⟨a, congrArg Prod.fst hr, ha⟩

/-- The result is one of those that the computation can have. -/
theorem possible {x : OptionT (StateM σ) α} (hx : Attains P x) :
    Attains (fun a => P a ∧ Possible x.run (some a)) x := by
  intro s
  obtain ⟨a, s', hr, ha⟩ := hx s
  exact ⟨a, s', hr, ha, s, congrArg Prod.fst hr⟩

/-- What holds of every result holds of the one that there always is. -/
theorem and_yields {P' : α → Prop} {x : OptionT (StateM σ) α} (hx : Attains P x) (h : Yields P' x) :
    Attains (fun a => P a ∧ P' a) x := by
  intro s
  obtain ⟨a, s', hr, ha⟩ := hx s
  exact ⟨a, s', hr, ha, h s a s' hr⟩

end Attains

end Forager
