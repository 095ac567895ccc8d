import Forager.Proofs.Archive.Store
import Forager.Proofs.Timestamp.Order
import Mathlib.Logic.Function.Basic

/-!
# A store as two maps

* `Call`, `Answer` : the calls of a store and what they answer; `Store.after s calls` : the store after them;
* `Maps` : a map of runs and a map of generations, which every initialization empties; `Maps.after m calls`;
* `Listing P less all` : what sorting makes of all that has the property `P`, in whatever order it was met;
* `Maps.Answers m c a` : what the maps answer to a call, and `Answers.unique` : there is only one such answer;
* `Shows s m` : the store holds what the maps hold; `Shows.step`, `Shows.answers`;
* `store_refines_maps` : a store answers as the maps do.
-/

namespace Forager.Archive

set_option autoImplicit false

/-! ## Calls -/

inductive Call where
  | init
  | saveRun (r : Run)
  | saveGeneration (g : GenerationRecord)
  | getRun (id : String)
  | listRuns (limit : Int)
  | getGenerations (runId : String)

inductive Answer where
  | done
  | failed (e : StoreError)
  | run (r : Option Run)
  | runs (rs : List Run)
  | generations (gs : Option (List GenerationRecord))

def Answer.ofRead {α : Type} (wrap : α → Answer) : Except StoreError α → Answer
  | .ok x => wrap x
  | .error e => .failed e

/-- The answer of a call that saves, and the store that it leaves. -/
def Answer.ofSave (s : Store) : Except StoreError Store → Answer × Store
  | .ok s' => (.done, s')
  | .error e => (.failed e, s)

def Call.perform (s : Store) : Call → Answer × Store
  | .init => (.done, s.init)
  | .saveRun r => Answer.ofSave s (s.saveRun r)
  | .saveGeneration g => Answer.ofSave s (s.saveGeneration g)
  | .getRun id => (.ofRead .run (s.getRun id), s)
  | .listRuns limit => (.ofRead .runs (s.listRuns limit), s)
  | .getGenerations runId => (.ofRead .generations (s.getGenerations runId), s)

def Store.after (s : Store) (calls : List Call) : Store := calls.foldl (fun s c => (c.perform s).2) s

def Store.answers (s : Store) : List Call → List Answer
  | [] => []
  | c :: calls => (c.perform s).1 :: answers (c.perform s).2 calls

theorem Store.answers_append (s : Store) (calls more : List Call) :
    s.answers (calls ++ more) = s.answers calls ++ (s.after calls).answers more := by
  induction calls generalizing s with
  | nil => rfl
  | cons c calls ih => exact congrArg (_ :: ·) (ih _)

/-- Whether two calls save under different keys. -/
def Call.Apart : Call → Call → Prop
  | .saveRun r, .saveRun r' => r.id ≠ r'.id
  | .saveGeneration g, .saveGeneration g' => g.runId ≠ g'.runId ∨ g.index ≠ g'.index
  | .saveRun _, .saveGeneration _ => True
  | .saveGeneration _, .saveRun _ => True
  | _, _ => False

/-! ## Maps -/

def GenerationRecord.key (g : GenerationRecord) : String × Int64 := (g.runId, g.index)

/-- A run for each id, and a generation for each run and index. -/
structure Maps where
  runs : String → Option Run := fun _ => none
  generations : String × Int64 → Option GenerationRecord := fun _ => none

/-- The maps after a call, if there are any. -/
def Maps.next : Option Maps → Call → Option Maps
  | _, .init => some {}
  | some m, .saveRun r => some { m with runs := Function.update m.runs r.id (some r) }
  | some m, .saveGeneration g => some { m with generations := Function.update m.generations g.key (some g.kept) }
  | m, _ => m

def Maps.after (m : Option Maps) (calls : List Call) : Option Maps := calls.foldl next m

def Call.run? (id : String) : Call → Option Run
  | .saveRun r => if r.id = id then some r else none
  | _ => none

/-- The generation that a call saves for a run and an index. -/
def Call.generation? (key : String × Int64) : Call → Option GenerationRecord
  | .saveGeneration g => if g.key = key then some g.kept else none
  | _ => none

/-- Without an initialization among the calls, the maps hold what was saved last, or what they held before. -/
theorem Maps.after_some (m : Maps) {calls : List Call} (h : ∀ c ∈ calls, c ≠ .init) :
    ∃ m', Maps.after (some m) calls = some m' ∧
      (∀ id, m'.runs id = (calls.reverse.findSome? (·.run? id)).or (m.runs id)) ∧
      ∀ key, m'.generations key = (calls.reverse.findSome? (·.generation? key)).or (m.generations key) := by
  induction calls generalizing m with
  | nil => exact ⟨m, rfl, fun _ => rfl, fun _ => rfl⟩
  | cons c calls ih =>
    obtain ⟨hc, hcalls⟩ := List.forall_mem_cons.mp h
    -- What the first call saves is what the maps hold before the others.
    have hfirst : ∃ m₁, next (some m) c = some m₁ ∧ (∀ id, m₁.runs id = (c.run? id).or (m.runs id)) ∧
        ∀ key, m₁.generations key = (c.generation? key).or (m.generations key) := by
      cases c with
      | init => exact absurd rfl hc
      | saveRun r =>
        refine ⟨_, rfl, fun id => ?_, fun _ => rfl⟩
        by_cases hid : r.id = id
        · simp [Call.run?, hid]
        · simp [Call.run?, hid, Function.update_of_ne (Ne.symm hid)]
      | saveGeneration g =>
        refine ⟨_, rfl, fun _ => rfl, fun key => ?_⟩
        by_cases hkey : g.key = key
        · simp [Call.generation?, hkey]
        · simp [Call.generation?, hkey, Function.update_of_ne (Ne.symm hkey)]
      | getRun id => exact ⟨m, rfl, fun _ => rfl, fun _ => rfl⟩
      | listRuns limit => exact ⟨m, rfl, fun _ => rfl, fun _ => rfl⟩
      | getGenerations runId => exact ⟨m, rfl, fun _ => rfl, fun _ => rfl⟩
    obtain ⟨m₁, hnext, hruns₁, hgenerations₁⟩ := hfirst
    obtain ⟨m', hafter, hruns, hgenerations⟩ := ih m₁ hcalls
    refine ⟨m', ?_, fun id => ?_, fun key => ?_⟩
    · rw [Maps.after, List.foldl_cons, hnext]
      exact hafter
    · rw [hruns, hruns₁, List.reverse_cons, List.findSome?_append, List.findSome?_singleton, Option.or_assoc]
    · rw [hgenerations, hgenerations₁, List.reverse_cons, List.findSome?_append, List.findSome?_singleton,
        Option.or_assoc]

/-- Saves under different keys commute. -/
theorem Maps.next_comm (m : Option Maps) {x y : Call} (h : x.Apart y) : next (next m x) y = next (next m y) x := by
  cases m with
  | none => cases x <;> cases y <;> first | rfl | exact h.elim
  | some m =>
    cases x with
    | saveRun r =>
      cases y with
      | saveRun r' => exact congrArg (fun runs => some { m with runs }) (Function.update_comm h _ _ m.runs)
      | saveGeneration g => rfl
      | _ => exact h.elim
    | saveGeneration g =>
      cases y with
      | saveRun r => rfl
      | saveGeneration g' =>
        have hkey : g.key ≠ g'.key := fun hkey => by
          obtain ⟨hid, hindex⟩ := Prod.mk.inj hkey
          exact h.elim (absurd hid) (absurd hindex)
        exact congrArg (fun generations => some { m with generations }) (Function.update_comm hkey _ _ m.generations)
      | _ => exact h.elim
    | _ => exact h.elim

/-! ## Listings -/

/-- All that has the property, each once, with nothing after what it should come before. Whoever sorts by `less` what
has the property comes to such a list, in whatever order it was met. -/
structure Listing {α : Type} (P : α → Prop) (less : α → α → Prop) (all : List α) : Prop where
  members : ∀ x, x ∈ all ↔ P x
  once : all.Nodup
  sorted : all.Pairwise fun a b => ¬less b a

/-- If of any two one comes before the other, the listing does not depend on how it was made. -/
theorem Listing.unique {α : Type} {P : α → Prop} {less : α → α → Prop} {all other : List α}
    (htotal : ∀ a b, P a → P b → ¬less a b → ¬less b a → a = b) (h : Listing P less all) (h' : Listing P less other) :
    all = other := by
  have hperm : all.Perm other :=
    (List.perm_ext_iff_of_nodup h.once h'.once).mpr fun x => (h.members x).trans (h'.members x).symm
  refine hperm.eq_of_pairwise (fun a b ha hb hab hba => ?_) h.sorted h'.sorted
  exact htotal a b ((h.members a).mp ha) ((h'.members b).mp hb) hba hab

/-- The order of runs: the newest first, and runs of the same moment by id. -/
def Run.Precedes (a b : Run) : Prop :=
  b.createdAt.instant < a.createdAt.instant ∨
    a.createdAt.instant = b.createdAt.instant ∧ Text.bytes a.id < Text.bytes b.id

theorem Run.before_iff (a b : Run) : a.before b = true ↔ ¬b.Precedes a := by
  unfold Run.before Run.Precedes
  split
  · rename_i hsame
    simp [hsame, List.not_lt]
  · rename_i hdiffer
    simp only [decide_eq_true_eq]
    omega

theorem Run.before_trans (a b c : Run) (hab : a.before b = true) (hbc : b.before c = true) : a.before c = true := by
  rw [Run.before_iff] at *
  unfold Run.Precedes at *
  have hbytes : Text.bytes a.id ≤ Text.bytes b.id → Text.bytes b.id ≤ Text.bytes c.id →
      Text.bytes a.id ≤ Text.bytes c.id :=
    List.le_trans
  rw [← List.not_lt, ← List.not_lt, ← List.not_lt] at hbytes
  grind

theorem Run.before_total (a b : Run) : (a.before b || b.before a) = true := by
  rw [Bool.or_eq_true, Run.before_iff, Run.before_iff]
  unfold Run.Precedes
  have hbytes := List.le_total (Text.bytes a.id) (Text.bytes b.id)
  rw [← List.not_lt, ← List.not_lt] at hbytes
  grind

theorem Run.eq_id {a b : Run} (hab : ¬a.Precedes b) (hba : ¬b.Precedes a) : a.id = b.id := by
  unfold Run.Precedes at hab hba
  have hlt : ¬Text.bytes a.id < Text.bytes b.id := by grind
  have hgt : ¬Text.bytes b.id < Text.bytes a.id := by grind
  exact Text.bytes_inj.mp (List.le_antisymm (List.not_lt.mp hgt) (List.not_lt.mp hlt))

/-- What the maps answer to a call. Without maps, every call but an initialization fails. -/
inductive Maps.Answers : Option Maps → Call → Answer → Prop where
  | init (m : Option Maps) : Answers m .init .done
  | failed {c : Call} (h : c ≠ .init) : Answers none c (.failed .notInitialized)
  | saveRun (m : Maps) (r : Run) : Answers (some m) (.saveRun r) .done
  | saveGeneration (m : Maps) (g : GenerationRecord) : Answers (some m) (.saveGeneration g) .done
  | getRun (m : Maps) (id : String) : Answers (some m) (.getRun id) (.run (m.runs id))
  | listRuns {m : Maps} {all : List Run} (h : Listing (fun r => m.runs r.id = some r) Run.Precedes all) (limit : Int) :
    Answers (some m) (.listRuns limit) (.runs (if 0 < limit then all.take limit.toNat else all))
  | noGenerations {m : Maps} {runId : String} (h : ∀ index, m.generations (runId, index) = none) :
    Answers (some m) (.getGenerations runId) (.generations none)
  | generations {m : Maps} {runId : String} {all : List GenerationRecord} (hne : all ≠ [])
    (h : Listing (fun g => m.generations (runId, g.index) = some g) (fun a b => a.index < b.index) all) :
    Answers (some m) (.getGenerations runId) (.generations (some all))

/-- **The answer of the maps** is the only one, in whatever order their values are met. -/
theorem Maps.Answers.unique {m : Option Maps} {c : Call} {a b : Answer} (ha : Answers m c a) (hb : Answers m c b) :
    a = b := by
  cases ha with
  | init =>
    cases hb with
    | init => rfl
    | failed h => exact absurd rfl h
  | failed h =>
    cases hb with
    | init => exact absurd rfl h
    | failed => rfl
  | saveRun => cases hb; rfl
  | saveGeneration => cases hb; rfl
  | getRun => cases hb; rfl
  | listRuns h limit =>
    cases hb with
    | listRuns h' =>
      have hsame := h.unique (fun r r' hr hr' hlt hgt => by
        rw [Run.eq_id hlt hgt, hr'] at hr
        exact (Option.some.inj hr).symm) h'
      rw [hsame]
  | noGenerations h =>
    cases hb with
    | noGenerations => rfl
    | generations hne h' =>
      obtain ⟨g, hg⟩ := List.exists_mem_of_ne_nil _ hne
      have hsome := (h'.members g).mp hg
      rw [h] at hsome
      cases hsome
  | generations hne h =>
    cases hb with
    | noGenerations h' =>
      obtain ⟨g, hg⟩ := List.exists_mem_of_ne_nil _ hne
      have hsome := (h.members g).mp hg
      rw [h'] at hsome
      cases hsome
    | generations hne' h' =>
      have hsame := h.unique (fun g g' hg hg' hlt hgt => by
        rw [Int64.le_antisymm (Int64.not_lt.mp hgt) (Int64.not_lt.mp hlt), hg'] at hg
        exact (Option.some.inj hg).symm) h'
      rw [hsame]

/-! ## Tables -/

/-- The list holds at most one record of each key, and these are the values of a map. -/
structure Table {ρ κ : Type} (key : ρ → κ) (xs : List ρ) (f : κ → Option ρ) : Prop where
  keys : (xs.map key).Nodup
  found : ∀ k r, f k = some r ↔ r ∈ xs ∧ key r = k

namespace Table

variable {ρ κ : Type} {key : ρ → κ} {xs : List ρ} {f : κ → Option ρ}

theorem nil (key : ρ → κ) : Table key [] fun _ => none := ⟨by simp, by simp⟩

theorem mem_upsert {same : ρ → ρ → Bool} (hsame : ∀ a b, same a b = true ↔ key a = key b) (hkeys : (xs.map key).Nodup)
    (r x : ρ) : x ∈ upsert same r xs ↔ x = r ∨ x ∈ xs ∧ key x ≠ key r := by
  induction xs with
  | nil => simp [upsert]
  | cons y xs ih =>
    obtain ⟨hy, hxs⟩ := List.nodup_cons.mp hkeys
    rw [upsert]
    split
    · rename_i hr
      rw [hsame] at hr
      have hothers : ∀ x ∈ xs, key x ≠ key r := fun x hx heq => hy (hr.trans heq.symm ▸ List.mem_map_of_mem hx)
      simp only [List.mem_cons]
      grind
    · rename_i hr
      rw [hsame] at hr
      simp only [List.mem_cons, ih hxs]
      grind

theorem upsert [DecidableEq κ] {same : ρ → ρ → Bool} (hsame : ∀ a b, same a b = true ↔ key a = key b)
    (h : Table key xs f) (r : ρ) :
    Table key (Archive.upsert same r xs) (Function.update f (key r) (some r)) where
  keys := by
    have hkeys := h.keys
    clear h
    induction xs with
    | nil => simp [Archive.upsert]
    | cons y xs ih =>
      obtain ⟨hy, hxs⟩ := List.nodup_cons.mp hkeys
      rw [Archive.upsert]
      split
      · rename_i hr
        rw [List.map_cons, ← (hsame y r).mp hr]
        exact hkeys
      · rename_i hr
        refine List.nodup_cons.mpr ⟨fun hmem => ?_, ih hxs⟩
        obtain ⟨x, hx, heq⟩ := List.mem_map.mp hmem
        rcases (mem_upsert hsame hxs r x).mp hx with rfl | ⟨hx, -⟩
        · exact hr ((hsame y x).mpr heq.symm)
        · exact hy (heq ▸ List.mem_map_of_mem hx)
  found k x := by
    rw [mem_upsert hsame h.keys]
    by_cases hk : k = key r
    · subst hk
      rw [Function.update_self]
      grind
    · rw [Function.update_of_ne hk, h.found]
      grind

theorem find? (h : Table key xs f) {p : ρ → Bool} {k : κ} (hp : ∀ x, p x = true ↔ key x = k) : xs.find? p = f k := by
  cases hfind : xs.find? p with
  | none =>
    rw [List.find?_eq_none] at hfind
    cases hk : f k with
    | none => rfl
    | some r =>
      obtain ⟨hr, hkey⟩ := (h.found k r).mp hk
      exact absurd ((hp r).mpr hkey) (hfind r hr)
  | some r =>
    exact ((h.found k r).mpr ⟨List.mem_of_find?_eq_some hfind, (hp r).mp (List.find?_some hfind)⟩).symm

end Table

/-! ## Stores -/

/-- The store holds what the maps hold. -/
inductive Shows : Store → Option Maps → Prop where
  | unopened : Shows {} none
  | opened {h : Holdings} {m : Maps} (runs : Table Run.id h.runs m.runs)
    (generations : Table GenerationRecord.key h.generations m.generations) : Shows ⟨some h⟩ (some m)

namespace Shows

variable {s t : Store} {m : Option Maps}

/-- A call leads to a store that holds what the maps hold after it. -/
theorem step (h : Shows s m) (c : Call) : Shows (c.perform s).2 (Maps.next m c) := by
  cases h with
  | unopened =>
    cases c with
    | init => exact .opened (.nil _) (.nil _)
    | _ => exact .unopened
  | opened hruns hgenerations =>
    cases c with
    | init => exact .opened (.nil _) (.nil _)
    | saveRun r => exact .opened (hruns.upsert (by simp) r) hgenerations
    | saveGeneration g => exact .opened hruns (hgenerations.upsert (by simp [GenerationRecord.key]) g.kept)
    | _ => exact .opened hruns hgenerations

theorem after (h : Shows s m) (calls : List Call) : Shows (s.after calls) (Maps.after m calls) := by
  induction calls generalizing s m with
  | nil => exact h
  | cons c calls ih => exact ih (h.step c)

theorem listing_runs {h : Holdings} {m : Maps} (hruns : Table Run.id h.runs m.runs) :
    Listing (fun r => m.runs r.id = some r) Run.Precedes (h.runs.mergeSort Run.before) where
  members r := by
    rw [List.mem_mergeSort, hruns.found]
    simp
  once := (List.mergeSort_perm _ _).nodup_iff.mpr (List.Nodup.of_map _ hruns.keys)
  sorted := (List.pairwise_mergeSort Run.before_trans Run.before_total h.runs).imp fun {a b} hab =>
    (Run.before_iff a b).mp hab

theorem listing_generations {h : Holdings} {m : Maps}
    (hgenerations : Table GenerationRecord.key h.generations m.generations) (runId : String) :
    Listing (fun g => m.generations (runId, g.index) = some g) (fun a b => a.index < b.index)
      ((h.generations.filter (·.runId == runId)).mergeSort fun a b => a.index ≤ b.index) where
  members g := by
    rw [List.mem_mergeSort, List.mem_filter, hgenerations.found, GenerationRecord.key]
    simp
  once := (List.mergeSort_perm _ _).nodup_iff.mpr ((List.Nodup.of_map _ hgenerations.keys).filter _)
  sorted := by
    refine (List.pairwise_mergeSort ?_ ?_ _).imp fun {a b} hab => Int64.not_lt.mpr (by simpa using hab)
    · intro a b c hab hbc
      simp only [decide_eq_true_eq] at *
      exact Int64.le_trans hab hbc
    · intro a b
      simpa using Int64.le_total a.index b.index

/-- **One call** is answered as the maps answer it. -/
theorem answer (h : Shows s m) (c : Call) : Maps.Answers m c (c.perform s).1 := by
  cases h with
  | unopened =>
    cases c with
    | init => exact .init _
    | _ => exact .failed nofun
  | @opened held m hruns hgenerations =>
    cases c with
    | init => exact .init _
    | saveRun r => exact .saveRun m r
    | saveGeneration g => exact .saveGeneration m g
    | getRun id =>
      have hfind : held.runs.find? (·.id == id) = m.runs id := hruns.find? (by simp)
      have hanswer := Maps.Answers.getRun m id
      rw [← hfind] at hanswer
      exact hanswer
    | listRuns limit => exact .listRuns (listing_runs hruns) limit
    | getGenerations runId =>
      have hlisting := listing_generations hgenerations runId
      change Maps.Answers _ _ (.ofRead .generations (Store.getGenerations ⟨some held⟩ runId))
      rw [Store.getGenerations_eq rfl]
      dsimp only
      split
      · rename_i hempty
        rw [List.isEmpty_iff] at hempty
        refine .noGenerations fun index => Option.eq_none_iff_forall_not_mem.mpr fun g hg => ?_
        obtain ⟨-, hkey⟩ := (hgenerations.found _ g).mp hg
        have hindex : g.index = index := (Prod.mk.inj hkey).2
        have hmem := (hlisting.members g).mpr (hindex ▸ hg)
        rw [hempty] at hmem
        cases hmem
      · rename_i hsome
        exact .generations (by simpa using hsome) hlisting

/-- Stores that hold the same answer alike ever after. -/
theorem answers (h : Shows s m) (h' : Shows t m) (calls : List Call) : s.answers calls = t.answers calls := by
  induction calls generalizing s t m with
  | nil => rfl
  | cons c calls ih =>
    rw [Store.answers, Store.answers, (h.answer c).unique (h'.answer c), ih (h.step c) (h'.step c)]

/-- Two saves under different keys answer the same, and may as well be made in the other order. -/
theorem answers_comm (h : Shows s m) {x y : Call} (hxy : x.Apart y) (calls : List Call) :
    s.answers (x :: y :: calls) = s.answers (y :: x :: calls) := by
  have hrest := ((h.step x).step y).answers (Maps.next_comm m hxy ▸ (h.step y).step x) calls
  have hsaves : (x.perform s).1 = (y.perform s).1 ∧ (y.perform (x.perform s).2).1 = (x.perform (y.perform s).2).1 := by
    cases h with
    | unopened => cases x <;> cases y <;> first | exact ⟨rfl, rfl⟩ | exact hxy.elim
    | opened hruns hgenerations => cases x <;> cases y <;> first | exact ⟨rfl, rfl⟩ | exact hxy.elim
  simp only [Store.answers, hrest, hsaves.1, hsaves.2]

end Shows

theorem Maps.after_none {calls : List Call} (h : ∀ c ∈ calls, c ≠ .init) : Maps.after none calls = none := by
  induction calls with
  | nil => rfl
  | cons c calls ih =>
    obtain ⟨hc, hcalls⟩ := List.forall_mem_cons.mp h
    have hnext : Maps.next none c = none := by
      cases c with
      | init => exact absurd rfl hc
      | _ => rfl
    rw [Maps.after, List.foldl_cons, hnext]
    exact ih hcalls

/-- **A store is two maps.** After any calls, the answer to a call is the one that the maps give. Since the last
initialization the maps have kept, for each key, what was saved last; an empty list of programs is kept as none. Before
the first initialization every call fails and changes nothing. Saves under different keys can be exchanged without any
difference to the answers. -/
theorem store_refines_maps (calls : List Call) :
    (∀ c a, (c.perform (Store.after {} calls)).1 = a ↔ Maps.Answers (Maps.after none calls) c a) ∧
    (∀ earlier later, calls = earlier ++ .init :: later → (∀ c ∈ later, c ≠ .init) →
      ∃ m, Maps.after none calls = some m ∧ (∀ id, m.runs id = later.reverse.findSome? (·.run? id)) ∧
        ∀ key, m.generations key = later.reverse.findSome? (·.generation? key)) ∧
    ((∀ c ∈ calls, c ≠ .init) → Store.after {} calls = {} ∧
      ∀ c : Call, c ≠ .init → c.perform (Store.after {} calls) = (.failed .notInitialized, Store.after {} calls)) ∧
    ∀ x y more, x.Apart y →
      Store.answers {} (calls ++ x :: y :: more) = Store.answers {} (calls ++ y :: x :: more) := by
  have hshows : Shows (Store.after {} calls) (Maps.after none calls) := Shows.unopened.after calls
  refine ⟨fun c a => ⟨?_, fun ha => (hshows.answer c).unique ha⟩, ?_, fun hcalls => ?_, fun x y more hxy => ?_⟩
  · rintro rfl
    exact hshows.answer c
  · rintro earlier later rfl hlater
    obtain ⟨m, hm, hruns, hgenerations⟩ := Maps.after_some {} hlater
    refine ⟨m, ?_, fun id => (hruns id).trans (Option.or_none), fun key => (hgenerations key).trans (Option.or_none)⟩
    rw [Maps.after, List.foldl_append, List.foldl_cons]
    exact hm
  · rw [Maps.after_none hcalls] at hshows
    generalize Store.after {} calls = s at hshows
    cases hshows
    refine ⟨rfl, fun c hc => ?_⟩
    cases c with
    | init => exact absurd rfl hc
    | _ => rfl
  · rw [Store.answers_append, Store.answers_append, hshows.answers_comm hxy]

/-- A run of some second. -/
def runAt (id : String) (second : Nat) : Run :=
  { version := .current, id, createdAt := ⟨⟨2026, 3, 1⟩, 12, 0, second, 0, 0⟩ }

/-- A store that is initialized twice, with a run that is saved twice and generations that are not saved in order. -/
def busyCalls : List Call :=
  [.init, .saveRun (runAt "lost" 0), .init, .saveRun (runAt "a" 5), .saveGeneration { runId := "a", index := 3 },
    .saveRun (runAt "b" 7), .saveGeneration { runId := "a", index := 1 }, .saveRun (runAt "a" 7)]

theorem store_refines_maps_busy :
    (Call.perform (Store.after {} busyCalls) (.getRun "lost")).1 = .run none ∧
    (Call.perform (Store.after {} busyCalls) (.listRuns 0)).1 = .runs [runAt "a" 7, runAt "b" 7] ∧
    (Call.perform (Store.after {} busyCalls) (.getGenerations "a")).1 =
      .generations (some [{ runId := "a", index := 1 }, { runId := "a", index := 3 }]) ∧
    Store.answers {} (busyCalls ++ [.saveRun (runAt "c" 1), .saveRun (runAt "d" 2), .listRuns 3]) =
      Store.answers {} (busyCalls ++ [.saveRun (runAt "d" 2), .saveRun (runAt "c" 1), .listRuns 3]) := by
  obtain ⟨hanswer, hlast, -, hcomm⟩ := store_refines_maps busyCalls
  obtain ⟨m, hm, hruns, hgenerations⟩ := hlast [.init, .saveRun (runAt "lost" 0)] (busyCalls.drop 3) rfl
    (by simp [busyCalls])
  rw [hm] at hanswer
  have hruns : ∀ id, m.runs id =
      if "a" = id then some (runAt "a" 7) else if "b" = id then some (runAt "b" 7) else none := by
    intro id
    rw [hruns]
    by_cases ha : "a" = id <;> by_cases hb : "b" = id <;> simp [busyCalls, Call.run?, runAt, ha, hb]
  have hgenerations : ∀ index, m.generations ("a", index) = if 1 = index then some { runId := "a", index := 1 } else
      if 3 = index then some { runId := "a", index := 3 } else none := by
    intro index
    rw [hgenerations]
    by_cases hone : 1 = index <;> by_cases hthree : 3 = index <;>
      simp [busyCalls, Call.generation?, GenerationRecord.key, GenerationRecord.kept, hone, hthree]
  refine ⟨?_, (hanswer _ _).mpr (.listRuns ⟨fun r => ?_, ?_, ?_⟩ 0),
    (hanswer _ _).mpr (.generations (by simp) ⟨fun g => ?_, ?_, ?_⟩), hcomm _ _ _ (show "c" ≠ "d" by decide)⟩
  · have hnone : m.runs "lost" = none := hruns "lost"
    exact (hanswer _ _).mpr (hnone ▸ .getRun m "lost")
  · rw [hruns]
    grind [runAt]
  · simp [runAt]
  · have horder : Text.bytes "a" ≤ Text.bytes "b" := by decide +kernel
    simpa [Run.Precedes, runAt] using horder
  · rw [hgenerations]
    grind
  · simp
  · simp

end Forager.Archive
