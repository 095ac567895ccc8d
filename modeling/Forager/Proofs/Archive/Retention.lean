import Forager.Proofs.Archive.Upkeep

/-!
# What a run leaves

The files of a run read back as what was written, and stay so when other runs are written.

* `readTable?` : the rows of a table; `readTable?_eq_some` : a table reads back if its cells hold no separator;
* `readSeries?` : the figures in the table of a history; `readSeries?_seriesText` : they are those of the history;
* `extends_writeRuns` : writing runs, whatever comes of it, touches their own files and the index;
* `run_retained` : the files of a run read back, also after other runs were written.
-/

namespace Forager.Archive

set_option autoImplicit false

open Disk (Place Extends IsPlain)
open Number (isNumeral isFinite)

/-! ## Tables -/

/-- The rows of a table: each is a line, with its line break, and has its cells between commas. -/
def readTable? (text : String) : Option (List (List String)) :=
  let lines := text.toList.splitOn '\n'
  if lines.getLast? = some [] then some (lines.dropLast.map fun line => (line.splitOn ',').map String.ofList) else none

def tableLine (cells : List String) : List Char := [','].intercalate (cells.map String.toList)

def IsCell (cell : String) : Prop := ',' ∉ cell.toList ∧ '\n' ∉ cell.toList

instance (cell : String) : Decidable (IsCell cell) := inferInstanceAs (Decidable (_ ∧ _))

theorem isCell_of_isNumeral {cell : String} (h : ∀ c ∈ cell.toList, isNumeral c = true) : IsCell cell :=
  ⟨fun hc => absurd (h _ hc) (by decide), fun hc => absurd (h _ hc) (by decide)⟩

theorem splitOn_lines {lines : List (List Char)} (h : ∀ line ∈ lines, '\n' ∉ line) :
    (lines.flatMap (· ++ ['\n'])).splitOn '\n' = lines ++ [[]] := by
  induction lines with
  | nil => rfl
  | cons line lines ih =>
    obtain ⟨hline, hlines⟩ := List.forall_mem_cons.mp h
    rw [List.flatMap_cons, List.append_assoc, List.singleton_append, List.splitOn_append_cons_self,
      List.splitOn_eq_singleton hline, ih hlines]
    rfl

theorem not_mem_tableLine {cells : List String} (h : ∀ cell ∈ cells, IsCell cell) : '\n' ∉ tableLine cells := by
  induction cells with
  | nil => exact List.not_mem_nil
  | cons cell cells ih =>
    obtain ⟨hcell, hcells⟩ := List.forall_mem_cons.mp h
    cases cells with
    | nil =>
      rw [tableLine, List.map_singleton, List.intercalate_singleton]
      exact hcell.2
    | cons next cells =>
      rw [tableLine, List.map_cons, List.map_cons, List.intercalate_cons_cons, List.mem_append, List.mem_append]
      rintro ((hmem | hmem) | hmem)
      · exact hcell.2 hmem
      · exact absurd hmem (by decide)
      · exact ih hcells hmem

/-- **Tables read back.** -/
theorem readTable?_eq_some {text : String} {rows : List (List String)}
    (htext : text.toList = rows.flatMap fun cells => tableLine cells ++ ['\n'])
    (hrows : ∀ cells ∈ rows, cells ≠ [] ∧ ∀ cell ∈ cells, IsCell cell) : readTable? text = some rows := by
  have hlines : text.toList.splitOn '\n' = rows.map tableLine ++ [[]] := by
    rw [htext, ← splitOn_lines (List.forall_mem_map.mpr fun cells hcells => not_mem_tableLine (hrows cells hcells).2),
      List.flatMap_map]
  have hcells : ∀ cells ∈ rows, ((tableLine cells).splitOn ',').map String.ofList = cells := by
    intro cells hmem
    obtain ⟨hne, hcell⟩ := hrows cells hmem
    rw [tableLine, List.splitOn_intercalate ',' (List.forall_mem_map.mpr fun cell hc => (hcell cell hc).1)
      (by simpa using hne), List.map_map]
    exact List.map_id'' (fun _ => String.ofList_toList) cells
  unfold readTable?
  simp only [hlines, List.getLast?_concat, if_true, List.dropLast_concat, List.map_map]
  exact congrArg some ((List.map_congr_left hcells).trans (List.map_id rows))

/-! ## The table of a history -/

/-- What the table of a history shows of a generation. -/
structure Figures where
  generation : Int64
  mean : Float
  max : Float
  min : Float

def HistoryLine.figures (line : HistoryLine) : Figures := ⟨line.generation, line.mean, line.max, line.min⟩

def Figures.ofCells? : List String → Option Figures
  | [generation, mean, max, min] => do
    let generation ← (Number.integer? generation).toOption
    let mean ← (Number.real? mean).toOption
    let max ← (Number.real? max).toOption
    let min ← (Number.real? min).toOption
    return ⟨.ofInt generation, mean, max, min⟩
  | _ => none

def seriesHeading : List String := ["generation", "mean", "max", "min"]

/-- The figures of all generations, a row for each under the heading. -/
def readSeries? (text : String) : Option (List Figures) := do
  match ← readTable? text with
  | [] => none
  | heading :: rows => if heading = seriesHeading then rows.mapM Figures.ofCells? else none

def HistoryLine.cells (line : HistoryLine) : List String :=
  [toString line.generation.toInt, Number.plain line.mean, Number.plain line.max, Number.plain line.min]

theorem toList_seriesText (history : List HistoryLine) :
    (seriesText history).toList =
      (seriesHeading :: history.map HistoryLine.cells).flatMap fun cells => tableLine cells ++ ['\n'] := by
  unfold seriesText
  rw [String.toList_join, List.flatMap_cons, List.flatMap_cons, List.flatMap_map, List.flatMap_map]
  refine congrArg₂ (· ++ ·) (by decide) (congrArg (List.flatMap · history) (funext fun line => ?_))
  simp only [tableLine, HistoryLine.cells, List.map_cons, List.map_nil, List.intercalate_cons_cons,
    List.intercalate_singleton, String.toList_append, List.append_assoc]
  rfl

section

variable {line : HistoryLine} (h : line.isWritable = true)
include h

theorem HistoryLine.isCell_cells : ∀ cell ∈ line.cells, IsCell cell := by
  simp only [isWritable, Bool.and_eq_true] at h
  simp only [cells, List.forall_mem_cons, List.not_mem_nil, false_imp_iff, implies_true, and_true]
  exact ⟨isCell_of_isNumeral (Number.isNumeral_toString _), isCell_of_isNumeral (Number.isNumeral_text _ h.1.1),
    isCell_of_isNumeral (Number.isNumeral_text _ h.1.2), isCell_of_isNumeral (Number.isNumeral_text _ h.2)⟩

theorem HistoryLine.ofCells?_cells : Figures.ofCells? line.cells = some line.figures := by
  simp only [isWritable, Bool.and_eq_true] at h
  have hgeneration := Number.integer?_toString line.generation.le_toInt (Int.le_of_lt_add_one line.generation.toInt_lt)
  simp only [cells, Figures.ofCells?, Number.plain, hgeneration, Number.real?_text _ h.1.1, Number.real?_text _ h.1.2,
    Number.real?_text _ h.2]
  change some (Figures.mk (.ofInt line.generation.toInt) line.mean line.max line.min) = _
  rw [Int64.ofInt_toInt]
  rfl

end

theorem mapM_ofCells? {history : List HistoryLine} (h : ∀ line ∈ history, line.isWritable = true) :
    (history.map HistoryLine.cells).mapM Figures.ofCells? = some (history.map HistoryLine.figures) := by
  induction history with
  | nil => rfl
  | cons line history ih =>
    obtain ⟨hline, hrest⟩ := List.forall_mem_cons.mp h
    rw [List.map_cons, List.mapM_cons, HistoryLine.ofCells?_cells hline, ih hrest]
    rfl

/-- **The table of a history reads back**, if all its numbers are finite. -/
theorem readSeries?_seriesText {history : List HistoryLine} (h : ∀ line ∈ history, line.isWritable = true) :
    readSeries? (seriesText history) = some (history.map HistoryLine.figures) := by
  have htable : readTable? (seriesText history) = some (seriesHeading :: history.map HistoryLine.cells) := by
    refine readTable?_eq_some (toList_seriesText history) (List.forall_mem_cons.mpr ⟨by decide, ?_⟩)
    exact List.forall_mem_map.mpr fun line hline => ⟨List.cons_ne_nil _ _, HistoryLine.isCell_cells (h line hline)⟩
  unfold readSeries?
  rw [htable]
  exact mapM_ofCells? h

/-! ## Other runs -/

theorem extends_writeRuns (base : String) (d : Disk) (writes : List (Artifacts × Timestamp)) :
    Extends (fun r => ∃ w ∈ writes, Among base w.1.config.runId runFiles r) d (writeRuns base d writes) := by
  induction writes generalizing d with
  | nil => exact .refl _ d
  | cons w writes ih =>
    refine ((touches_recordRun base (w.1.dated w.2) d).mono ?_).trans ((ih _).mono ?_)
    · rw [Artifacts.config_dated]
      exact fun r hr => ⟨w, List.mem_cons_self, hr⟩
    · exact fun r ⟨b, hb, hr⟩ => ⟨b, List.mem_cons_of_mem w hb, hr⟩

/-- **What a run leaves is kept.** Once a run was written, its configuration, its history and its programs are read as
they were written, and its table has the heading and a row with the figures of each generation. So it stays when runs
with other names are written, whether they succeed or not. -/
theorem run_retained {base path : String} {a : Artifacts} {now : Timestamp} {d d' : Disk}
    (hid : IsPlain a.config.runId) (hwrite : (writeRun base a now).run d = (.ok path, d'))
    {others : List (Artifacts × Timestamp)}
    (hothers : ∀ b ∈ others, IsPlain b.1.config.runId ∧ b.1.config.runId ≠ a.config.runId) :
    readConfig (writeRuns base d' others) base a.config.runId = .ok (some a.config) ∧
    readHistory (writeRuns base d' others) base a.config.runId = .ok (some ⟨some a.history, a.finalBestFitness⟩) ∧
    readPrograms (writeRuns base d' others) base a.config.runId = .ok (some (some a.bestPrograms)) ∧
    ∃ bytes, (writeRuns base d' others).readFile (runFile base a.config.runId seriesFile) = .ok bytes ∧
      readSeries? (Text.decode bytes) = some (a.history.map HistoryLine.figures) := by
  obtain ⟨-, hwrote⟩ := recordRun_ok hwrite
  have hlines : ∀ line ∈ a.history, line.isWritable = true := by
    have hwritable := isWritable_of_recordRun hwrite
    rw [Artifacts.isWritable_dated] at hwritable
    simp only [Artifacts.isWritable, Bool.and_eq_true] at hwritable
    exact List.all_eq_true.mp hwritable.1.2
  have hapart : ∀ f ∈ runFiles, ¬∃ b ∈ others,
      Among base b.1.config.runId runFiles (Place.ofPath (runFile base a.config.runId f)) := by
    rintro f hf ⟨b, hb, hamong⟩
    obtain ⟨hplain, hne⟩ := hothers b hb
    exact not_among_other hwrote.base_ne hid hplain hne.symm hf hamong
  have hextends := extends_writeRuns base d' others
  have harchived := (archived_dated.mp hwrote.archived).extends hextends hapart
  have hfiled := (hwrote.filed (by simpa using hid)).extends hextends fun f hf _ => by simpa using hapart f hf
  have hseries := hfiled.series
  rw [Artifacts.config_dated, Artifacts.history_dated] at hseries
  refine ⟨harchived.config, harchived.history, harchived.programs, _, hseries, ?_⟩
  rw [Text.decode_toUTF8]
  exact readSeries?_seriesText hlines

/-- A run of two generations, with numbers that are hard to write. -/
def unevenRun : Artifacts :=
  { bareRun "x" 0 with
    config := { runId := "x", baseline := "a \"b\"\n", mutationRate := 0.1, tournamentSize := 3 }
    history := [⟨0, -0.0, 1e22, -0.001, 2, 0⟩, ⟨1, 0.30000000000000004, 1e-7, -5e-324, 1, 4⟩] }

/-- Two other runs, the second of which cannot be written. -/
def neighbours : List (Artifacts × Timestamp) :=
  [({ undatedRun with config.runId := "y" }, noon), ({ boundlessRun with config.runId := "z" }, noon)]

theorem run_retained_uneven : ∃ d', (writeRun "a" unevenRun noon).run .empty = (.ok "a/x", d') ∧
    readConfig (writeRuns "a" d' neighbours) "a" "x" = .ok (some unevenRun.config) ∧
    ∃ bytes, (writeRuns "a" d' neighbours).readFile "a/x/fitness_series.csv" = .ok bytes ∧
      readSeries? (Text.decode bytes) =
        some [⟨0, -0.0, 1e22, -0.001⟩, ⟨1, 0.30000000000000004, 1e-7, -5e-324⟩] := by
  have hempty : Kept "a" (dated []) .empty := vacant_empty.kept
  obtain ⟨d', hwrite, -, -⟩ := hempty.writeRun (a := unevenRun) (by decide +kernel) noon
  rw [if_pos (by decide +kernel)] at hwrite
  have hothers : ∀ b ∈ neighbours, IsPlain b.1.config.runId ∧ b.1.config.runId ≠ unevenRun.config.runId := by
    decide +kernel
  obtain ⟨hconfig, -, -, hseries⟩ := run_retained (by decide +kernel) hwrite hothers
  exact ⟨d', hwrite, hconfig, hseries⟩

end Forager.Archive
