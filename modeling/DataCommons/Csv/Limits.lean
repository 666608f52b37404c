import DataCommons.Csv.Fields
import DataCommons.Lib.Machine

/-!
# The limits of the table

The calls on the table as a machine.  A row is refused on a full table only where
`param_parse_csv` meets a token: it counts a blank line without a test, `AddRowCSV`
tests nothing, and rows that were read before stay.

* `dataLoop_prefix`: how far the lines of a file are taken;
* `parse_keeps_iff`, `addRow_keeps_iff`: what one call must heed;
* `csv_limits_iff`: the limits hold along a run exactly if every call heeds it.
-/

namespace DataCommons.Csv

open CString Params

variable {F : Type} [Zero F]

/-! ## Calls -/

inductive CsvCall (F : Type) where
  | initCsv (decSep colSep : Str) (fileh : CsvFileh F)
  | paramParse (filename : Str) (file : Option Str)
  | addRowCsv (row : List F)
  | paramSave (opens : Bool)

/-- A call: the context behind it and what it returns; nothing where it is undefined. -/
def csvStep (env : Env F) (c : CsvCtx F) : CsvCall F → Option (CsvCtx F × Bool)
  | .initCsv decSep colSep fileh => some (initCsv decSep colSep fileh c)
  | .paramParse filename file => paramParseCsv env c filename file
  | .addRowCsv row => addRowCsv c row
  | .paramSave opens => (paramSaveCsv env c opens).map fun res => (c, res.2)

/-- The context at the start of the program. -/
def startCtx : CsvCtx F := ⟨none, .noError⟩

def Bounded (c : CsvCtx F) : Prop :=
  ∀ t, c.csvFileh = some t → t.itemCount ≤ maxBin ∧ t.colCount ≤ maxBin

/-- More lines than there is room for: those that fill the table convert, and one more
follows. -/
def Overruns (env : Env F) (t : CsvFileh F) (lines : List Str) : Prop :=
  maxBin - t.itemCount < lines.length ∧
    ∀ line ∈ lines.take (maxBin - t.itemCount), ∀ text ∈ cellTexts t.columnSep line,
      Converts env t.decimalSep text

/-- A call that would need one more row than fits. -/
def NeedsRow (env : Env F) (c : CsvCtx F) : CsvCall F → Prop
  | .addRowCsv row =>
    ∃ t, c.csvFileh = some t ∧ row.length = t.colCount ∧ maxBin ≤ t.itemCount
  | .paramParse filename file =>
    (strstr filename ".csv".toList).isSome ∧ ∃ t text header lines, c.csvFileh = some t ∧
      file = some text ∧ fgetsLines csvLineSize text = header :: lines ∧ Overruns env t lines
  | _ => False

/-- A call keeps the limits: every access is inside the table, the counters stay
within `MAX_BIN`, and where one more row than fits is needed the call returns `false`
and leaves the table. -/
def Keeps (env : Env F) (c : CsvCtx F) (call : CsvCall F) : Prop :=
  ∃ c' ret, csvStep env c call = some (c', ret) ∧ Bounded c' ∧
    (NeedsRow env c call → ret = false ∧ c'.csvFileh = c.csvFileh)

/-- A file that heeds the limits: it has a first line, and its lines fit the table, or
the table is full, the first line gives the names that it has, and the next line is
refused. -/
def FileHeeds (env : Env F) (t : CsvFileh F) (text : Str) : Prop :=
  match fgetsLines csvLineSize text with
  | [] => False
  | header :: lines => Overruns env t lines →
      t.itemCount = maxBin ∧ csvNewHeaders t header = t ∧
        ∀ line, lines.head? = some line → cellTexts t.columnSep line ≠ []

/-- What a call has to heed: there is a table; a row is added only while there is room
for it, and a file is read only if it heeds the limits. -/
def Heeds (env : Env F) (c : CsvCtx F) : CsvCall F → Prop
  | .initCsv _ _ _ => True
  | .paramParse filename file => (strstr filename ".csv".toList).isSome →
      ∀ text, file = some text → ∃ t, c.csvFileh = some t ∧ FileHeeds env t text
  | .addRowCsv row =>
    ∃ t, c.csvFileh = some t ∧ (row.length = t.colCount → t.itemCount < maxBin)
  | .paramSave _ => ∃ t, c.csvFileh = some t

/-! ## Reading lines -/

section Read

variable {env : Env F}

/-- The loop over the lines changes the items and the row counter only. -/
theorem dataLoop_frame (env : Env F) (lines : List Str) (t : CsvFileh F) :
    ∃ items n, (dataLoop env lines t).1 = { t with columnItem := items, itemCount := n } := by
  induction lines generalizing t with
  | nil => exact ⟨t.columnItem, t.itemCount, rfl⟩
  | cons line lines ih =>
    by_cases h : Taken env t t.itemCount line
    · obtain ⟨items, n, hrest⟩ := ih (afterLine env t line)
      exact ⟨items, n, by rw [dataLoop_taken h, hrest]; rfl⟩
    · obtain ⟨items, hrow⟩ := rowLoop_frame env 0 (tokens t.columnSep (stripEnd line)) t
      exact ⟨items, t.itemCount, by rw [dataLoop_refused h, hrow]⟩

/-- **How far the lines are taken**: a prefix of them, each with a row of its own. -/
theorem dataLoop_prefix (env : Env F) (lines : List Str) (t : CsvFileh F) :
    ∃ n ≤ lines.length, (dataLoop env lines t).1.itemCount = t.itemCount + n ∧
      (∀ k < n, ∀ line, lines[k]? = some line → Taken env t (t.itemCount + k) line) ∧
      ∀ line, lines[n]? = some line → ¬ Taken env t (t.itemCount + n) line := by
  induction lines generalizing t with
  | nil => exact ⟨0, le_rfl, rfl, fun k hk => absurd hk (Nat.not_lt_zero k), by simp⟩
  | cons line lines ih =>
    by_cases h : Taken env t t.itemCount line
    · obtain ⟨n, hn, hcount, htaken, hstop⟩ := ih (afterLine env t line)
      have hnext : ∀ k, (afterLine env t line).itemCount + k = t.itemCount + (k + 1) := by
        intro k
        simp only [afterLine]
        omega
      refine ⟨n + 1, Nat.succ_le_succ hn, ?_, fun k hk l hl => ?_, fun l hl => ?_⟩
      · rw [dataLoop_taken h, hcount, hnext]
      · cases k with
        | zero =>
          rw [List.getElem?_cons_zero, Option.some.injEq] at hl
          exact hl ▸ h
        | succ k =>
          have hk' := htaken k (Nat.lt_of_succ_lt_succ hk) l hl
          rw [hnext] at hk'
          exact hk'
      · have hl' := hstop l hl
        rw [hnext] at hl'
        exact hl'
    · refine ⟨0, Nat.zero_le _, ?_, fun k hk => absurd hk (Nat.not_lt_zero k), fun l hl => ?_⟩
      · obtain ⟨items, hrow⟩ := rowLoop_frame env 0 (tokens t.columnSep (stripEnd line)) t
        rw [dataLoop_refused h, hrow]
        rfl
      · rw [List.getElem?_cons_zero, Option.some.injEq] at hl
        exact hl ▸ h

/-- Lines for which there is room keep the row counter within the array. -/
theorem dataLoop_le {lines : List Str} {t : CsvFileh F} (ht : t.itemCount ≤ maxBin)
    (h : ¬ Overruns env t lines) : (dataLoop env lines t).1.itemCount ≤ maxBin := by
  obtain ⟨n, hn, hcount, htaken, -⟩ := dataLoop_prefix env lines t
  rw [hcount]
  by_contra hbig
  refine h ⟨by omega, fun line hmem => ?_⟩
  obtain ⟨k, hk⟩ := List.getElem?_of_mem hmem
  rw [List.getElem?_take] at hk
  split at hk
  · exact (htaken k (by omega) line hk).2
  · cases hk

/-- Lines for which there is no room fill the table. -/
theorem maxBin_le_dataLoop {lines : List Str} {t : CsvFileh F} (ht : t.itemCount ≤ maxBin)
    (h : Overruns env t lines) : maxBin ≤ (dataLoop env lines t).1.itemCount := by
  obtain ⟨n, hn, hcount, -, hstop⟩ := dataLoop_prefix env lines t
  obtain ⟨hlen, hconv⟩ := h
  rw [hcount]
  by_contra hsmall
  have hlt : n < lines.length := by omega
  have hget : lines[n]? = some lines[n] := List.getElem?_eq_getElem hlt
  refine hstop _ hget ⟨Or.inr (by omega), hconv _ ?_⟩
  refine List.mem_of_getElem? (i := n) ?_
  rw [List.getElem?_take, if_pos (by omega), hget]

/-- On a full table a line with a token is refused at once, and any other is counted. -/
theorem dataLoop_full {lines : List Str} {t : CsvFileh F} {line : Str} (ht : t.itemCount = maxBin)
    (hline : lines.head? = some line) :
    if cellTexts t.columnSep line = [] then maxBin < (dataLoop env lines t).1.itemCount
    else dataLoop env lines t = (t, false) := by
  obtain ⟨rest, rfl⟩ := List.head?_eq_some_iff.mp hline
  by_cases hcells : cellTexts t.columnSep line = []
  · rw [if_pos hcells]
    have htaken : Taken env t t.itemCount line := ⟨Or.inl hcells, by simp [hcells]⟩
    obtain ⟨n, -, hcount, -⟩ := dataLoop_prefix env rest (afterLine env t line)
    rw [dataLoop_taken htaken, hcount]
    simp only [afterLine]
    omega
  · rw [if_neg hcells]
    have hnot : ¬ Taken env t t.itemCount line := by
      rintro ⟨hempty | hroom, -⟩
      · exact hcells hempty
      · omega
    rw [dataLoop_refused hnot]
    cases htok : tokens t.columnSep (stripEnd line) with
    | nil => simp [cellTexts, htok] at hcells
    | cons token toks => rw [rowLoop_full (by decide) (le_of_eq ht.symm)]

end Read

/-! ## One call -/

section Calls

variable {env : Env F} {c : CsvCtx F}

omit [Zero F] in
theorem csvNewHeaders_colCount (t : CsvFileh F) (header : Str) :
    (csvNewHeaders t header).colCount ≤ maxBin := by
  simp only [csvNewHeaders, List.length_map, List.length_take]
  omega

/-- A file that is read keeps the limits exactly if the loop over its lines does. -/
theorem parse_keeps {t : CsvFileh F} {filename text header : Str} {lines : List Str}
    (ht : c.csvFileh = some t) (hext : (strstr filename ".csv".toList).isSome)
    (hlines : fgetsLines csvLineSize text = header :: lines) :
    Keeps env c (.paramParse filename (some text)) ↔
      (dataLoop env lines (csvNewHeaders t header)).1.itemCount ≤ maxBin ∧
        (Overruns env t lines → (dataLoop env lines (csvNewHeaders t header)).2 = false ∧
          (dataLoop env lines (csvNewHeaders t header)).1 = t) := by
  obtain ⟨err, hstep, -⟩ := @paramParseCsv_lines F _ env t c.paramError _ _ _ _ hext hlines
  rw [← ht] at hstep
  have hneeds : NeedsRow env c (.paramParse filename (some text)) ↔ Overruns env t lines := by
    constructor
    · rintro ⟨-, t', text', header', lines', ht', htext, hlines', hover⟩
      cases ht.symm.trans ht'
      cases htext
      cases hlines.symm.trans hlines'
      exact hover
    · exact fun hover => ⟨hext, t, text, header, lines, ht, rfl, hlines, hover⟩
  constructor
  · rintro ⟨c', ret, hstep', hbounded, hfull⟩
    cases hstep.symm.trans hstep'
    refine ⟨(hbounded _ rfl).1, fun hover => ?_⟩
    obtain ⟨hret, hsame⟩ := hfull (hneeds.mpr hover)
    exact ⟨hret, Option.some.inj (hsame.trans ht)⟩
  · rintro ⟨hcount, hfull⟩
    refine ⟨_, _, hstep, ?_, fun hn => ?_⟩
    · intro u hu
      cases hu
      obtain ⟨items, n, hframe⟩ := dataLoop_frame env lines (csvNewHeaders t header)
      refine ⟨hcount, ?_⟩
      rw [hframe]
      exact csvNewHeaders_colCount t header
    · obtain ⟨hret, hsame⟩ := hfull (hneeds.mp hn)
      exact ⟨hret, by rw [hsame, ht]⟩

theorem paramParseCsv_of_not_csv {filename : Str} {file : Option Str}
    (h : ¬ (strstr filename ".csv".toList).isSome) :
    paramParseCsv env c filename file = some (c, false) :=
  if_pos (Option.isNone_iff_eq_none.mpr (Option.not_isSome_iff_eq_none.mp h))

theorem paramParseCsv_missing (env : Env F) (c : CsvCtx F) (filename : Str) :
    paramParseCsv env c filename none = some (c, false) := by
  rw [paramParseCsv]
  split <;> rfl

/-- Without a table, or without a first line, reading a file is undefined. -/
theorem paramParseCsv_undefined {filename text : Str}
    (hext : (strstr filename ".csv".toList).isSome)
    (h : c.csvFileh = none ∨ fgetsLines csvLineSize text = []) :
    paramParseCsv env c filename (some text) = none := by
  simp only [paramParseCsv, Option.isNone_eq_false_iff.mpr hext, Bool.false_eq_true, if_false]
  rcases h with ht | hlines
  · rw [ht]
  · rw [hlines]
    cases c.csvFileh <;> rfl

theorem not_keeps_of_undefined {call : CsvCall F} (h : csvStep env c call = none) :
    ¬ Keeps env c call := by
  rintro ⟨c', ret, hstep, -⟩
  rw [h] at hstep
  cases hstep

/-- A full table, a file that needs a row: what the loop over the lines must do. -/
theorem file_keeps_iff {t : CsvFileh F} (ht : t.itemCount ≤ maxBin) (header : Str)
    (lines : List Str) :
    ((dataLoop env lines (csvNewHeaders t header)).1.itemCount ≤ maxBin ∧
        (Overruns env t lines → (dataLoop env lines (csvNewHeaders t header)).2 = false ∧
          (dataLoop env lines (csvNewHeaders t header)).1 = t)) ↔
      (Overruns env t lines → t.itemCount = maxBin ∧ csvNewHeaders t header = t ∧
        ∀ line, lines.head? = some line → cellTexts t.columnSep line ≠ []) := by
  by_cases hover : Overruns env t lines
  · obtain ⟨line, rest, rfl⟩ := List.exists_cons_of_length_pos
      (lt_of_le_of_lt (Nat.zero_le _) hover.1)
    have hfull : t.itemCount = maxBin →
        if cellTexts t.columnSep line = [] then
          maxBin < (dataLoop env (line :: rest) (csvNewHeaders t header)).1.itemCount
        else dataLoop env (line :: rest) (csvNewHeaders t header) = (csvNewHeaders t header, false) :=
      fun heq => dataLoop_full (t := csvNewHeaders t header) heq List.head?_cons
    constructor
    · rintro ⟨hle, hsame⟩ -
      have hsame := (hsame hover).2
      have hge := maxBin_le_dataLoop (t := csvNewHeaders t header) ht hover
      rw [hsame] at hge
      have heq : t.itemCount = maxBin := le_antisymm ht hge
      have hrow := hfull heq
      by_cases hcells : cellTexts t.columnSep line = []
      · rw [if_pos hcells] at hrow
        omega
      · rw [if_neg hcells] at hrow
        rw [hrow] at hsame
        refine ⟨heq, hsame, fun l hl => ?_⟩
        cases hl
        exact hcells
    · intro h
      obtain ⟨heq, hsame, hcells⟩ := h hover
      have hrow := hfull heq
      rw [if_neg (hcells line List.head?_cons), hsame] at hrow
      rw [hsame, hrow]
      exact ⟨ht, fun _ => ⟨rfl, rfl⟩⟩
  · have hle := dataLoop_le (t := csvNewHeaders t header) ht hover
    exact iff_of_true ⟨hle, fun h => absurd h hover⟩ fun h => absurd h hover

theorem parse_keeps_iff (hc : Bounded c) (filename : Str) (file : Option Str) :
    Keeps env c (.paramParse filename file) ↔ Heeds env c (.paramParse filename file) := by
  by_cases hext : (strstr filename ".csv".toList).isSome
  · cases file with
    | none =>
      refine iff_of_true ⟨c, false, paramParseCsv_missing env c filename, hc, ?_⟩
        fun _ text htext => by cases htext
      · rintro ⟨-, t, text, header, lines, -, htext, -⟩
        cases htext
    | some text =>
      have hheeds : Heeds env c (.paramParse filename (some text)) ↔
          ∃ t, c.csvFileh = some t ∧ FileHeeds env t text := by
        refine ⟨fun h => h hext text rfl, fun h _ text' htext => ?_⟩
        cases htext
        exact h
      rw [hheeds]
      cases ht : c.csvFileh with
      | none =>
        refine iff_of_false
          (not_keeps_of_undefined (paramParseCsv_undefined hext (Or.inl ht))) ?_
        rintro ⟨t, hnone, -⟩
        cases hnone
      | some t =>
        simp only [Option.some.injEq, exists_eq_left', FileHeeds]
        cases hlines : fgetsLines csvLineSize text with
        | nil =>
          exact iff_of_false
            (not_keeps_of_undefined (paramParseCsv_undefined hext (Or.inr hlines))) id
        | cons header lines =>
          rw [parse_keeps ht hext hlines]
          exact file_keeps_iff (hc t ht).1 header lines
  · refine iff_of_true ⟨c, false, paramParseCsv_of_not_csv hext, hc, ?_⟩ fun h => absurd h hext
    exact fun hn => absurd hn.1 hext

omit [Zero F] in
theorem storeRow_eq {row : List F} {i : ℕ} {t : CsvFileh F} (hroom : t.itemCount < maxBin)
    (hcols : i + row.length ≤ maxBin) :
    ∃ items, storeRow i row t = some { t with columnItem := items } := by
  induction row generalizing i t with
  | nil => exact ⟨t.columnItem, rfl⟩
  | cons x xs ih =>
    rw [List.length_cons] at hcols
    obtain ⟨items, hrest⟩ := @ih (i + 1) (t.setItem i t.itemCount x) hroom (by omega)
    exact ⟨items, by rw [storeRow, if_pos ⟨by omega, hroom⟩, hrest]; rfl⟩

/-- While there is room a row is stored inside the table. -/
theorem addRow_keeps_of_room (hc : Bounded c) {t : CsvFileh F} (ht : c.csvFileh = some t)
    {row : List F} (hrow : row.length = t.colCount) (hroom : t.itemCount < maxBin) :
    Keeps env c (.addRowCsv row) := by
  have hcols : 0 + row.length ≤ maxBin := by
    rw [Nat.zero_add, hrow]
    exact (hc t ht).2
  obtain ⟨items, hstore⟩ := storeRow_eq hroom hcols
  have hstep : csvStep env c (.addRowCsv row) =
      some ({ c with csvFileh := some { t with
        columnItem := items, itemCount := t.itemCount + 1 } }, true) := by
    simp only [csvStep, addRowCsv, ht, hrow, ne_eq, not_true_eq_false, if_false, hstore]
  refine ⟨_, true, hstep, ?_, ?_⟩
  · intro u hu
    cases hu
    exact ⟨hroom, (hc t ht).2⟩
  · rintro ⟨t', ht', -, hfull⟩
    cases ht.symm.trans ht'
    omega

/-- On a full table a row is stored past the end, or counted at least. -/
theorem addRow_not_keeps {t : CsvFileh F} (ht : c.csvFileh = some t) {row : List F}
    (hrow : row.length = t.colCount) (hfull : maxBin ≤ t.itemCount) :
    ¬ Keeps env c (.addRowCsv row) := by
  rintro ⟨c', ret, hstep, -, hrefused⟩
  obtain ⟨hret, -⟩ := hrefused ⟨t, ht, hrow, hfull⟩
  simp only [csvStep, addRowCsv, ht, hrow, ne_eq, not_true_eq_false, if_false] at hstep
  cases hstore : storeRow 0 row t with
  | none => simp [hstore] at hstep
  | some t' =>
    simp only [hstore, Option.some.injEq, Prod.mk.injEq] at hstep
    rw [hret] at hstep
    exact Bool.noConfusion hstep.2

theorem addRow_keeps_iff (hc : Bounded c) (row : List F) :
    Keeps env c (.addRowCsv row) ↔ Heeds env c (.addRowCsv row) := by
  cases ht : c.csvFileh with
  | none =>
    refine iff_of_false (not_keeps_of_undefined (by rw [csvStep, addRowCsv, ht])) ?_
    rintro ⟨t, ht', -⟩
    cases ht.symm.trans ht'
  | some t =>
    constructor
    · intro hkeeps
      refine ⟨t, ht, fun hrow => ?_⟩
      by_contra hfull
      exact addRow_not_keeps ht hrow (not_lt.mp hfull) hkeeps
    · rintro ⟨t', ht', hroom⟩
      cases ht.symm.trans ht'
      by_cases hrow : row.length = t.colCount
      · exact addRow_keeps_of_room hc ht hrow (hroom hrow)
      · refine ⟨c, false, by simp [csvStep, addRowCsv, ht, hrow], hc, ?_⟩
        rintro ⟨t', ht', hrow', -⟩
        cases ht.symm.trans ht'
        exact absurd hrow' hrow

omit [Zero F] in
theorem init_bounded (hc : Bounded c) (decSep colSep : Str) (fileh : CsvFileh F) :
    Bounded (initCsv decSep colSep fileh c).1 := by
  rw [initCsv]
  split
  · exact hc
  · intro t ht
    cases ht
    exact ⟨Nat.zero_le _, Nat.zero_le _⟩

theorem save_keeps_iff (hc : Bounded c) (opens : Bool) :
    Keeps env c (.paramSave opens) ↔ Heeds env c (.paramSave opens) := by
  cases ht : c.csvFileh with
  | none =>
    refine iff_of_false (not_keeps_of_undefined (by rw [csvStep, paramSaveCsv, ht]; rfl)) ?_
    rintro ⟨t, ht'⟩
    cases ht.symm.trans ht'
  | some t =>
    refine iff_of_true ?_ ⟨t, ht⟩
    obtain ⟨res, hres⟩ : ∃ res, paramSaveCsv env c opens = some res := by
      simp only [paramSaveCsv, ht]
      split
      · exact ⟨_, rfl⟩
      · split
        · exact ⟨_, rfl⟩
        · exact ⟨_, if_pos ⟨(hc t ht).2, (hc t ht).1⟩⟩
    exact ⟨c, res.2, by simp [csvStep, hres], hc, fun h => h.elim⟩

/-- **One call keeps the limits exactly if it heeds them.** -/
theorem keeps_iff_heeds (hc : Bounded c) (call : CsvCall F) : Keeps env c call ↔ Heeds env c call := by
  cases call with
  | initCsv decSep colSep fileh =>
    refine iff_of_true ⟨_, _, rfl, init_bounded hc decSep colSep fileh, fun h => h.elim⟩ trivial
  | paramParse filename file => exact parse_keeps_iff hc filename file
  | addRowCsv row => exact addRow_keeps_iff hc row
  | paramSave opens => exact save_keeps_iff hc opens

theorem along_keeps_iff (hc : Bounded c) (calls : List (CsvCall F)) :
    Machine.Along (csvStep env) (Keeps env) c calls ↔
      Machine.Along (csvStep env) (Heeds env) c calls := by
  induction calls generalizing c with
  | nil => exact Iff.rfl
  | cons call calls ih =>
    rw [Machine.Along, Machine.Along, keeps_iff_heeds hc]
    refine and_congr_right fun hheeds => ?_
    obtain ⟨c', ret, hstep, hc', -⟩ := (keeps_iff_heeds hc call).mpr hheeds
    refine forall_congr' fun c₁ => forall_congr' fun r₁ => imp_congr_right fun h₁ => ?_
    cases hstep.symm.trans h₁
    exact ih hc'

end Calls

/-- **Along every run the limits are kept exactly if** every call heeds them. -/
theorem csv_limits_iff (env : Env F) (calls : List (CsvCall F)) :
    Machine.Along (csvStep env) (Keeps env) startCtx calls ↔
      Machine.Along (csvStep env) (Heeds env) startCtx calls :=
  along_keeps_iff (fun t ht => by cases ht) calls

/-! ## Blank lines -/

theorem afterLine_blank {env : Env F} {t : CsvFileh F} {line : Str}
    (h : cellTexts t.columnSep line = []) :
    afterLine env t line = { t with itemCount := t.itemCount + 1 } := by
  rw [afterLine, h, List.map_nil, setRow_nil]

theorem dataLoop_blank {env : Env F} {t : CsvFileh F} {line : Str}
    (h : cellTexts t.columnSep line = []) (n : ℕ) :
    dataLoop env (List.replicate n line) t = ({ t with itemCount := t.itemCount + n }, true) := by
  induction n generalizing t with
  | zero => rfl
  | succ n ih =>
    have htaken : Taken env t t.itemCount line := ⟨Or.inl h, by simp [h]⟩
    rw [List.replicate_succ, dataLoop_taken htaken, afterLine_blank h,
      ih (t := { t with itemCount := t.itemCount + 1 }) h]
    simp only [Prod.mk.injEq, CsvFileh.mk.injEq, and_true, true_and]
    omega

/-- A column name and as many blank lines as there are rows in a table. -/
def blankLines : Str :=
  (("a".toList :: List.replicate maxBin []).map (· ++ ['\n'])).flatten

theorem blankLines_lines :
    fgetsLines csvLineSize blankLines = "a\n".toList :: List.replicate maxBin ['\n'] := by
  have hlines : IsLines csvLineSize blankLines
      (("a".toList :: List.replicate maxBin []).map (· ++ ['\n'])) := by
    refine isLines_flatten fun body hbody => ?_
    rcases List.mem_cons.mp hbody with rfl | hbody
    · decide
    · rw [List.eq_of_mem_replicate hbody]
      decide
  rw [fgetsLines_of_isLines hlines, List.map_cons, List.map_replicate]
  rfl

def fullTable : CsvFileh ℤ := { csvNewHeaders commaTable "a\n".toList with itemCount := maxBin }

theorem parse_blankLines (err : ParamError) :
    paramParseCsv wholeEnv ⟨some commaTable, err⟩ "data.csv".toList (some blankLines)
      = some (⟨some fullTable, .noError⟩, true) := by
  have hloop : dataLoop wholeEnv (List.replicate maxBin ['\n'])
      (csvNewHeaders commaTable "a\n".toList) = (fullTable, true) := by
    rw [dataLoop_blank (by rfl)]
    rfl
  have hext : (strstr "data.csv".toList ".csv".toList).isNone = false := by decide
  simp only [paramParseCsv, hext, Bool.false_eq_true, if_false, blankLines_lines, hloop]

/-- Behind a file of blank lines `AddRowCSV` stores past the end of a column. -/
theorem full_table_overrun :
    ¬ Machine.Along (csvStep wholeEnv) (Keeps wholeEnv) startCtx
      [.initCsv ".".toList ",".toList commaTable, .paramParse "data.csv".toList (some blankLines),
        .addRowCsv [7]] := by
  rintro ⟨-, hinit⟩
  obtain ⟨-, hparse⟩ := hinit ⟨some commaTable, .noError⟩ true rfl
  obtain ⟨hrow, -⟩ := hparse _ _ (parse_blankLines .noError)
  exact not_keeps_of_undefined rfl hrow

end DataCommons.Csv
