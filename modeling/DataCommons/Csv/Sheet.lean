import DataCommons.Csv.Limits
import DataCommons.Csv.LineEnds
import DataCommons.Csv.Lookup

/-!
# The table as a sheet

Columns of a fixed length with two counters stand for a list of rows that are as long
as the list of names.  As long as the files that are read are regular and there is room,
nothing else can be seen of the table: every run of calls answers as the sheet does.

* `Sheet`, `sheetStep`: the rows, and the calls on them;
* `Holds`: the table that holds a sheet;
* `load_holds`, `push_holds`, `column_holds`, `text_holds`: one call;
* `csv_refines_sheet`: every run.
-/

namespace DataCommons.Csv

open CString Params

variable {F : Type}

/-! ## Sheets -/

/-- Rows under names, and the separators that files are read with. -/
@[ext] structure Sheet (F : Type) where
  decSep : Str
  colSep : Str
  names : List Str
  rows : List (List F)
  full : ∀ row ∈ rows, row.length = names.length

namespace Sheet

def empty (decSep colSep : Str) : Sheet F := ⟨decSep, colSep, [], [], by simp⟩

def push (s : Sheet F) (row : List F) (h : row.length = s.names.length) : Sheet F :=
  { s with
    rows := s.rows ++ [row]
    full := fun r hr => by
      rcases List.mem_append.mp hr with hr | hr
      · exact s.full r hr
      · rw [List.mem_singleton.mp hr, h] }

/-- New names and rows for as many columns. -/
def load (s : Sheet F) (names : List Str) (rows : List (List F))
    (hrows : ∀ row ∈ rows, row.length = names.length)
    (hnames : s.rows = [] ∨ names.length = s.names.length) : Sheet F :=
  { s with
    names := names
    rows := s.rows ++ rows
    full := fun r hr => by
      rcases List.mem_append.mp hr with hr | hr
      · rcases hnames with hnil | hlen
        · rw [hnil] at hr
          cases hr
        · rw [s.full r hr, hlen]
      · exact hrows r hr }

@[simp] theorem push_rows (s : Sheet F) (row : List F) (h : row.length = s.names.length) :
    (s.push row h).rows = s.rows ++ [row] := rfl

@[simp] theorem load_rows (s : Sheet F) (names : List Str) (rows : List (List F)) hrows hnames :
    (s.load names rows hrows hnames).rows = s.rows ++ rows := rfl

def column (s : Sheet F) (i : ℕ) : List F := s.rows.filterMap fun row => row[i]?

def text (env : Env F) (s : Sheet F) : Str :=
  saveCsvLine s.names ++ s.rows.flatMap fun row => saveCsvLine (row.map env.showFloat)

end Sheet

/-! ## Calls -/

inductive TableCall (F : Type) where
  | initCsv (decSep colSep : Str) (fileh : CsvFileh F)
  | paramParse (filename : Str) (file : Option Str)
  | addRowCsv (row : List F)
  | getCsvData (name : Str) (data : List F) (dataLen : ℕ)
  | paramSave (opens : Bool)

/-- What a call returns and where it stores it. -/
inductive Answer (F : Type) where
  | ret (ok : Bool)
  | column (data : List F) (n : ℤ)
  | file (text : Option Str) (ok : Bool)

section Steps

variable [Zero F] (env : Env F)

def tableStep (c : CsvCtx F) : TableCall F → Option (CsvCtx F × Answer F)
  | .initCsv decSep colSep fileh =>
    some ((initCsv decSep colSep fileh c).1, .ret (initCsv decSep colSep fileh c).2)
  | .paramParse filename file =>
    (paramParseCsv env c filename file).map fun res => (res.1, .ret res.2)
  | .addRowCsv row => (addRowCsv c row).map fun res => (res.1, .ret res.2)
  | .getCsvData name data dataLen =>
    (getCsvData c name data dataLen).map fun res => (c, .column res.1 res.2)
  | .paramSave opens => (paramSaveCsv env c opens).map fun res => (c, .file res.1 res.2)

/-- Every text of the line is a number. -/
def AllNumbers (s : Sheet F) (line : Str) : Prop :=
  ∀ text ∈ cellTexts s.colSep line, Converts env s.decSep text

instance (s : Sheet F) (line : Str) : Decidable (AllNumbers env s line) :=
  inferInstanceAs (Decidable (∀ _ ∈ _, _))

/-- The rows that are read from lines: up to the first with a text that is no number. -/
def readRows (s : Sheet F) (lines : List Str) : List (List F) :=
  (lines.takeWhile fun line => AllNumbers env s line).map fun line =>
    (cellTexts s.colSep line).map (textValue env s.decSep)

/-- A file that keeps the shape of the sheet: as many texts in each line as names in
the first, as many names as there are, and room for all lines. -/
def Regular (s : Sheet F) (header : Str) (lines : List Str) : Prop :=
  (∀ line ∈ lines, (cellTexts s.colSep line).length = (headerNames s.colSep header).length) ∧
    (s.rows = [] ∨ (headerNames s.colSep header).length = s.names.length) ∧
    s.rows.length + lines.length ≤ maxBin

instance (s : Sheet F) (header : Str) (lines : List Str) : Decidable (Regular s header lines) :=
  have : Decidable (s.rows = []) := decidable_of_iff (s.rows.isEmpty = true) List.isEmpty_iff
  inferInstanceAs (Decidable (_ ∧ _))

theorem readRows_full {s : Sheet F} {header : Str} {lines : List Str}
    (h : Regular s header lines) :
    ∀ row ∈ readRows env s lines, row.length = (headerNames s.colSep header).length := by
  intro row hrow
  obtain ⟨line, hline, rfl⟩ := List.mem_map.mp hrow
  rw [List.length_map]
  exact h.1 line ((List.takeWhile_prefix _).subset hline)

/-- A call on the sheet; none where the file is not regular, a row or a name is too much,
or the array is too short. -/
def sheetStep (s : Sheet F) : TableCall F → Option (Sheet F × Answer F)
  | .initCsv decSep colSep _ =>
    if decSep.head? = colSep.head? then some (s, .ret false)
    else some (Sheet.empty decSep colSep, .ret true)
  | .paramParse filename file =>
    if (strstr filename ".csv".toList).isNone then some (s, .ret false)
    else
      match file with
      | none => some (s, .ret false)
      | some file =>
        match fgetsLines csvLineSize file with
        | [] => none
        | header :: lines =>
          if h : Regular s header lines then
            some (s.load (headerNames s.colSep header) (readRows env s lines)
              (readRows_full env h) h.2.1, .ret (lines.all fun line => AllNumbers env s line))
          else none
  | .addRowCsv row =>
    if h : row.length = s.names.length then
      if s.rows.length < maxBin then some (s.push row h, .ret true) else none
    else some (s, .ret false)
  | .getCsvData name data dataLen =>
    if name.length ≥ lowNameSize then none
    else if dataLen < s.rows.length then some (s, .column data (-1))
    else
      match s.names.findIdx? fun n => (strstr n (name.map Char.toLower)).isSome with
      | none => some (s, .column data 0)
      | some i =>
        if s.rows.length ≤ data.length then
          some (s, .column (s.column i ++ data.drop s.rows.length) s.rows.length)
        else none
  | .paramSave opens =>
    if s.names.isEmpty || s.rows.isEmpty || !opens then some (s, .file none false)
    else some (s, .file (some (s.text env)) true)

end Steps

/-- The table holds the sheet. -/
structure Holds (t : CsvFileh F) (s : Sheet F) : Prop where
  decimalSep : t.decimalSep = s.decSep
  columnSep : t.columnSep = s.colSep
  colCount : t.colCount = s.names.length
  itemCount : t.itemCount = s.rows.length
  cols : s.names.length ≤ maxBin
  room : s.rows.length ≤ maxBin
  names : ∀ i name, s.names[i]? = some name → t.columnName i = name
  items : ∀ j row, s.rows[j]? = some row → ∀ i x, row[i]? = some x → t.columnItem i j = x

section Holding

variable {env : Env F} {t : CsvFileh F} {s : Sheet F}

theorem Holds.item (h : Holds t s) {j i : ℕ} (hj : j < s.rows.length) (hi : i < s.names.length) :
    (s.rows[j])[i]? = some (t.columnItem i j) := by
  have hrow : s.rows[j]? = some s.rows[j] := List.getElem?_eq_getElem hj
  have hlen : i < (s.rows[j]).length := by
    rw [s.full _ (List.getElem_mem hj)]
    exact hi
  rw [List.getElem?_eq_getElem hlen, h.items j _ hrow i _ (List.getElem?_eq_getElem hlen)]

/-! ### `AddRowCSV` -/

theorem storeRow_eq_setRow {row : List F} {i : ℕ} {t : CsvFileh F} (hroom : t.itemCount < maxBin)
    (hcols : i + row.length ≤ maxBin) : storeRow i row t = some (t.setRow i t.itemCount row) := by
  induction row generalizing i t with
  | nil => rw [storeRow, setRow_nil]
  | cons x xs ih =>
    rw [List.length_cons] at hcols
    have hrest := @ih (i + 1) (t.setItem i t.itemCount x) hroom (by omega)
    rw [storeRow, if_pos ⟨by omega, hroom⟩, hrest]
    exact congrArg some (setItem_setRow t i t.itemCount x xs)

theorem push_holds (h : Holds t s) {row : List F} (hrow : row.length = s.names.length)
    (hroom : s.rows.length < maxBin) :
    Holds { t.setRow 0 t.itemCount row with itemCount := t.itemCount + 1 } (s.push row hrow) := by
  refine ⟨h.decimalSep, h.columnSep, h.colCount, ?_, h.cols, ?_, h.names, ?_⟩
  · rw [Sheet.push_rows, List.length_append, List.length_singleton, h.itemCount]
  · rw [Sheet.push_rows, List.length_append, List.length_singleton]
    exact hroom
  · intro j r hj i x hx
    have hitem : ({ t.setRow 0 t.itemCount row with itemCount := t.itemCount + 1 } :
        CsvFileh F).columnItem i j = (t.setRow 0 t.itemCount row).columnItem i j := rfl
    rw [hitem]
    rw [Sheet.push_rows] at hj
    rcases Nat.lt_trichotomy j s.rows.length with hlt | rfl | hgt
    · rw [List.getElem?_append_left hlt] at hj
      rw [setRow_of_ne (by rw [h.itemCount]; omega)]
      exact h.items j r hj i x hx
    · rw [List.getElem?_append_right (Nat.le_refl _), Nat.sub_self, List.getElem?_cons_zero] at hj
      cases hj
      rw [← h.itemCount, setRow_self, hx, Option.getD_some]
    · rw [List.getElem?_eq_none (by rw [List.length_append, List.length_singleton]; omega)] at hj
      cases hj

/-! ### `ParamParse` -/

theorem names_holds (h : Holds t s) {header : Str} (hnames : s.rows = [] ∨
      (headerNames s.colSep header).length = s.names.length) :
    Holds (csvNewHeaders t header)
      (s.load (headerNames s.colSep header) [] (by simp) hnames) := by
  rw [csvNewHeaders_eq, h.columnSep]
  refine ⟨h.decimalSep, rfl, rfl, ?_, ?_, ?_, fun i name hi => ?_, ?_⟩
  · rw [Sheet.load_rows, List.append_nil]
    exact h.itemCount
  · simp only [Sheet.load, headerNames, List.length_map, List.length_take]
    omega
  · rw [Sheet.load_rows, List.append_nil]
    exact h.room
  · have hget : (headerNames s.colSep header)[i]? = some name := hi
    dsimp only
    rw [hget, Option.getD_some]
  · rw [Sheet.load_rows, List.append_nil]
    exact h.items

variable [Zero F]

/-- A line writes to the row behind the last only. -/
theorem Holds.refused (h : Holds t s) (line : Str) :
    Holds (rowLoop env 0 (tokens t.columnSep (stripEnd line)) t).1 s := by
  obtain ⟨items, hframe⟩ := rowLoop_frame env 0 (tokens t.columnSep (stripEnd line)) t
  have hbefore (i j : ℕ) (hj : j ≠ t.itemCount) :
      (rowLoop env 0 (tokens t.columnSep (stripEnd line)) t).1.columnItem i j
        = t.columnItem i j := rowLoop_other 0 _ hj i
  rw [hframe] at hbefore ⊢
  refine ⟨h.decimalSep, h.columnSep, h.colCount, h.itemCount, h.cols, h.room, h.names, ?_⟩
  intro j row hj i x hx
  have hlt := (List.getElem?_eq_some_iff.mp hj).1
  rw [← h.items j row hj i x hx]
  exact hbefore i j (by rw [h.itemCount]; omega)

/-- **The lines of a regular file** are rows up to the first that is refused. -/
theorem dataLoop_holds {lines : List Str} (h : Holds t s)
    (hlen : ∀ line ∈ lines, (cellTexts s.colSep line).length = s.names.length)
    (hroom : s.rows.length + lines.length ≤ maxBin) :
    (∀ hrows, Holds (dataLoop env lines t).1 (s.load s.names (readRows env s lines) hrows (Or.inr rfl))) ∧
      (dataLoop env lines t).2 = lines.all fun line => AllNumbers env s line := by
  induction lines generalizing t s with
  | nil =>
    refine ⟨fun hrows => ?_, rfl⟩
    have hsame : s.load s.names (readRows env s []) hrows (Or.inr rfl) = s :=
      Sheet.ext rfl rfl rfl (List.append_nil _)
    rw [hsame]
    exact h
  | cons line lines ih =>
    have hline := hlen line List.mem_cons_self
    rw [List.length_cons] at hroom
    by_cases hnum : AllNumbers env s line
    · have htaken : Taken env t t.itemCount line := by
        refine ⟨Or.inr (by rw [h.itemCount]; omega), ?_⟩
        rw [h.columnSep, h.decimalSep]
        exact hnum
      have hrow : ((cellTexts s.colSep line).map (textValue env s.decSep)).length
          = s.names.length := by rw [List.length_map, hline]
      have hpush := push_holds h hrow (by omega)
      have hrest := ih hpush (fun l hl => hlen l (List.mem_cons_of_mem line hl)) (by
        rw [Sheet.push_rows, List.length_append, List.length_singleton]
        omega)
      rw [dataLoop_taken htaken, afterLine, h.columnSep, h.decimalSep]
      refine ⟨fun hrows => ?_, ?_⟩
      · have hread : readRows env s (line :: lines)
            = (cellTexts s.colSep line).map (textValue env s.decSep)
              :: readRows env (s.push _ hrow) lines := by
          rw [readRows, List.takeWhile_cons_of_pos (by simpa using hnum), List.map_cons]
          rfl
        have hfull : ∀ row ∈ readRows env (s.push _ hrow) lines, row.length = s.names.length :=
          fun row hmem => hrows row (hread ▸ List.mem_cons_of_mem _ hmem)
        have hsame : (s.push _ hrow).load s.names (readRows env (s.push _ hrow) lines) hfull
            (Or.inr rfl) = s.load s.names (readRows env s (line :: lines)) hrows (Or.inr rfl) := by
          refine Sheet.ext rfl rfl rfl ?_
          rw [Sheet.load_rows, Sheet.load_rows, Sheet.push_rows, hread, List.append_assoc]
          rfl
        exact hsame ▸ hrest.1 hfull
      · rw [hrest.2, List.all_cons, decide_eq_true hnum, Bool.true_and]
        rfl
    · have hnot : ¬ Taken env t t.itemCount line := by
        rintro ⟨-, hconv⟩
        rw [h.columnSep, h.decimalSep] at hconv
        exact hnum hconv
      have hread : readRows env s (line :: lines) = [] := by
        rw [readRows, List.takeWhile_cons_of_neg (by simpa using hnum)]
        rfl
      rw [dataLoop_refused hnot]
      refine ⟨fun hrows => ?_, by rw [List.all_cons, decide_eq_false hnum, Bool.false_and]⟩
      have hsame : s.load s.names (readRows env s (line :: lines)) hrows (Or.inr rfl) = s :=
        Sheet.ext rfl rfl rfl (by rw [Sheet.load_rows, hread, List.append_nil])
      rw [hsame]
      exact h.refused line

/-- **A regular file** leaves the table with the loaded sheet. -/
theorem load_holds (h : Holds t s) {header : Str} {lines : List Str} (hreg : Regular s header lines) :
    Holds (dataLoop env lines (csvNewHeaders t header)).1
        (s.load (headerNames s.colSep header) (readRows env s lines) (readRows_full env hreg)
          hreg.2.1) ∧
      (dataLoop env lines (csvNewHeaders t header)).2
        = lines.all fun line => AllNumbers env s line := by
  have hnames := names_holds h hreg.2.1
  have hroom : (s.load (headerNames s.colSep header) [] (by simp) hreg.2.1).rows.length
      + lines.length ≤ maxBin := by
    rw [Sheet.load_rows, List.append_nil]
    exact hreg.2.2
  obtain ⟨hrows, hret⟩ := @dataLoop_holds F env _ _ _ lines hnames hreg.1 hroom
  refine ⟨?_, hret⟩
  have hfull := readRows_full env hreg
  have hsame : (s.load (headerNames s.colSep header) [] (by simp) hreg.2.1).load
      (headerNames s.colSep header) (readRows env s lines)
        hfull (Or.inr rfl)
        = s.load (headerNames s.colSep header) (readRows env s lines) (readRows_full env hreg)
          hreg.2.1 := by
    refine Sheet.ext rfl rfl rfl ?_
    rw [Sheet.load_rows, Sheet.load_rows, Sheet.load_rows, List.append_nil]
  exact hsame ▸ hrows hfull

/-! ### `GetCSVData` and `ParamSave` -/

omit [Zero F] in
theorem names_eq (h : Holds t s) : (List.range t.colCount).map t.columnName = s.names := by
  apply List.ext_getElem
  · rw [List.length_map, List.length_range, h.colCount]
  · intro i _ hi
    rw [List.getElem_map, List.getElem_range]
    exact h.names i _ (List.getElem?_eq_getElem hi)

omit [Zero F] in
theorem rows_eq (h : Holds t s) :
    ((List.range t.itemCount).map fun j => (List.range t.colCount).map fun i => t.columnItem i j)
      = s.rows := by
  apply List.ext_getElem
  · rw [List.length_map, List.length_range, h.itemCount]
  · intro j _ hj
    have hlen : (s.rows[j]).length = s.names.length := s.full _ (List.getElem_mem hj)
    rw [List.getElem_map, List.getElem_range]
    apply List.ext_getElem
    · rw [List.length_map, List.length_range, h.colCount, hlen]
    · intro i _ hi
      rw [List.getElem_map, List.getElem_range]
      exact h.items j _ (List.getElem?_eq_getElem hj) i _ (List.getElem?_eq_getElem hi)

omit [Zero F] in
theorem column_holds (h : Holds t s) {i : ℕ} (hi : i < s.names.length) :
    (List.range t.itemCount).map (t.columnItem i) = s.column i := by
  rw [Sheet.column, ← rows_eq h, List.filterMap_map, ← List.filterMap_eq_map]
  refine List.filterMap_congr fun j _ => ?_
  simp only [Function.comp_apply, List.getElem?_map, List.getElem?_range (h.colCount ▸ hi),
    Option.map_some]

omit [Zero F] in
theorem find_holds (h : Holds t s) (lowName : Str) :
    findColumn t lowName = s.names.findIdx? fun n => (strstr n lowName).isSome := by
  have hname : ∀ (k : ℕ) (hk : k < s.names.length), s.names[k] = t.columnName k := fun k hk =>
    (h.names k _ (List.getElem?_eq_getElem hk)).symm
  ext k
  rw [findColumn_eq_some, List.findIdx?_eq_some_iff_getElem]
  constructor
  · rintro ⟨hlt, hhas, hfirst⟩
    rw [h.colCount] at hlt
    refine ⟨hlt, ?_, fun j hj => ?_⟩
    · rw [hname k hlt, strstr_isSome_iff]
      exact hhas
    · rw [hname j (hj.trans hlt), strstr_isSome_iff]
      exact hfirst j hj
  · rintro ⟨hlt, hhas, hfirst⟩
    rw [hname k hlt, strstr_isSome_iff] at hhas
    refine ⟨h.colCount ▸ hlt, hhas, fun j hj => ?_⟩
    have hnot := hfirst j hj
    rwa [hname j (hj.trans hlt), strstr_isSome_iff] at hnot

omit [Zero F] in
theorem text_holds (h : Holds t s) : csvText env t = s.text env := by
  have hrows : (List.range t.itemCount).map (rowTexts env t)
      = s.rows.map fun row => row.map env.showFloat := by
    rw [← rows_eq h, List.map_map]
    refine List.map_congr_left fun j _ => ?_
    rw [Function.comp_apply, List.map_map]
    rfl
  have hflat := congrArg (fun rows => rows.flatMap saveCsvLine) hrows
  simp only [List.flatMap_map] at hflat
  rw [csvText, Sheet.text, names_eq h, hflat]

end Holding

/-! ## Runs -/

/-- A context whose table holds the sheet. -/
def Shows (c : CsvCtx F) (s : Sheet F) : Prop := ∃ t, c.csvFileh = some t ∧ Holds t s

theorem init_shows (c : CsvCtx F) {decSep colSep : Str} (hsep : decSep.head? ≠ colSep.head?)
    (fileh : CsvFileh F) :
    initCsv decSep colSep fileh c = ((initCsv decSep colSep fileh c).1, true) ∧
      Shows (initCsv decSep colSep fileh c).1 (Sheet.empty decSep colSep) := by
  rw [initCsv, if_neg hsep]
  refine ⟨rfl, _, rfl, rfl, rfl, rfl, rfl, Nat.zero_le _, Nat.zero_le _, ?_, ?_⟩
  · intro i name hi
    simp [Sheet.empty] at hi
  · intro j row hj
    simp [Sheet.empty] at hj

section Runs

variable [Zero F] {env : Env F} {c : CsvCtx F} {s : Sheet F}

theorem parse_shows (h : Shows c s) {filename : Str} {file : Option Str} {s' : Sheet F}
    {o : Answer F} (hstep : sheetStep env s (.paramParse filename file) = some (s', o)) :
    ∃ c', tableStep env c (.paramParse filename file) = some (c', o) ∧ Shows c' s' := by
  obtain ⟨t, ht, hholds⟩ := h
  obtain ⟨fileh, err⟩ := c
  cases ht
  simp only [sheetStep] at hstep
  split at hstep
  · next hext =>
    cases hstep
    refine ⟨⟨some t, err⟩, ?_, t, rfl, hholds⟩
    rw [Option.isNone_iff_eq_none, ← Option.not_isSome_iff_eq_none] at hext
    rw [tableStep, paramParseCsv_of_not_csv hext]
    rfl
  · next hext =>
    rw [Option.isNone_iff_eq_none, ← Option.not_isSome_iff_eq_none, not_not] at hext
    cases file with
    | none =>
      cases hstep
      refine ⟨⟨some t, err⟩, ?_, t, rfl, hholds⟩
      rw [tableStep, paramParseCsv_missing]
      rfl
    | some text =>
      dsimp only at hstep
      split at hstep
      · cases hstep
      · next header lines hlines =>
        split at hstep
        · next hreg =>
          cases hstep
          obtain ⟨hload, hret⟩ := @load_holds F env _ _ _ hholds _ _ hreg
          have hrun := @paramParseCsv_result F _ env t err _ _ _ _ hext hlines
          rw [tableStep, hrun, hret]
          exact ⟨_, rfl, _, rfl, hload⟩
        · cases hstep

theorem addRow_shows (h : Shows c s) {row : List F} {s' : Sheet F} {o : Answer F}
    (hstep : sheetStep env s (.addRowCsv row) = some (s', o)) :
    ∃ c', tableStep env c (.addRowCsv row) = some (c', o) ∧ Shows c' s' := by
  obtain ⟨t, ht, hholds⟩ := h
  simp only [sheetStep] at hstep
  split at hstep
  · next hrow =>
    split at hstep
    · next hroom =>
      cases hstep
      have hstore : storeRow 0 row t = some (t.setRow 0 t.itemCount row) :=
        storeRow_eq_setRow (hholds.itemCount ▸ hroom) (by rw [hrow, Nat.zero_add]; exact hholds.cols)
      have hlen : ¬ row.length ≠ t.colCount := not_not.mpr (hrow.trans hholds.colCount.symm)
      have hpush := push_holds hholds hrow hroom
      simp only [tableStep, addRowCsv, ht, if_neg hlen, hstore]
      exact ⟨_, rfl, _, rfl, hpush⟩
    · cases hstep
  · next hrow =>
    cases hstep
    refine ⟨c, ?_, t, ht, hholds⟩
    rw [← hholds.colCount] at hrow
    simp only [tableStep, addRowCsv, ht, if_pos hrow]
    rfl

theorem getCsvData_shows (h : Shows c s) {name : Str} {data : List F} {dataLen : ℕ} {s' : Sheet F}
    {o : Answer F} (hstep : sheetStep env s (.getCsvData name data dataLen) = some (s', o)) :
    ∃ c', tableStep env c (.getCsvData name data dataLen) = some (c', o) ∧ Shows c' s' := by
  obtain ⟨t, ht, hholds⟩ := h
  simp only [sheetStep] at hstep
  split at hstep
  · cases hstep
  · next hname =>
    rw [← find_holds hholds, ← hholds.itemCount] at hstep
    rw [tableStep, getCsvData, if_neg hname, ht]
    dsimp only
    split at hstep
    · next hshort =>
      cases hstep
      exact ⟨c, by rw [if_pos hshort]; rfl, t, ht, hholds⟩
    · next hlong =>
      rw [if_neg hlong]
      cases hfind : findColumn t (name.map Char.toLower) with
      | none =>
        rw [hfind] at hstep
        cases hstep
        exact ⟨c, rfl, t, ht, hholds⟩
      | some i =>
        rw [hfind] at hstep
        dsimp only at hstep
        split at hstep
        · next hfit =>
          cases hstep
          have hroom : t.itemCount ≤ maxBin := hholds.itemCount ▸ hholds.room
          have hi : i < s.names.length := hholds.colCount ▸ (findColumn_eq_some.mp hfind).lt
          refine ⟨c, ?_, t, ht, hholds⟩
          simp only [if_pos (And.intro hroom hfit), column_holds hholds hi]
          rfl
        · cases hstep

theorem save_shows (h : Shows c s) {opens : Bool} {s' : Sheet F} {o : Answer F}
    (hstep : sheetStep env s (.paramSave opens) = some (s', o)) :
    ∃ c', tableStep env c (.paramSave opens) = some (c', o) ∧ Shows c' s' := by
  obtain ⟨t, ht, hholds⟩ := h
  have hempty : (s.names.isEmpty || s.rows.isEmpty) = true ↔ t.colCount = 0 ∨ t.itemCount = 0 := by
    rw [Bool.or_eq_true, List.isEmpty_iff_length_eq_zero, List.isEmpty_iff_length_eq_zero,
      hholds.colCount, hholds.itemCount]
  have hroom : t.colCount ≤ maxBin ∧ t.itemCount ≤ maxBin := by
    rw [hholds.colCount, hholds.itemCount]
    exact ⟨hholds.cols, hholds.room⟩
  simp only [sheetStep] at hstep
  simp only [tableStep, paramSaveCsv, ht, ← hempty]
  by_cases hnone : (s.names.isEmpty || s.rows.isEmpty) = true
  · rw [if_pos (by rw [hnone, Bool.true_or])] at hstep
    cases hstep
    exact ⟨c, by rw [if_pos hnone]; rfl, t, ht, hholds⟩
  · rw [if_neg hnone]
    rw [Bool.not_eq_true] at hnone
    rw [hnone, Bool.false_or] at hstep
    cases opens with
    | false =>
      cases hstep
      exact ⟨c, rfl, t, ht, hholds⟩
    | true =>
      cases hstep
      refine ⟨c, ?_, t, ht, hholds⟩
      simp only [Bool.not_true, Bool.false_eq_true, if_false, if_pos hroom, text_holds hholds]
      rfl

theorem step_shows (h : Shows c s) {call : TableCall F} {s' : Sheet F} {o : Answer F}
    (hstep : sheetStep env s call = some (s', o)) :
    ∃ c', tableStep env c call = some (c', o) ∧ Shows c' s' := by
  cases call with
  | initCsv decSep colSep fileh =>
    rw [sheetStep] at hstep
    split at hstep
    · next hsep =>
      cases hstep
      exact ⟨c, by rw [tableStep, initCsv, if_pos hsep], h⟩
    · next hsep =>
      cases hstep
      obtain ⟨hinit, hshows⟩ := init_shows c hsep fileh
      exact ⟨_, by rw [tableStep, hinit], hshows⟩
  | paramParse filename file => exact parse_shows h hstep
  | addRowCsv row => exact addRow_shows h hstep
  | getCsvData name data dataLen => exact getCsvData_shows h hstep
  | paramSave opens => exact save_shows h hstep

end Runs

/-- **The table is a sheet.**  After `InitCSV`, whatever the table object held before,
every run of calls that the sheet has is one of the table, with the same answers. -/
theorem csv_refines_sheet [Zero F] (env : Env F) (c : CsvCtx F) {decSep colSep : Str}
    (hsep : decSep.head? ≠ colSep.head?) (fileh : CsvFileh F) {calls : List (TableCall F)}
    {s : Sheet F} {answers : List (Answer F)}
    (h : Machine.exec (sheetStep env) (Sheet.empty decSep colSep) calls = some (s, answers)) :
    ∃ c', Machine.exec (tableStep env) c (.initCsv decSep colSep fileh :: calls)
        = some (c', .ret true :: answers) ∧ Shows c' s := by
  obtain ⟨hinit, hshows⟩ := init_shows c hsep fileh
  obtain ⟨c', hrun, hend⟩ := Machine.exec_refines (fun _ _ _ _ _ hR ha => step_shows hR ha) hshows h
  exact ⟨c', Machine.exec_cons (by rw [tableStep, hinit]) hrun, hend⟩

/-- A file with a bad second line, a row, a column and the file of them. -/
theorem csv_refines_sheet_two :
    ∃ c', Machine.exec (tableStep wholeEnv) startCtx
        [.initCsv ".".toList ",".toList commaTable,
          .paramParse "data.csv".toList (some "a,b\n1,2\nx,3\n".toList), .addRowCsv [5, 6],
          .getCsvData "B".toList [0, 0, 0] 3, .paramSave true]
        = some (c', [.ret true, .ret false, .ret true, .column [2, 6, 0] 2,
            .file (some "a,b\n1.000000,2.000000\n5.000000,6.000000\n".toList) true]) ∧
      Shows c' ⟨".".toList, ",".toList, ["a".toList, "b".toList], [[1, 2], [5, 6]], by decide⟩ :=
  csv_refines_sheet wholeEnv startCtx (by decide) commaTable rfl

end DataCommons.Csv
