import DataCommons.Lib.Lines
import DataCommons.Lib.Tokens
import DataCommons.Params.Model

/-!
# The CSV table of `file_parser.h`

The table that `InitCSV` is given holds whatever it held before; only the counters
and the separators are set.  Separators are strings, as `strtok_r` and `strstr` take
them, and a file holds no NUL byte.  An undefined end is an access through the missing
table, to a column or a row from `MAX_BIN` on, or to a line that `fgets` did not fill.
-/

namespace DataCommons.Csv

open CString Params

variable {F : Type}

/-- `sizeof line`. -/
def csvLineSize : ℕ := 2048

/-- `sizeof column_name`. -/
def columnNameSize : ℕ := 256

/-- `csv_fileh_t`: the columns, each with its name and its items. -/
structure CsvFileh (F : Type) where
  columnName : ℕ → Str
  columnItem : ℕ → ℕ → F
  itemCount : ℕ
  colCount : ℕ
  columnSep : Str
  decimalSep : Str

/-- `param_ctx_t`, the part of the table. -/
structure CsvCtx (F : Type) where
  csvFileh : Option (CsvFileh F)
  paramError : ParamError

/-- `InitCSV`: the first characters of the separators must differ. -/
def initCsv (decSep colSep : Str) (fileh : CsvFileh F) (c : CsvCtx F) : CsvCtx F × Bool :=
  if decSep.head? = colSep.head? then (c, false)
  else
    let fileh :=
      { fileh with itemCount := 0, colCount := 0, decimalSep := decSep, columnSep := colSep }
    ({ c with csvFileh := some fileh }, true)

/-! ## Reading -/

/-- The tokens of `strtok_r` for the column separator. -/
def tokens (sep line : Str) : List Str := strtok (fun c => decide (c ∈ sep)) line

/-- A column name from a token of the first line: lower case, at most 255 characters,
cut at the first blank or else at the newline. -/
def headerName (token : Str) : Str :=
  let name := (token.map Char.toLower).take (columnNameSize - 1)
  if ' ' ∈ name then name.takeWhile (· ≠ ' ') else name.takeWhile (· ≠ '\n')

/-- `csv_new_headers`; the test of the last character of the buffer finds the terminator
or what no line shows. -/
def csvNewHeaders (t : CsvFileh F) (line : Str) : CsvFileh F :=
  let names := ((tokens t.columnSep line).take maxBin).map headerName
  { t with
    columnName := fun i => (names[i]?).getD (t.columnName i)
    colCount := names.length }

/-- The line without its end: a newline or a carriage return, and a carriage return
before that. -/
def stripEnd (line : Str) : Str :=
  if line.getLast? = some '\n' ∨ line.getLast? = some '\r' then
    let line := line.dropLast
    if line.getLast? = some '\r' then line.dropLast else line
  else line

/-- The first occurrence of the decimal separator becomes a point. -/
def rewriteDecimal (decSep token : Str) : Str :=
  if decSep.head? ≠ some '.' then
    match strstr token decSep with
    | some pos => token.take (token.length - pos.length) ++ '.' :: pos.drop 1
    | none => token
  else token

def CsvFileh.setItem (t : CsvFileh F) (col row : ℕ) (x : F) : CsvFileh F :=
  { t with columnItem := fun i j => if i = col ∧ j = row then x else t.columnItem i j }

/-- The loop over the tokens of a line: the table, and whether the parser goes on. -/
def rowLoop [Zero F] (env : Env F) : ℕ → List Str → CsvFileh F → CsvFileh F × Bool
  | _, [], t => (t, true)
  | cols, token :: tokens, t =>
    if cols ≥ maxBin then (t, true)
    else if t.itemCount ≥ maxBin then (t, false)
    else if token.length = 0 then rowLoop env (cols + 1) tokens (t.setItem cols t.itemCount 0)
    else
      let temp := env.strtof (rewriteDecimal t.decimalSep token)
      if temp.rest ≠ [] then (t, false)
      else rowLoop env (cols + 1) tokens (t.setItem cols t.itemCount temp.value)

/-- The loop over the lines behind the first. -/
def dataLoop [Zero F] (env : Env F) : List Str → CsvFileh F → CsvFileh F × Bool
  | [], t => (t, true)
  | line :: lines, t =>
    match rowLoop env 0 (tokens t.columnSep (stripEnd line)) t with
    | (t, false) => (t, false)
    | (t, true) => dataLoop env lines { t with itemCount := t.itemCount + 1 }

/-- `param_parse_csv` on the file of the name, if there is one; no result where it is
undefined. -/
def paramParseCsv [Zero F] (env : Env F) (c : CsvCtx F) (filename : Str) (file : Option Str) :
    Option (CsvCtx F × Bool) :=
  if (strstr filename ".csv".toList).isNone then some (c, false)
  else
    match file with
    | none => some (c, false)
    | some file =>
      match c.csvFileh, fgetsLines csvLineSize file with
      | some t, header :: lines =>
        match dataLoop env lines (csvNewHeaders t header) with
        | (t, true) => some (⟨some t, .noError⟩, true)
        | (t, false) => some (⟨some t, .invalidNumber⟩, false)
      | _, _ => none

/-! ## Looking up a column -/

/-- `sizeof low_name`. -/
def lowNameSize : ℕ := 256

/-- The loop over the names: the first column whose name contains the text. -/
def findColumn (t : CsvFileh F) (lowName : Str) : Option ℕ :=
  (List.range t.colCount).find? fun i => (strstr (t.columnName i) lowName).isSome

/-- `GetCSVData` into the array `data`: the array behind the call and what is returned. -/
def getCsvData (c : CsvCtx F) (name : Str) (data : List F) (dataLen : ℕ) : Option (List F × ℤ) :=
  if name.length ≥ lowNameSize then none
  else
    match c.csvFileh with
    | none => none
    | some t =>
      if dataLen < t.itemCount then some (data, -1)
      else
        match findColumn t (name.map Char.toLower) with
        | none => some (data, 0)
        | some i =>
          if t.itemCount ≤ maxBin ∧ t.itemCount ≤ data.length then
            some ((List.range t.itemCount).map (t.columnItem i) ++ data.drop t.itemCount,
              t.itemCount)
          else none

/-! ## Adding and saving rows -/

/-- The loop of `AddRowCSV`; no table where an item has no place. -/
def storeRow : ℕ → List F → CsvFileh F → Option (CsvFileh F)
  | _, [], t => some t
  | i, x :: xs, t =>
    if i < maxBin ∧ t.itemCount < maxBin then storeRow (i + 1) xs (t.setItem i t.itemCount x)
    else none

/-- `AddRowCSV` of as many values as there are. -/
def addRowCsv (c : CsvCtx F) (row : List F) : Option (CsvCtx F × Bool) :=
  match c.csvFileh with
  | none => none
  | some t =>
    if row.length ≠ t.colCount then some (c, false)
    else
      match storeRow 0 row t with
      | none => none
      | some t => some ({ c with csvFileh := some { t with itemCount := t.itemCount + 1 } }, true)

/-- A line of `param_save_csv`. -/
def saveCsvLine (texts : List Str) : Str := List.intercalate [','] texts ++ ['\n']

def rowTexts (env : Env F) (t : CsvFileh F) (row : ℕ) : List Str :=
  (List.range t.colCount).map fun i => env.showFloat (t.columnItem i row)

def csvText (env : Env F) (t : CsvFileh F) : Str :=
  saveCsvLine ((List.range t.colCount).map t.columnName) ++
    (List.range t.itemCount).flatMap fun row => saveCsvLine (rowTexts env t row)

/-- `param_save_csv`: the file, if it is written, and what is returned. -/
def paramSaveCsv (env : Env F) (c : CsvCtx F) (opens : Bool) : Option (Option Str × Bool) :=
  match c.csvFileh with
  | none => none
  | some t =>
    if t.colCount = 0 ∨ t.itemCount = 0 then some (none, false)
    else if !opens then some (none, false)
    else if t.colCount ≤ maxBin ∧ t.itemCount ≤ maxBin then some (some (csvText env t), true)
    else none

end DataCommons.Csv
