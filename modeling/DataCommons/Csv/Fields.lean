import DataCommons.Csv.Rows

/-!
# Fields and columns

The fields of a line are what stands between single separators.  `strtok_r` takes
neighbouring separators for one, so a line with an empty field has fewer tokens than
fields: the last column of its row is not written, whatever it holds.

* `fields_stored`: without empty fields every field is in its column;
* `csv_fields_iff`: that is the only case, over all tables.
-/

namespace DataCommons.Csv

open CString Params

variable {F : Type} [Zero F] {env : Env F}

/-- The texts between single occurrences of the column separator. -/
def fields (sep line : Str) : List Str := (stripEnd line).splitOnP fun c => decide (c ∈ sep)

/-- Every field of every line that is not blank is in its column of the line's row, an
empty one as `0`. -/
def StoresFields (env : Env F) (t : CsvFileh F) (lines : List Str) (t' : CsvFileh F) : Prop :=
  ∀ k line, lines[k]? = some line → stripEnd line ≠ [] →
    ∀ i field, (fields t.columnSep line)[i]? = some field →
      t'.columnItem i (t.itemCount + k) = textValue env t.decimalSep field

/-- Whatever the columns hold before, reading the file leaves every field in its column. -/
def ColumnsStored (env : Env F) (t : CsvFileh F) (err : ParamError) (filename file : Str)
    (lines : List Str) : Prop :=
  ∀ items t', paramParseCsv env ⟨some { t with columnItem := items }, err⟩ filename (some file)
      = some (⟨some t', .noError⟩, true) → StoresFields env t lines t'

theorem stripEnd_length_le (line : Str) : (stripEnd line).length ≤ line.length := by
  rw [stripEnd]
  split
  · dsimp only
    split
    · rw [List.length_dropLast, List.length_dropLast]
      omega
    · rw [List.length_dropLast]
      omega
  · exact le_rfl

/-- A line that fits the buffer has no more fields than there are columns. -/
theorem fields_length {line : Str} (h : line.length < csvLineSize) (sep : Str) :
    (fields sep line).length ≤ maxBin := by
  have hfields := fields_length_le (fun c => decide (c ∈ sep)) (stripEnd line)
  have hstrip := stripEnd_length_le line
  simp only [fields, maxBin, csvLineSize] at h ⊢
  omega

theorem cellTexts_eq {line : Str} (h : line.length < csvLineSize) (sep : Str) :
    cellTexts sep line = tokens sep (stripEnd line) := by
  refine List.take_of_length_le (le_trans ?_ (fields_length h sep))
  exact List.length_filter_le _ _

/-- **Without empty fields every field is in its column.** -/
theorem fields_stored {t t' : CsvFileh F} {lines : List Str}
    (hfit : ∀ line ∈ lines, line.length < csvLineSize) (happ : Appended env lines t t')
    (hfull : ∀ line ∈ lines, stripEnd line ≠ [] → [] ∉ fields t.columnSep line) :
    StoresFields env t lines t' := by
  intro k line hk hblank i field hi
  have hmem := List.mem_of_getElem? hk
  have htokens : tokens t.columnSep (stripEnd line) = fields t.columnSep line :=
    strtok_eq_fields.mpr (hfull line hmem hblank)
  rw [happ.row k line hk i, cellTexts_eq (hfit line hmem), htokens, List.getElem?_map, hi]
  rfl

/-- **A column that is not written** keeps what it held. -/
theorem last_field_kept {t t' : CsvFileh F} {lines : List Str} (happ : Appended env lines t t')
    {k : ℕ} {line : Str} (hk : lines[k]? = some line) (hfit : line.length < csvLineSize)
    (hempty : [] ∈ fields t.columnSep line) :
    t'.columnItem ((fields t.columnSep line).length - 1) (t.itemCount + k)
      = t.columnItem ((fields t.columnSep line).length - 1) (t.itemCount + k) := by
  have hlt : (tokens t.columnSep (stripEnd line)).length < (fields t.columnSep line).length :=
    strtok_length_lt hempty
  rw [happ.row k line hk, cellTexts_eq hfit, List.getElem?_eq_none, Option.getD_none]
  rw [List.length_map]
  omega

theorem dataLoop_true_congr {t u : CsvFileh F} {lines : List Str}
    (hcount : u.itemCount = t.itemCount) (hsep : u.columnSep = t.columnSep)
    (hdec : u.decimalSep = t.decimalSep) (h : (dataLoop env lines t).2 = true) :
    (dataLoop env lines u).2 = true := by
  rw [dataLoop_true_iff] at h ⊢
  intro k line hk
  have htaken := h k line hk
  rw [Taken, ← hcount, ← hsep, ← hdec] at htaken
  exact htaken

theorem paramParseCsv_true {t : CsvFileh F} {err : ParamError} {filename file header : Str}
    {lines : List Str} {c' : CsvCtx F} (hlines : fgetsLines csvLineSize file = header :: lines)
    (h : paramParseCsv env ⟨some t, err⟩ filename (some file) = some (c', true)) :
    (strstr filename ".csv".toList).isSome ∧
      (dataLoop env lines (csvNewHeaders t header)).2 = true := by
  cases hext : (strstr filename ".csv".toList).isSome with
  | true =>
    obtain ⟨err', hparse, -⟩ := @paramParseCsv_lines F _ env t err _ _ _ _ hext hlines
    rw [hparse, Option.some.injEq, Prod.mk.injEq] at h
    exact ⟨rfl, h.2⟩
  | false =>
    rw [paramParseCsv, if_pos (by rw [← Option.not_isSome, hext]; rfl)] at h
    cases h

theorem paramParseCsv_eq {t : CsvFileh F} (err : ParamError) {filename file header : Str}
    {lines : List Str} (hext : (strstr filename ".csv".toList).isSome)
    (hlines : fgetsLines csvLineSize file = header :: lines)
    (h : (dataLoop env lines (csvNewHeaders t header)).2 = true) :
    ∃ t', paramParseCsv env ⟨some t, err⟩ filename (some file) = some (⟨some t', .noError⟩, true) ∧
      Appended env lines (csvNewHeaders t header) t' := by
  obtain ⟨err', hparse, herr⟩ := @paramParseCsv_lines F _ env t err _ _ _ _ hext hlines
  rw [h, herr h] at hparse
  refine ⟨_, hparse, dataLoop_appended ?_⟩
  rw [← h]

/-- **Where a file is taken, every field is in its column exactly if** no line but a
blank one has an empty field; over all that the table can hold before. -/
theorem csv_fields_iff [Nontrivial F] {t : CsvFileh F} {err : ParamError}
    {filename file header : Str} {lines : List Str} {c' : CsvCtx F}
    (hlines : IsLines csvLineSize file (header :: lines))
    (htrue : paramParseCsv env ⟨some t, err⟩ filename (some file) = some (c', true)) :
    ColumnsStored env t err filename file lines ↔
      ∀ line ∈ lines, stripEnd line ≠ [] → [] ∉ fields t.columnSep line := by
  have hread := fgetsLines_of_isLines hlines
  have hfit : ∀ line ∈ lines, line.length < csvLineSize :=
    fun line hmem => hlines.line (List.mem_cons_of_mem header hmem)
  obtain ⟨hext, hloop⟩ := paramParseCsv_true hread htrue
  have hparse : ∀ items, ∃ t', paramParseCsv env ⟨some { t with columnItem := items }, err⟩ filename
      (some file) = some (⟨some t', .noError⟩, true) ∧
        Appended env lines (csvNewHeaders { t with columnItem := items } header) t' :=
    fun items => paramParseCsv_eq err hext hread
      (dataLoop_true_congr (t := csvNewHeaders t header) rfl rfl rfl hloop)
  constructor
  · intro h line hmem hblank hempty
    obtain ⟨k, hk⟩ := List.getElem?_of_mem hmem
    obtain ⟨i, hi⟩ : ∃ i, i = (fields t.columnSep line).length - 1 := ⟨_, rfl⟩
    have hlt : i < (fields t.columnSep line).length := by
      have := List.length_pos_of_mem hempty
      omega
    -- the last column holds something else before
    obtain ⟨x, hx⟩ := exists_ne (textValue env t.decimalSep ((fields t.columnSep line)[i]))
    obtain ⟨t', ht', happ⟩ := hparse fun _ _ => x
    have hstored := h _ t' ht' k line hk hblank i _ (List.getElem?_eq_getElem hlt)
    have hkept : t'.columnItem ((fields t.columnSep line).length - 1) (t.itemCount + k) = x :=
      last_field_kept happ hk (hfit line hmem) hempty
    rw [← hi] at hkept
    exact hx (hkept.symm.trans hstored)
  · intro h items t' ht'
    obtain ⟨t₁, ht₁, happ⟩ := hparse items
    rw [ht'] at ht₁
    cases ht₁
    have hstored := fields_stored hfit happ h
    exact hstored

/-! ## Two files -/

/-- `strtof` and `%f` on whole numbers. -/
def wholeEnv : Env ℤ where
  strtof s :=
    let temp := strtol s
    match temp.rest with
    | '.' :: ds => ⟨temp.value, ds.dropWhile (· = '0'), temp.erange⟩
    | rest => ⟨temp.value, rest, temp.erange⟩
  showFloat i := showInt i ++ ".000000".toList
  tempByte := '\x00'

def commaTable : CsvFileh ℤ := ⟨fun _ => [], fun _ _ => 0, 0, 0, ",".toList, ".".toList⟩

theorem csv_fields_iff_two :
    ColumnsStored wholeEnv commaTable .noError "data.csv".toList "a,b\n1,2\n".toList
      ["1,2\n".toList] := by
  have hlines : IsLines csvLineSize "a,b\n1,2\n".toList ["a,b\n".toList, "1,2\n".toList] :=
    @isLines_flatten csvLineSize ["a,b".toList, "1,2".toList] (by decide)
  have htrue : ∃ c', paramParseCsv wholeEnv ⟨some commaTable, .noError⟩ "data.csv".toList
      (some "a,b\n1,2\n".toList) = some (c', true) := ⟨_, rfl⟩
  obtain ⟨c', htrue⟩ := htrue
  exact (csv_fields_iff hlines htrue).mpr (by decide)

/-- The empty field of `1,,3` moves the next one into its column. -/
theorem empty_field_skipped :
    ¬ ColumnsStored wholeEnv commaTable .noError "data.csv".toList "a,b,c\n1,,3\n".toList
      ["1,,3\n".toList] := by
  intro h
  have hstored := h (fun _ _ => 7) _ rfl 0 _ rfl (by decide) 1 [] (by decide)
  exact absurd hstored (by decide)

end DataCommons.Csv
