import DataCommons.Csv.Fields

/-!
# Saving and reading back a table

`param_save_csv` writes commas and points whatever separators `InitCSV` was given;
`param_parse_csv` goes by the separators.  A table of several columns therefore comes
back only if the comma is a column separator, and its rows only if the printed numbers
survive the tokens and the decimal separator.

* `header_names`, `commas_needed`: when the first line gives the names back;
* `rowReads_of_plain`: rows survive separators that no number has in it;
* `csv_restores_iff`: the condition under which the whole table comes back.
-/

namespace DataCommons.Csv

open CString Params

variable {F : Type} {env : Env F} {t : CsvFileh F}

/-! ## The property -/

/-- A column name that is saved and read as it stands. -/
structure NameFits (sep name : Str) : Prop where
  ne : name ≠ []
  lower : name.map Char.toLower = name
  short : name.length < columnNameSize
  chars : ∀ c ∈ name, c ≠ ' ' ∧ c ≠ '\n' ∧ c ∉ sep

def columnNames (t : CsvFileh F) : List Str := (List.range t.colCount).map t.columnName

/-- A table that is not empty, with separators that `InitCSV` accepts, names that fit and
lines that fit the buffer. -/
structure Savable (env : Env F) (t : CsvFileh F) : Prop where
  accepted : t.decimalSep.head? ≠ t.columnSep.head?
  cols : 1 ≤ t.colCount ∧ t.colCount ≤ maxBin
  rows : 1 ≤ t.itemCount ∧ t.itemCount ≤ maxBin
  names : ∀ name ∈ columnNames t, NameFits t.columnSep name
  header : (saveCsvLine (columnNames t)).length < csvLineSize
  lines : ∀ row < t.itemCount, (saveCsvLine (rowTexts env t row)).length < csvLineSize

/-- What `%f` prints has no comma and no end of a line in it. -/
structure PrintsNumbers (env : Env F) : Prop where
  ne : ∀ x, env.showFloat x ≠ []
  chars : ∀ x, ∀ c ∈ env.showFloat x, c ≠ ',' ∧ c ≠ '\n' ∧ c ≠ '\r'

/-- The number that the printed text of an item denotes. -/
def printedValue (env : Env F) (t : CsvFileh F) (i j : ℕ) : F :=
  (env.strtof (env.showFloat (t.columnItem i j))).value

/-- The table comes back: its counters, its names, and for every item the number that
its printed text denotes. -/
structure ComesBack (env : Env F) (t t' : CsvFileh F) : Prop where
  colCount : t'.colCount = t.colCount
  itemCount : t'.itemCount = t.itemCount
  columnName : ∀ i < t.colCount, t'.columnName i = t.columnName i
  columnItem : ∀ i < t.colCount, ∀ j < t.itemCount, t'.columnItem i j = printedValue env t i j

/-- After `param_save_csv`, and `InitCSV` with the same separators and any table,
parsing the written file returns `true` and the table comes back. -/
def RestoresCsv [Zero F] (env : Env F) (t : CsvFileh F) (filename : Str) : Prop :=
  ∃ file, paramSaveCsv env ⟨some t, .noError⟩ true = some (some file, true) ∧
    ∀ fileh c, ∃ t', paramParseCsv env (initCsv t.decimalSep t.columnSep fileh c).1 filename
        (some file) = some (⟨some t', .noError⟩, true) ∧ ComesBack env t t'

/-! ## The first line -/

section Header

variable {sep : Str}

theorem headerName_fits {name : Str} (h : NameFits sep name) : headerName name = name := by
  have htake : name.take (columnNameSize - 1) = name :=
    List.take_of_length_le (Nat.le_sub_one_of_lt h.short)
  have hblank : ' ' ∉ name := fun hm => (h.chars _ hm).1 rfl
  simp only [headerName, h.lower, htake, if_neg hblank]
  exact List.takeWhile_eq_self_iff.mpr fun c hc => decide_eq_true (h.chars c hc).2.1

/-- The newline of the line is cut off the last name. -/
theorem headerName_newline {name : Str} (h : NameFits sep name) :
    headerName (name ++ ['\n']) = name := by
  obtain ⟨rest, htake, hrest⟩ : ∃ rest, (name ++ ['\n']).take (columnNameSize - 1) = name ++ rest ∧
      ∀ c ∈ rest, c = '\n' := by
    refine ⟨['\n'].take (columnNameSize - 1 - name.length), ?_, fun c hc => ?_⟩
    · rw [List.take_append, List.take_of_length_le (Nat.le_sub_one_of_lt h.short)]
    · exact List.mem_singleton.mp (List.mem_of_mem_take hc)
  have hblank : ' ' ∉ name ++ rest := by
    intro hm
    rcases List.mem_append.mp hm with hm | hm
    · exact (h.chars _ hm).1 rfl
    · exact absurd (hrest _ hm) (by decide)
  have hlower : (name ++ ['\n']).map Char.toLower = name ++ ['\n'] := by
    rw [List.map_append, h.lower]
    rfl
  have hname : ∀ c ∈ name, decide (c ≠ '\n') = true := fun c hc => decide_eq_true (h.chars c hc).2.1
  simp only [headerName, hlower, htake, if_neg hblank]
  rw [List.takeWhile_append_of_pos hname]
  cases rest with
  | nil => rw [List.takeWhile_nil, List.append_nil]
  | cons c rest =>
    rw [hrest c List.mem_cons_self, List.takeWhile_cons_of_neg (by simp), List.append_nil]

theorem not_sep {name : Str} (h : NameFits sep name) : ∀ c ∈ name, decide (c ∈ sep) = false :=
  fun c hc => decide_eq_false (h.chars c hc).2.2

theorem tokens_newline (hnl : '\n' ∈ sep) (s : Str) : tokens sep (s ++ ['\n']) = tokens sep s := by
  have hsplit := @strtok_append_cons Char (fun c => decide (c ∈ sep)) s [] '\n' (decide_eq_true hnl)
  rw [strtok_nil, List.append_nil] at hsplit
  exact hsplit

/-- The token of the last name, with the newline or without it. -/
theorem tokens_last {name : Str} (h : NameFits sep name) :
    (tokens sep (name ++ ['\n'])).map headerName = [name] := by
  by_cases hnl : '\n' ∈ sep
  · rw [tokens_newline hnl, tokens, strtok_of_not_sep (not_sep h) h.ne, List.map_singleton,
      headerName_fits h]
  · have hall : ∀ c ∈ name ++ ['\n'], decide (c ∈ sep) = false := by
      intro c hc
      rcases List.mem_append.mp hc with hc | hc
      · exact not_sep h c hc
      · rw [List.mem_singleton.mp hc]
        exact decide_eq_false hnl
    rw [tokens, strtok_of_not_sep hall (by simp), List.map_singleton, headerName_newline h]

/-- **The first line gives the names back** where the comma separates them. -/
theorem header_names {names : List Str} (h : ∀ name ∈ names, NameFits sep name)
    (hne : names ≠ []) (hcomma : names.length = 1 ∨ ',' ∈ sep) :
    (tokens sep (saveCsvLine names)).map headerName = names := by
  induction names with
  | nil => exact absurd rfl hne
  | cons name names ih =>
    have hname := h name List.mem_cons_self
    cases names with
    | nil =>
      rw [saveCsvLine, List.intercalate_singleton]
      exact tokens_last hname
    | cons next rest =>
      have hcomma : ',' ∈ sep := hcomma.resolve_left (by simp)
      have ih := ih (fun n hn => h n (List.mem_cons_of_mem name hn)) (List.cons_ne_nil _ _)
        (Or.inr hcomma)
      rw [saveCsvLine, List.intercalate_cons_cons, List.append_assoc, List.append_assoc,
        List.singleton_append, ← saveCsvLine, tokens,
        strtok_cons (not_sep hname) hname.ne (decide_eq_true hcomma), List.map_cons,
        headerName_fits hname, ← tokens, ih]

/-- Without the comma among the separators the first line is one token. -/
theorem tokens_length_of_not_comma {names : List Str} (h : ∀ name ∈ names, NameFits sep name)
    (hcomma : ',' ∉ sep) : (tokens sep (saveCsvLine names)).length ≤ 1 := by
  have hall : ∀ c ∈ List.intercalate [','] names, decide (c ∈ sep) = false := by
    intro c hc
    rcases mem_intercalate hc with rfl | ⟨name, hname, hc⟩
    · exact decide_eq_false hcomma
    · exact not_sep (h name hname) c hc
  have hlen : ∀ s : Str, (∀ c ∈ s, decide (c ∈ sep) = false) → (tokens sep s).length ≤ 1 := by
    intro s hs
    by_cases hnil : s = []
    · simp [hnil, tokens, strtok_nil]
    · rw [tokens, strtok_of_not_sep hs hnil, List.length_singleton]
  by_cases hnl : '\n' ∈ sep
  · rw [saveCsvLine, tokens_newline hnl]
    exact hlen _ hall
  · refine hlen _ fun c hc => ?_
    rcases List.mem_append.mp hc with hc | hc
    · exact hall c hc
    · rw [List.mem_singleton.mp hc]
      exact decide_eq_false hnl

end Header

/-! ## The file -/

section File

/-- The lines of the file without their newlines. -/
def csvBodies (env : Env F) (t : CsvFileh F) : List Str :=
  List.intercalate [','] (columnNames t) ::
    (List.range t.itemCount).map fun row => List.intercalate [','] (rowTexts env t row)

def rowLines (env : Env F) (t : CsvFileh F) : List Str :=
  (List.range t.itemCount).map fun row => saveCsvLine (rowTexts env t row)

theorem csvText_eq (env : Env F) (t : CsvFileh F) :
    csvText env t = ((csvBodies env t).map (· ++ ['\n'])).flatten := by
  rw [csvBodies, List.map_cons, List.flatten_cons, List.map_map]
  rfl

theorem rowTexts_chars (hprint : PrintsNumbers env) {row : ℕ} {c : Char}
    (h : c ∈ List.intercalate [','] (rowTexts env t row)) : c ≠ '\n' ∧ c ≠ '\r' := by
  rcases mem_intercalate h with rfl | ⟨text, htext, hc⟩
  · decide
  · obtain ⟨i, -, rfl⟩ := List.mem_map.mp htext
    exact ⟨(hprint.chars _ c hc).2.1, (hprint.chars _ c hc).2.2⟩

/-- **The lines of the file** are the names and the rows. -/
theorem csvText_lines (hprint : PrintsNumbers env) (ht : Savable env t) :
    fgetsLines csvLineSize (csvText env t) = saveCsvLine (columnNames t) :: rowLines env t := by
  have hlines : IsLines csvLineSize (csvText env t) ((csvBodies env t).map (· ++ ['\n'])) := by
    rw [csvText_eq]
    refine isLines_flatten fun body hbody => ?_
    rcases List.mem_cons.mp hbody with rfl | hbody
    · refine ⟨fun hnl => ?_, by simpa [saveCsvLine] using ht.header⟩
      rcases mem_intercalate hnl with h | ⟨name, hname, hc⟩
      · exact absurd h (by decide)
      · exact ((ht.names name hname).chars _ hc).2.1 rfl
    · obtain ⟨row, hrow, rfl⟩ := List.mem_map.mp hbody
      have hlen := ht.lines row (List.mem_range.mp hrow)
      exact ⟨fun hnl => (rowTexts_chars hprint hnl).1 rfl, by simpa [saveCsvLine] using hlen⟩
  rw [fgetsLines_of_isLines hlines, csvBodies, List.map_cons, List.map_map]
  rfl

theorem stripEnd_saved (hprint : PrintsNumbers env) (row : ℕ) :
    stripEnd (saveCsvLine (rowTexts env t row)) = List.intercalate [','] (rowTexts env t row) := by
  have hlast : (List.intercalate [','] (rowTexts env t row)).getLast? ≠ some '\r' :=
    fun h => (rowTexts_chars hprint (List.mem_of_getLast? h)).2 rfl
  rw [stripEnd, saveCsvLine, if_pos (Or.inl List.getLast?_concat), List.dropLast_concat]
  exact if_neg hlast

theorem paramSaveCsv_eq (ht : Savable env t) (err : ParamError) :
    paramSaveCsv env ⟨some t, err⟩ true = some (some (csvText env t), true) := by
  have hcols := ht.cols
  have hrows := ht.rows
  have hempty : ¬ (t.colCount = 0 ∨ t.itemCount = 0) := by omega
  simp only [paramSaveCsv, if_neg hempty, Bool.not_true, Bool.false_eq_true, if_false, hcols.2,
    hrows.2, and_self, if_true]

/-- The table that `InitCSV` sets up with the same separators. -/
def emptied (t fileh : CsvFileh F) : CsvFileh F :=
  { fileh with
    itemCount := 0, colCount := 0, decimalSep := t.decimalSep, columnSep := t.columnSep }

theorem initCsv_eq (ht : Savable env t) (fileh : CsvFileh F) (c : CsvCtx F) :
    (initCsv t.decimalSep t.columnSep fileh c).1 = ⟨some (emptied t fileh), c.paramError⟩ := by
  rw [initCsv, if_neg ht.accepted]
  rfl

end File

/-! ## The names -/

section Names

theorem columnNames_length (t : CsvFileh F) : (columnNames t).length = t.colCount := by
  rw [columnNames, List.length_map, List.length_range]

/-- The table behind the first line of the file. -/
def headed (t fileh : CsvFileh F) : CsvFileh F :=
  csvNewHeaders (emptied t fileh) (saveCsvLine (columnNames t))

def readNames (t : CsvFileh F) : List Str :=
  ((tokens t.columnSep (saveCsvLine (columnNames t))).take maxBin).map headerName

theorem readNames_eq (ht : Savable env t) (hcomma : t.colCount = 1 ∨ ',' ∈ t.columnSep) :
    readNames t = columnNames t := by
  have hlen := columnNames_length t
  have hne : columnNames t ≠ [] := by
    intro hnil
    rw [hnil, List.length_nil] at hlen
    have := ht.cols.1
    omega
  rw [readNames, List.map_take, header_names ht.names hne (hlen.symm ▸ hcomma)]
  exact List.take_of_length_le (hlen.symm ▸ ht.cols.2)

theorem readNames_length_le (ht : Savable env t) (hcomma : ',' ∉ t.columnSep) :
    (readNames t).length ≤ 1 := by
  have hone := tokens_length_of_not_comma ht.names hcomma
  rw [readNames, List.length_map, List.length_take]
  omega

theorem headed_columnName (ht : Savable env t) (hcomma : t.colCount = 1 ∨ ',' ∈ t.columnSep)
    (fileh : CsvFileh F) {i : ℕ} (hi : i < t.colCount) :
    (headed t fileh).columnName i = t.columnName i := by
  have hname : (headed t fileh).columnName i
      = ((readNames t)[i]?).getD ((emptied t fileh).columnName i) := rfl
  have hget : (columnNames t)[i]? = some (t.columnName i) := by
    rw [columnNames, List.getElem?_map, List.getElem?_range hi]
    rfl
  rw [hname, readNames_eq ht hcomma, hget]
  rfl

end Names

/-! ## The rows -/

section Rows

/-- The pieces that the column separator makes of the printed items of a row, as far
as there are columns. -/
def rowPieces (env : Env F) (t : CsvFileh F) (row : ℕ) : List Str :=
  ((rowTexts env t row).flatMap (tokens t.columnSep)).take maxBin

theorem tokens_joined {sep : Str} {texts : List Str} (h : texts.length = 1 ∨ ',' ∈ sep) :
    tokens sep (List.intercalate [','] texts) = texts.flatMap (tokens sep) := by
  rcases h with hone | hcomma
  · obtain ⟨text, rfl⟩ := List.length_eq_one_iff.mp hone
    rw [List.intercalate_singleton, List.flatMap_singleton]
  · exact @strtok_joined Char (fun c => decide (c ∈ sep)) ',' (decide_eq_true hcomma) texts

/-- The cells of a written row are the pieces of its printed items. -/
theorem cellTexts_saved (hprint : PrintsNumbers env) (hcomma : t.colCount = 1 ∨ ',' ∈ t.columnSep)
    (row : ℕ) : cellTexts t.columnSep (saveCsvLine (rowTexts env t row)) = rowPieces env t row := by
  have hlen : (rowTexts env t row).length = t.colCount := by
    rw [rowTexts, List.length_map, List.length_range]
  rw [cellTexts, stripEnd_saved hprint, tokens_joined (hlen.symm ▸ hcomma), rowPieces]

theorem rowLines_get {row : ℕ} (hrow : row < t.itemCount) :
    (rowLines env t)[row]? = some (saveCsvLine (rowTexts env t row)) := by
  rw [rowLines, List.getElem?_map, List.getElem?_range hrow]
  rfl

theorem rowLines_length (env : Env F) (t : CsvFileh F) : (rowLines env t).length = t.itemCount := by
  rw [rowLines, List.length_map, List.length_range]

variable [Zero F]

/-- A row that is read as it was printed: with the decimal separator rewritten, every
piece is a number, and the first ones are those that were printed. -/
structure RowReads (env : Env F) (t : CsvFileh F) (row : ℕ) : Prop where
  converts : ∀ piece ∈ rowPieces env t row, Converts env t.decimalSep piece
  values : ∀ i < t.colCount,
    ((rowPieces env t row)[i]?).map (textValue env t.decimalSep) = some (printedValue env t i row)

/-- **All rows are taken exactly if** every piece of theirs converts. -/
theorem rows_taken_iff (hprint : PrintsNumbers env) (ht : Savable env t)
    (hcomma : t.colCount = 1 ∨ ',' ∈ t.columnSep) (fileh : CsvFileh F) :
    (dataLoop env (rowLines env t) (headed t fileh)).2 = true ↔
      ∀ row < t.itemCount, ∀ piece ∈ rowPieces env t row, Converts env t.decimalSep piece := by
  have htaken : ∀ row < t.itemCount,
      (Taken env (headed t fileh) (0 + row) (saveCsvLine (rowTexts env t row)) ↔
        ∀ piece ∈ rowPieces env t row, Converts env t.decimalSep piece) := by
    intro row hrow
    have hcells : cellTexts (headed t fileh).columnSep (saveCsvLine (rowTexts env t row))
        = rowPieces env t row := cellTexts_saved hprint hcomma row
    have hroom : 0 + row < maxBin := by
      have := ht.rows.2
      omega
    rw [Taken, hcells]
    exact and_iff_right (Or.inr hroom)
  rw [dataLoop_true_iff]
  constructor
  · intro h row hrow
    exact (htaken row hrow).mp (h row _ (rowLines_get hrow))
  · intro h row line hline
    have hrow : row < t.itemCount := by
      rw [← rowLines_length env t]
      exact (List.getElem?_eq_some_iff.mp hline).1
    rw [rowLines_get hrow, Option.some.injEq] at hline
    exact hline ▸ (htaken row hrow).mpr (h row hrow)

/-- **The items behind the rows**: the values of the pieces, and what was there before
where there are too few. -/
theorem restored_item (hprint : PrintsNumbers env) (hcomma : t.colCount = 1 ∨ ',' ∈ t.columnSep)
    {fileh t' : CsvFileh F} (happ : Appended env (rowLines env t) (headed t fileh) t') (i : ℕ)
    {row : ℕ} (hrow : row < t.itemCount) :
    t'.columnItem i row
      = (((rowPieces env t row)[i]?).map (textValue env t.decimalSep)).getD
          (fileh.columnItem i row) := by
  have hitem := happ.row row _ (rowLines_get hrow) i
  have hcells : cellTexts (headed t fileh).columnSep (saveCsvLine (rowTexts env t row))
      = rowPieces env t row := cellTexts_saved hprint hcomma row
  have hzero : (headed t fileh).itemCount + row = row := Nat.zero_add row
  rw [hcells, hzero, List.getElem?_map] at hitem
  exact hitem

/-- **What comes back**: the names under the condition on the comma, and under the same
condition the items whose row reads as it was printed. -/
theorem comesBack_iff (hprint : PrintsNumbers env) (ht : Savable env t)
    (hcomma : t.colCount = 1 ∨ ',' ∈ t.columnSep) {fileh t' : CsvFileh F}
    (happ : Appended env (rowLines env t) (headed t fileh) t') :
    ComesBack env t t' ↔ ∀ i < t.colCount, ∀ row < t.itemCount,
      (((rowPieces env t row)[i]?).map (textValue env t.decimalSep)).getD (fileh.columnItem i row)
        = printedValue env t i row := by
  constructor
  · intro h i hi row hrow
    rw [← restored_item hprint hcomma happ i hrow]
    exact h.columnItem i hi row hrow
  · intro h
    refine ⟨?_, ?_, fun i hi => ?_, fun i hi row hrow => ?_⟩
    · have hcount : (headed t fileh).colCount = (readNames t).length := rfl
      rw [happ.colCount, hcount, readNames_eq ht hcomma, columnNames_length]
    · rw [happ.itemCount, rowLines_length]
      exact Nat.zero_add _
    · rw [happ.columnName, headed_columnName ht hcomma fileh hi]
    · rw [restored_item hprint hcomma happ i hrow]
      exact h i hi row hrow

/-- No printed item of a row meets a separator, and `strtof` takes each of them whole. -/
structure RowPlain (env : Env F) (t : CsvFileh F) (row : ℕ) : Prop where
  column : ∀ text ∈ rowTexts env t row, ∀ c ∈ text, c ∉ t.columnSep
  decimal : t.decimalSep.head? = some '.' ∨
    ∀ text ∈ rowTexts env t row, strstr text t.decimalSep = none
  whole : ∀ text ∈ rowTexts env t row, (env.strtof text).rest = []

omit [Zero F] in
theorem rowPieces_of_plain (hprint : PrintsNumbers env) (ht : Savable env t) {row : ℕ}
    (h : RowPlain env t row) : rowPieces env t row = rowTexts env t row := by
  have hone : ∀ text ∈ rowTexts env t row, tokens t.columnSep text = [text] := by
    intro text htext
    refine strtok_of_not_sep (fun c hc => decide_eq_false (h.column text htext c hc)) ?_
    obtain ⟨i, -, rfl⟩ := List.mem_map.mp htext
    exact hprint.ne _
  have hlen : (rowTexts env t row).length ≤ maxBin := by
    rw [rowTexts, List.length_map, List.length_range]
    exact ht.cols.2
  rw [rowPieces, List.flatMap_congr hone, List.flatMap_singleton', List.take_of_length_le hlen]

/-- **A row that meets no separator is read as it was printed.** -/
theorem rowReads_of_plain (hprint : PrintsNumbers env) (ht : Savable env t) {row : ℕ}
    (h : RowPlain env t row) : RowReads env t row := by
  have hpieces := rowPieces_of_plain hprint ht h
  have hkept : ∀ text ∈ rowTexts env t row, rewriteDecimal t.decimalSep text = text := by
    intro text htext
    rw [rewriteDecimal]
    rcases h.decimal with hpoint | hnone
    · exact if_neg (not_not.mpr hpoint)
    · rw [hnone text htext, ite_self]
  refine ⟨fun piece hpiece => ?_, fun i hi => ?_⟩
  · rw [hpieces] at hpiece
    rw [Converts, hkept piece hpiece]
    exact Or.inr (h.whole piece hpiece)
  · have hget : (rowTexts env t row)[i]? = some (env.showFloat (t.columnItem i row)) := by
      rw [rowTexts, List.getElem?_map, List.getElem?_range hi]
      rfl
    have hne : (env.showFloat (t.columnItem i row)).length ≠ 0 :=
      fun hzero => hprint.ne _ (List.length_eq_zero_iff.mp hzero)
    rw [hpieces, hget, Option.map_some, textValue, if_neg hne, hkept _ (List.mem_of_getElem? hget),
      printedValue]

end Rows

/-! ## The condition -/

section Restores

variable [Zero F] {filename : Str}

/-- **Saving and reading back**, as the loop over the written rows. -/
theorem restoresCsv_iff_loop (hprint : PrintsNumbers env) (ht : Savable env t)
    (hext : (strstr filename ".csv".toList).isSome) :
    RestoresCsv env t filename ↔ ∀ fileh,
      (dataLoop env (rowLines env t) (headed t fileh)).2 = true ∧
        ComesBack env t (dataLoop env (rowLines env t) (headed t fileh)).1 := by
  have hlines := csvText_lines hprint ht
  constructor
  · rintro ⟨file, hsave, hparse⟩ fileh
    rw [paramSaveCsv_eq ht, Option.some.injEq, Prod.mk.injEq, Option.some.injEq] at hsave
    obtain ⟨t', hrun, hback⟩ := hparse fileh ⟨none, .noError⟩
    obtain ⟨err', hres, -⟩ := @paramParseCsv_lines F _ env (emptied t fileh) .noError _ _ _ _ hext hlines
    rw [← hsave.1, initCsv_eq ht, hres, Option.some.injEq, Prod.mk.injEq, CsvCtx.mk.injEq,
      Option.some.injEq] at hrun
    exact ⟨hrun.2, hrun.1.1.symm ▸ hback⟩
  · intro h
    refine ⟨csvText env t, paramSaveCsv_eq ht _, fun fileh c => ?_⟩
    obtain ⟨htrue, hback⟩ := h fileh
    obtain ⟨err', hres, herr⟩ :=
      @paramParseCsv_lines F _ env (emptied t fileh) c.paramError _ _ _ _ hext hlines
    refine ⟨_, ?_, hback⟩
    rw [initCsv_eq ht, hres, herr htrue]
    rw [show (dataLoop env (rowLines env t) (csvNewHeaders (emptied t fileh)
      (saveCsvLine (columnNames t)))).2 = true from htrue]
    rfl

theorem loop_appended {fileh : CsvFileh F}
    (h : (dataLoop env (rowLines env t) (headed t fileh)).2 = true) :
    Appended env (rowLines env t) (headed t fileh)
      (dataLoop env (rowLines env t) (headed t fileh)).1 :=
  dataLoop_appended (by rw [← h])

/-- **Several columns need the comma** among the column separators. -/
theorem commas_needed (hprint : PrintsNumbers env) (ht : Savable env t)
    (hext : (strstr filename ".csv".toList).isSome) (h : RestoresCsv env t filename) :
    t.colCount = 1 ∨ ',' ∈ t.columnSep := by
  obtain ⟨htrue, hback⟩ := (restoresCsv_iff_loop hprint ht hext).mp h t
  refine or_iff_not_imp_right.mpr fun hcomma => ?_
  have hcount : (headed t t).colCount = (readNames t).length := rfl
  have hone := readNames_length_le ht hcomma
  have hsame := hback.colCount
  rw [(loop_appended htrue).colCount, hcount] at hsame
  have := ht.cols.1
  omega

/-- **A table comes back exactly if** it has one column or the comma is a column
separator, and every row is read as it was printed. -/
theorem csv_restores_iff [Nontrivial F] (hprint : PrintsNumbers env) (ht : Savable env t)
    (hext : (strstr filename ".csv".toList).isSome) :
    RestoresCsv env t filename ↔
      (t.colCount = 1 ∨ ',' ∈ t.columnSep) ∧ ∀ row < t.itemCount, RowReads env t row := by
  constructor
  · intro h
    have hcomma := commas_needed hprint ht hext h
    have hloop := (restoresCsv_iff_loop hprint ht hext).mp h
    refine ⟨hcomma, fun row hrow => ⟨?_, fun i hi => ?_⟩⟩
    · exact (rows_taken_iff hprint ht hcomma t).mp (hloop t).1 row hrow
    · -- what the new table holds there must not show through
      obtain ⟨x, hx⟩ := exists_ne (printedValue env t i row)
      obtain ⟨htrue, hback⟩ := hloop { t with columnItem := fun _ _ => x }
      have hvalue := (comesBack_iff hprint ht hcomma (loop_appended htrue)).mp hback i hi row hrow
      generalize ((rowPieces env t row)[i]?).map (textValue env t.decimalSep) = cell at hvalue ⊢
      cases cell with
      | none => exact absurd hvalue hx
      | some value => rw [← hvalue, Option.getD_some]
  · rintro ⟨hcomma, hrows⟩
    rw [restoresCsv_iff_loop hprint ht hext]
    intro fileh
    have htrue := (rows_taken_iff hprint ht hcomma fileh).mpr fun row hrow => (hrows row hrow).converts
    refine ⟨htrue, (comesBack_iff hprint ht hcomma (loop_appended htrue)).mpr ?_⟩
    intro i hi row hrow
    rw [(hrows row hrow).values i hi, Option.getD_some]

/-! ## Two tables -/

theorem wholeEnv_prints : PrintsNumbers wholeEnv := by
  refine ⟨fun x => ?_, fun x c hc => ?_⟩
  · exact List.append_ne_nil_of_left_ne_nil (showInt_ne_nil x) _
  · rcases List.mem_append.mp hc with hint | hzeros
    · rcases isDigit_or_sign_of_mem_showInt hint with hdigit | rfl
      · refine ⟨?_, ?_, ?_⟩ <;> (rintro rfl; exact absurd hdigit (by decide))
      · decide
    · have hall : (".000000".toList.all fun d => d ≠ ',' && d ≠ '\n' && d ≠ '\r') = true := by decide
      simpa [and_assoc] using List.all_eq_true.mp hall c hzeros

/-- A row of two columns behind `InitCSV(".", sep, ..)`. -/
def pairTable (sep : Str) : CsvFileh ℤ :=
  { columnName := fun i => if i = 0 then "a".toList else "b".toList
    columnItem := fun i _ => i
    itemCount := 1
    colCount := 2
    columnSep := sep
    decimalSep := ".".toList }

theorem pairTable_names {sep : Str} (ha : 'a' ∉ sep) (hb : 'b' ∉ sep) :
    ∀ name ∈ columnNames (pairTable sep), NameFits sep name := by
  intro name hname
  have hnames : columnNames (pairTable sep) = ["a".toList, "b".toList] := rfl
  rw [hnames, List.mem_cons, List.mem_singleton] at hname
  rcases hname with rfl | rfl
  · refine ⟨by decide, by decide, by decide, fun c hc => ?_⟩
    rw [List.mem_singleton.mp hc]
    exact ⟨by decide, by decide, ha⟩
  · refine ⟨by decide, by decide, by decide, fun c hc => ?_⟩
    rw [List.mem_singleton.mp hc]
    exact ⟨by decide, by decide, hb⟩

theorem csv_restores_iff_comma : RestoresCsv wholeEnv (pairTable ",".toList) "data.csv".toList := by
  have hsavable : Savable wholeEnv (pairTable ",".toList) :=
    ⟨by decide, by decide, by decide, pairTable_names (by decide) (by decide), by decide, by decide⟩
  refine (csv_restores_iff wholeEnv_prints hsavable (by decide)).mpr ⟨by decide, fun row hrow => ?_⟩
  rw [Nat.lt_one_iff.mp hrow]
  refine rowReads_of_plain wholeEnv_prints hsavable ⟨fun text htext c hc hsep => ?_, by decide, by decide⟩
  obtain ⟨i, -, rfl⟩ := List.mem_map.mp htext
  exact (wholeEnv_prints.chars _ c hc).1 (List.mem_singleton.mp hsep)

/-- With `;` for the columns the two written names are read as one. -/
theorem semicolon_lost :
    PrintsNumbers wholeEnv ∧ Savable wholeEnv (pairTable ";".toList) ∧
      ¬ RestoresCsv wholeEnv (pairTable ";".toList) "data.csv".toList := by
  have hsavable : Savable wholeEnv (pairTable ";".toList) :=
    ⟨by decide, by decide, by decide, pairTable_names (by decide) (by decide), by decide, by decide⟩
  refine ⟨wholeEnv_prints, hsavable, fun h => ?_⟩
  exact absurd (commas_needed wholeEnv_prints hsavable (by decide) h) (by decide)

end Restores

end DataCommons.Csv
