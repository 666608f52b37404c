import DataCommons.Csv.Fields

/-!
# Looking up a column

The names of a parsed table are in lower case, and so is the text that `GetCSVData`
searches for; but it takes the first column whose name contains the text.

* `getCsvData_eq`: what the call does, by the column it finds;
* `lookup_iff`: when it gives the column of the name that was asked for.
-/

namespace DataCommons.Csv

open CString Params

variable {F : Type}

/-! ## Names -/

/-- Equal but for the case of letters. -/
def EqIgnoreCase (a b : Str) : Prop := a.map Char.toLower = b.map Char.toLower

theorem headerName_lower (token : Str) :
    (headerName token).map Char.toLower = headerName token := by
  have hsub : ∀ c ∈ headerName token, c ∈ token.map Char.toLower := by
    intro c hc
    rw [headerName] at hc
    split at hc
    · exact List.mem_of_mem_take ((List.takeWhile_prefix _).subset hc)
    · exact List.mem_of_mem_take ((List.takeWhile_prefix _).subset hc)
  have hlow : ∀ c ∈ headerName token, c.toLower = c := by
    intro c hc
    obtain ⟨d, -, rfl⟩ := List.mem_map.mp (hsub c hc)
    exact toLower_toLower d
  exact (List.map_congr_left hlow).trans (List.map_id _)

/-- The columns of a table that was read have names in lower case. -/
theorem parsed_names_lower [Zero F] {env : Env F} {t₀ t : CsvFileh F} {err err' : ParamError}
    {filename text : Str}
    (h : paramParseCsv env ⟨some t₀, err⟩ filename (some text) = some (⟨some t, err'⟩, true)) :
    ∀ i < t.colCount, (t.columnName i).map Char.toLower = t.columnName i := by
  cases hlines : fgetsLines csvLineSize text with
  | nil =>
    rw [paramParseCsv, hlines] at h
    split at h <;> cases h
  | cons header lines =>
    obtain ⟨hext, hloop⟩ := paramParseCsv_true hlines h
    obtain ⟨u, hu, happ⟩ := paramParseCsv_eq err hext hlines hloop
    cases hu.symm.trans h
    intro i hi
    rw [happ.colCount] at hi
    rw [happ.columnName]
    simp only [csvNewHeaders] at hi ⊢
    rw [List.getElem?_eq_getElem hi, Option.getD_some, List.getElem_map]
    exact headerName_lower _

/-! ## The call -/

/-- The first column whose name contains the text. -/
structure FirstWith (t : CsvFileh F) (lowName : Str) (k : ℕ) : Prop where
  lt : k < t.colCount
  has : lowName <:+: t.columnName k
  first : ∀ i < k, ¬ lowName <:+: t.columnName i

theorem findColumn_eq_some {t : CsvFileh F} {lowName : Str} {k : ℕ} :
    findColumn t lowName = some k ↔ FirstWith t lowName k := by
  rw [findColumn, List.find?_range_eq_some, strstr_isSome_iff, List.mem_range]
  constructor
  · rintro ⟨hhas, hlt, hfirst⟩
    refine ⟨hlt, hhas, fun i hi hin => ?_⟩
    have hnot := hfirst i hi
    rw [strstr_isSome_iff.mpr hin] at hnot
    cases hnot
  · rintro ⟨hlt, hhas, hfirst⟩
    refine ⟨hhas, hlt, fun i hi => ?_⟩
    rw [Bool.not_eq_true', Bool.eq_false_iff, ne_eq, strstr_isSome_iff]
    exact hfirst i hi

/-- A column whose name is the text is found, or one before it. -/
theorem exists_firstWith {t : CsvFileh F} {lowName : Str} {j : ℕ} (hj : j < t.colCount)
    (hname : t.columnName j = lowName) : ∃ k, FirstWith t lowName k := by
  cases hfind : findColumn t lowName with
  | some k => exact ⟨k, findColumn_eq_some.mp hfind⟩
  | none =>
    have hnot := List.find?_range_eq_none.mp hfind j hj
    rw [Bool.not_eq_true', Bool.eq_false_iff] at hnot
    exact absurd (strstr_isSome_iff.mpr (hname ▸ List.infix_rfl)) hnot

/-- The array with the cells of a column in front. -/
def withColumn (t : CsvFileh F) (i : ℕ) (data : List F) : List F :=
  (List.range t.itemCount).map (t.columnItem i) ++ data.drop t.itemCount

theorem withColumn_inj {t : CsvFileh F} {i j : ℕ} {data : List F} :
    withColumn t i data = withColumn t j data ↔
      ∀ row < t.itemCount, t.columnItem i row = t.columnItem j row := by
  rw [withColumn, withColumn, List.append_left_inj, List.map_inj_left]
  simp only [List.mem_range]

section Call

variable {t : CsvFileh F} {err : ParamError} {name : Str} {data : List F} {dataLen : ℕ}

/-- **The call gives the column that it finds.** -/
theorem getCsvData_eq (hname : name.length < lowNameSize) (hlen : t.itemCount ≤ dataLen)
    (hdata : dataLen ≤ data.length) {k : ℕ} (hk : FirstWith t (name.map Char.toLower) k) :
    getCsvData ⟨some t, err⟩ name data dataLen =
      if t.itemCount ≤ maxBin then some (withColumn t k data, (t.itemCount : ℤ)) else none := by
  have hroom : t.itemCount ≤ data.length := hlen.trans hdata
  simp only [getCsvData, if_neg (not_le.mpr hname), if_neg (not_lt.mpr hlen),
    findColumn_eq_some.mpr hk, hroom, and_true, withColumn]

theorem getCsvData_none (hname : name.length < lowNameSize) (hlen : t.itemCount ≤ dataLen)
    (hnone : ¬ ∃ k, FirstWith t (name.map Char.toLower) k) :
    getCsvData ⟨some t, err⟩ name data dataLen = some (data, 0) := by
  cases hfind : findColumn t (name.map Char.toLower) with
  | some k => exact absurd ⟨k, findColumn_eq_some.mp hfind⟩ hnone
  | none => simp only [getCsvData, if_neg (not_le.mpr hname), if_neg (not_lt.mpr hlen), hfind]

theorem getCsvData_no_rows (hname : name.length < lowNameSize) (hrows : t.itemCount = 0)
    (hlen : t.itemCount ≤ dataLen) (hdata : dataLen ≤ data.length) :
    getCsvData ⟨some t, err⟩ name data dataLen = some (data, 0) := by
  by_cases hk : ∃ k, FirstWith t (name.map Char.toLower) k
  · obtain ⟨k, hk⟩ := hk
    rw [getCsvData_eq hname hlen hdata hk, if_pos (by rw [hrows]; exact Nat.zero_le _), withColumn,
      hrows]
    rfl
  · exact getCsvData_none hname hlen hk

/-- The lookup of a name: the cells of the column with that name in the order of the rows,
or nothing where there is no such column. -/
structure LooksUp (c : CsvCtx F) (t : CsvFileh F) (name : Str) (data : List F) (dataLen : ℕ) :
    Prop where
  hit : ∀ j < t.colCount, EqIgnoreCase name (t.columnName j) →
    getCsvData c name data dataLen = some (withColumn t j data, (t.itemCount : ℤ))
  miss : (∀ j < t.colCount, ¬ EqIgnoreCase name (t.columnName j)) →
    getCsvData c name data dataLen = some (data, 0)

/-- The table has no rows; or the first column whose name contains the text, if there is
one, holds the cells of the column with that name, and they are all in the array. -/
def FindsName (t : CsvFileh F) (lowName : Str) : Prop :=
  t.itemCount = 0 ∨ ∀ k, FirstWith t lowName k → t.itemCount ≤ maxBin ∧
    ∃ j < t.colCount, t.columnName j = lowName ∧
      ∀ row < t.itemCount, t.columnItem k row = t.columnItem j row

theorem lookup_of_finds (hname : name.length < lowNameSize) (hlen : t.itemCount ≤ dataLen)
    (hdata : dataLen ≤ data.length)
    (hdistinct : ∀ i < t.colCount, ∀ j < t.colCount, t.columnName i = t.columnName j → i = j)
    (hlower : ∀ i < t.colCount, (t.columnName i).map Char.toLower = t.columnName i)
    (h : FindsName t (name.map Char.toLower)) : LooksUp ⟨some t, err⟩ t name data dataLen := by
  constructor
  · intro j hj heq
    have heq : t.columnName j = name.map Char.toLower := (hlower j hj).symm.trans heq.symm
    rcases h with hrows | h
    · rw [getCsvData_no_rows hname hrows hlen hdata, withColumn, hrows]
      rfl
    · obtain ⟨k, hk⟩ := exists_firstWith hj heq
      obtain ⟨hfits, j', hj', hname', hcells⟩ := h k hk
      obtain rfl := hdistinct j' hj' j hj (hname'.trans heq.symm)
      rw [getCsvData_eq hname hlen hdata hk, if_pos hfits, withColumn_inj.mpr hcells]
  · intro hmiss
    rcases h with hrows | h
    · exact getCsvData_no_rows hname hrows hlen hdata
    · refine getCsvData_none hname hlen ?_
      rintro ⟨k, hk⟩
      obtain ⟨-, j, hj, heq, -⟩ := h k hk
      exact hmiss j hj ((hlower j hj).trans heq).symm

theorem finds_of_lookup (hname : name.length < lowNameSize) (hlen : t.itemCount ≤ dataLen)
    (hdata : dataLen ≤ data.length)
    (hlower : ∀ i < t.colCount, (t.columnName i).map Char.toLower = t.columnName i)
    (h : LooksUp ⟨some t, err⟩ t name data dataLen) : FindsName t (name.map Char.toLower) := by
  by_cases hrows : t.itemCount = 0
  · exact Or.inl hrows
  refine Or.inr fun k hk => ?_
  have hcall := @getCsvData_eq F t err name data dataLen hname hlen hdata k hk
  by_cases hhit : ∃ j < t.colCount, EqIgnoreCase name (t.columnName j)
  · obtain ⟨j, hj, heq⟩ := hhit
    have hget := h.hit j hj heq
    rw [hcall] at hget
    split at hget
    · next hfits =>
      rw [Option.some.injEq, Prod.mk.injEq] at hget
      exact ⟨hfits, j, hj, (hlower j hj).symm.trans heq.symm, withColumn_inj.mp hget.1⟩
    · cases hget
  · have hget := h.miss fun j hj heq => hhit ⟨j, hj, heq⟩
    rw [hcall] at hget
    split at hget
    · rw [Option.some.injEq, Prod.mk.injEq] at hget
      omega
    · cases hget

end Call

/-- **A parsed table is looked up by name exactly if** its first column whose name contains
the name that is asked for is the column of that name, or shows the same cells. -/
theorem lookup_iff [Zero F] {env : Env F} {t₀ t : CsvFileh F} {err err' : ParamError}
    {filename text : Str}
    (hparse : paramParseCsv env ⟨some t₀, err⟩ filename (some text) = some (⟨some t, err'⟩, true))
    (hdistinct : ∀ i < t.colCount, ∀ j < t.colCount, t.columnName i = t.columnName j → i = j)
    {name : Str} (hname : name.length < lowNameSize) {data : List F} {dataLen : ℕ}
    (hlen : t.itemCount ≤ dataLen) (hdata : dataLen ≤ data.length) :
    LooksUp ⟨some t, err'⟩ t name data dataLen ↔ FindsName t (name.map Char.toLower) :=
  ⟨finds_of_lookup hname hlen hdata (parsed_names_lower hparse),
    lookup_of_finds hname hlen hdata hdistinct (parsed_names_lower hparse)⟩

/-! ## Two tables -/

/-- A table with one row that was read, by its first line. -/
def oneRow (header : Str) : CsvFileh ℤ :=
  afterLine wholeEnv (csvNewHeaders commaTable header) "1,2\n".toList

theorem oneRow_parsed {header : Str} (h : fgetsLines csvLineSize (header ++ "1,2\n".toList)
      = [header, "1,2\n".toList]) :
    paramParseCsv wholeEnv ⟨some commaTable, .noError⟩ "data.csv".toList
      (some (header ++ "1,2\n".toList)) = some (⟨some (oneRow header), .noError⟩, true) := by
  have htaken : Taken wholeEnv commaTable 0 "1,2\n".toList := by decide
  have hext : (strstr "data.csv".toList ".csv".toList).isNone = false := by decide
  simp only [paramParseCsv, hext, Bool.false_eq_true, if_false, h]
  rw [dataLoop_taken (t := csvNewHeaders commaTable header) htaken]
  rfl

theorem lookup_iff_ab :
    LooksUp ⟨some (oneRow "a,b\n".toList), .noError⟩ (oneRow "a,b\n".toList) "B".toList [0, 0, 7]
      3 :=
  (lookup_iff (@oneRow_parsed "a,b\n".toList (by decide)) (by decide) (by decide) (by decide)
    (by decide)).mpr (Or.inr fun k hk => by
      cases (findColumn_eq_some.mpr hk).symm.trans
        (show findColumn (oneRow "a,b\n".toList) "b".toList = some 1 by decide)
      exact ⟨by decide, 1, by decide, by decide, fun _ _ => rfl⟩)

/-- The name `b` is part of `ab`, which comes first. -/
theorem part_of_name_found :
    ∃ t : CsvFileh ℤ, paramParseCsv wholeEnv ⟨some commaTable, .noError⟩ "data.csv".toList
        (some "ab,b\n1,2\n".toList) = some (⟨some t, .noError⟩, true) ∧
      (List.range t.colCount).map t.columnName = ["ab".toList, "b".toList] ∧
      getCsvData ⟨some t, .noError⟩ "b".toList [0] 1 = some ([1], 1) ∧
      ¬ LooksUp ⟨some t, .noError⟩ t "b".toList [0] 1 := by
  refine ⟨oneRow "ab,b\n".toList, @oneRow_parsed "ab,b\n".toList (by decide), by decide, by decide,
    fun h => ?_⟩
  exact absurd (h.hit 1 (by decide) rfl) (by decide)

end DataCommons.Csv
