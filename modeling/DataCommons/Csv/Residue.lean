import DataCommons.Csv.Limits

/-!
# What `InitCSV` leaves to be seen

`InitCSV` resets the counters only.  Two runs that begin with different contents of the
table object take the same lines and read the same names; a cell shows what it held
before wherever a line has fewer tokens than the first one.

* `SameView`: what a caller can see of two tables;
* `view_of_full_rows`, `residue_seen`: the two directions;
* `no_residue_iff`: when nothing earlier is seen, for every file.
-/

namespace DataCommons.Csv

open CString Params

variable {F : Type}

/-- The counters, the names of the columns and the cells of their rows. -/
structure SameView (t u : CsvFileh F) : Prop where
  colCount : u.colCount = t.colCount
  itemCount : u.itemCount = t.itemCount
  names : ∀ i < t.colCount, u.columnName i = t.columnName i
  cells : ∀ i < t.colCount, ∀ j < t.itemCount, j < maxBin → u.columnItem i j = t.columnItem i j

theorem SameView.refl (t : CsvFileh F) : SameView t t :=
  ⟨rfl, rfl, fun _ _ => rfl, fun _ _ _ _ _ => rfl⟩

/-- The number of columns that the first line gives. -/
def headerCount (sep header : Str) : ℕ := ((tokens sep header).take maxBin).length

/-- `InitCSV` of the object `fileh`, then `ParamParse` of a `.csv` file. -/
def initParse [Zero F] (env : Env F) (c : CsvCtx F) (decSep colSep filename : Str)
    (file : Option Str) (fileh : CsvFileh F) : Option (CsvCtx F × Bool) :=
  paramParseCsv env (initCsv decSep colSep fileh c).1 filename file

/-- From any two contents of the object the calls return the same, and on `true` they
leave the same to be seen. -/
def NoResidue [Zero F] (env : Env F) (c : CsvCtx F) (decSep colSep filename : Str)
    (file : Option Str) : Prop :=
  ∀ fileh fileh' : CsvFileh F, ∃ ct cu ret,
    initParse env c decSep colSep filename file fileh = some (ct, ret) ∧
      initParse env c decSep colSep filename file fileh' = some (cu, ret) ∧
      (ret = true → ∃ t u, ct.csvFileh = some t ∧ cu.csvFileh = some u ∧ SameView t u)

/-- Every line can be taken from an empty table on: its texts convert, and it is blank or
one of the first `MAX_BIN`. -/
def AllTaken (env : Env F) (decSep colSep : Str) (lines : List Str) : Prop :=
  ∀ k line, lines[k]? = some line →
    (cellTexts colSep line = [] ∨ k < maxBin) ∧
      ∀ text ∈ cellTexts colSep line, Converts env decSep text

/-- Where all lines are taken, each of the first `MAX_BIN` has a text for every column. -/
def FullRows (env : Env F) (decSep colSep header : Str) (lines : List Str) : Prop :=
  AllTaken env decSep colSep lines → ∀ k line, k < maxBin → lines[k]? = some line →
    headerCount colSep header ≤ (cellTexts colSep line).length

/-! ## Two runs over one file -/

section Runs

variable [Zero F] {env : Env F} {decSep colSep header : Str} {lines : List Str}

/-- The object behind `InitCSV` and the first line. -/
def opened (decSep colSep header : Str) (fileh : CsvFileh F) : CsvFileh F :=
  csvNewHeaders { fileh with
    itemCount := 0, colCount := 0, decimalSep := decSep, columnSep := colSep } header

omit [Zero F] in
theorem opened_colCount (fileh : CsvFileh F) :
    (opened decSep colSep header fileh).colCount = headerCount colSep header := by
  simp [opened, csvNewHeaders, headerCount]

omit [Zero F] in
theorem opened_columnName (fileh fileh' : CsvFileh F) {i : ℕ} (hi : i < headerCount colSep header) :
    (opened decSep colSep header fileh').columnName i
      = (opened decSep colSep header fileh).columnName i := by
  have hlen : i < (((tokens colSep header).take maxBin).map headerName).length := by
    rw [List.length_map]
    exact hi
  simp only [opened, csvNewHeaders, List.getElem?_eq_getElem hlen, Option.getD_some]

/-- Which lines are taken does not depend on what the object held. -/
theorem opened_taken_iff (fileh : CsvFileh F) :
    (dataLoop env lines (opened decSep colSep header fileh)).2 = true ↔
      AllTaken env decSep colSep lines := by
  rw [dataLoop_true_iff]
  have hzero : (opened decSep colSep header fileh).itemCount = 0 := rfl
  simp only [hzero, Nat.zero_add]
  exact Iff.rfl

/-- **Full rows leave nothing of the object.** -/
theorem view_of_full_rows {fileh fileh' t u : CsvFileh F}
    (ht : Appended env lines (opened decSep colSep header fileh) t)
    (hu : Appended env lines (opened decSep colSep header fileh') u)
    (hfull : ∀ k line, k < maxBin → lines[k]? = some line →
      headerCount colSep header ≤ (cellTexts colSep line).length) : SameView t u := by
  have hcols : t.colCount = headerCount colSep header := ht.colCount.trans (opened_colCount fileh)
  have hitems : t.itemCount = lines.length := by
    rw [ht.itemCount]
    exact Nat.zero_add _
  refine ⟨?_, ?_, fun i hi => ?_, fun i hi j hj hjb => ?_⟩
  · rw [hu.colCount, opened_colCount, hcols]
  · rw [hu.itemCount, ht.itemCount]
    rfl
  · rw [hu.columnName, ht.columnName]
    exact opened_columnName fileh fileh' (hcols ▸ hi)
  · rw [hitems] at hj
    have hget : lines[j]? = some lines[j] := List.getElem?_eq_getElem hj
    have hrow : ∀ v : CsvFileh F, ∀ w, Appended env lines (opened decSep colSep header w) v →
        v.columnItem i j = (((cellTexts colSep lines[j]).map (textValue env decSep))[i]?).getD
          (w.columnItem i j) := by
      intro v w hv
      have h := hv.row j _ hget i
      rwa [show (opened decSep colSep header w).itemCount + j = j from Nat.zero_add j] at h
    have hlen : i < ((cellTexts colSep lines[j]).map (textValue env decSep)).length := by
      rw [List.length_map]
      exact lt_of_lt_of_le (hcols ▸ hi) (hfull j _ hjb hget)
    rw [hrow t fileh ht, hrow u fileh' hu, List.getElem?_eq_getElem hlen, Option.getD_some,
      Option.getD_some]

/-- **A short row shows the object**: the first column without a text keeps its cell. -/
theorem residue_seen {fileh t : CsvFileh F}
    (ht : Appended env lines (opened decSep colSep header fileh) t) {k : ℕ} {line : Str}
    (hk : lines[k]? = some line) :
    t.columnItem (cellTexts colSep line).length k
      = fileh.columnItem (cellTexts colSep line).length k := by
  have h := ht.row k line hk (cellTexts colSep line).length
  rw [show (opened decSep colSep header fileh).itemCount + k = k from Nat.zero_add k] at h
  rw [h]
  have hnone : ((cellTexts colSep line).map (textValue env decSep))[(cellTexts colSep line).length]?
      = none := by
    rw [List.getElem?_eq_none]
    rw [List.length_map]
  exact congrArg (fun x => Option.getD x _) hnone

/-- The two calls on a file with a first line. -/
theorem initParse_lines (c : CsvCtx F) {filename text : Str} (hsep : decSep.head? ≠ colSep.head?)
    (hext : (strstr filename ".csv".toList).isSome)
    (hlines : fgetsLines csvLineSize text = header :: lines) (fileh : CsvFileh F) :
    ∃ t err, initParse env c decSep colSep filename (some text) fileh
        = some (⟨some t, err⟩, (dataLoop env lines (opened decSep colSep header fileh)).2) ∧
      ((dataLoop env lines (opened decSep colSep header fileh)).2 = true →
        Appended env lines (opened decSep colSep header fileh) t) := by
  rw [initParse, initCsv, if_neg hsep]
  obtain ⟨err, hparse, -⟩ := @paramParseCsv_lines F _ env _ c.paramError _ _ _ _ hext hlines
  refine ⟨_, err, hparse, fun htrue => dataLoop_appended ?_⟩
  rw [← htrue]
  rfl

theorem no_residue_lines [Nontrivial F] (c : CsvCtx F) {filename text : Str}
    (hsep : decSep.head? ≠ colSep.head?) (hext : (strstr filename ".csv".toList).isSome)
    (hlines : fgetsLines csvLineSize text = header :: lines) :
    NoResidue env c decSep colSep filename (some text) ↔
      FullRows env decSep colSep header lines := by
  have hrun := @initParse_lines F _ env decSep colSep header lines c filename text hsep hext hlines
  constructor
  · intro h htaken k line hkb hk
    by_contra hshort
    obtain ⟨x, y, hxy⟩ := exists_pair_ne F
    -- an object that holds `x` everywhere, and one that holds `y`
    obtain ⟨ct, cu, ret, hct, hcu, hview⟩ := h ⟨fun _ => [], fun _ _ => x, 0, 0, [], []⟩
      ⟨fun _ => [], fun _ _ => y, 0, 0, [], []⟩
    obtain ⟨t, err, ht, happ⟩ := hrun ⟨fun _ => [], fun _ _ => x, 0, 0, [], []⟩
    obtain ⟨u, err', hu, happ'⟩ := hrun ⟨fun _ => [], fun _ _ => y, 0, 0, [], []⟩
    rw [(opened_taken_iff _).mpr htaken] at ht hu
    cases ht.symm.trans hct
    cases hu.symm.trans hcu
    obtain ⟨t', u', ht', hu', hsame⟩ := hview rfl
    cases ht'
    cases hu'
    have happ := happ ((opened_taken_iff _).mpr htaken)
    have happ' := happ' ((opened_taken_iff _).mpr htaken)
    have hcol : (cellTexts colSep line).length < t.colCount := by
      rw [happ.colCount, opened_colCount]
      exact not_le.mp hshort
    have hrow : k < t.itemCount := by
      rw [happ.itemCount]
      exact lt_of_lt_of_eq (List.getElem?_eq_some_iff.mp hk).1 (Nat.zero_add _).symm
    have hcell := hsame.cells _ hcol k hrow hkb
    rw [residue_seen happ hk, residue_seen happ' hk] at hcell
    exact hxy hcell.symm
  · intro h fileh fileh'
    obtain ⟨t, err, ht, happ⟩ := hrun fileh
    obtain ⟨u, err', hu, happ'⟩ := hrun fileh'
    have hret : (dataLoop env lines (opened decSep colSep header fileh')).2
        = (dataLoop env lines (opened decSep colSep header fileh)).2 :=
      Bool.eq_iff_iff.mpr ((opened_taken_iff fileh').trans (opened_taken_iff fileh).symm)
    refine ⟨_, _, _, ht, hret ▸ hu, fun htrue => ⟨t, u, rfl, rfl, ?_⟩⟩
    exact view_of_full_rows (happ htrue) (happ' (hret.trans htrue))
      (h ((opened_taken_iff fileh).mp htrue))

end Runs

theorem no_residue_of_unread [Zero F] {env : Env F} {c : CsvCtx F}
    {decSep colSep filename : Str} {file : Option Str}
    (h : ∀ c : CsvCtx F, paramParseCsv env c filename file = some (c, false)) :
    NoResidue env c decSep colSep filename file :=
  fun _ _ => ⟨_, _, false, h _, h _, nofun⟩

/-- **Nothing of the earlier contents is seen exactly if** the file has a first line and
every row of the array that is read has a text for every column, or the file is not read
at all. -/
theorem no_residue_iff [Zero F] [Nontrivial F] (env : Env F) (c : CsvCtx F)
    {decSep colSep : Str} (hsep : decSep.head? ≠ colSep.head?) (filename : Str)
    (file : Option Str) :
    NoResidue env c decSep colSep filename file ↔
      ((strstr filename ".csv".toList).isSome → ∀ text, file = some text →
        ∃ header lines, fgetsLines csvLineSize text = header :: lines ∧
          FullRows env decSep colSep header lines) := by
  by_cases hext : (strstr filename ".csv".toList).isSome
  · cases file with
    | none =>
      refine iff_of_true (no_residue_of_unread fun c => paramParseCsv_missing env c filename) ?_
      exact fun _ text htext => by cases htext
    | some text =>
      cases hlines : fgetsLines csvLineSize text with
      | nil =>
        refine iff_of_false (fun h => ?_) fun h => ?_
        · obtain ⟨ct, cu, ret, hct, -⟩ := h ⟨fun _ => [], fun _ _ => 0, 0, 0, [], []⟩
            ⟨fun _ => [], fun _ _ => 0, 0, 0, [], []⟩
          rw [initParse, paramParseCsv_undefined hext (Or.inr hlines)] at hct
          cases hct
        · obtain ⟨header, lines, hread, -⟩ := h hext text rfl
          cases hlines.symm.trans hread
      | cons header lines =>
        rw [no_residue_lines c hsep hext hlines]
        constructor
        · intro h _ text' htext
          cases htext
          exact ⟨header, lines, hlines, h⟩
        · intro h
          obtain ⟨header', lines', hread, hfull⟩ := h hext text rfl
          cases hlines.symm.trans hread
          exact hfull
  · refine iff_of_true (no_residue_of_unread fun c => paramParseCsv_of_not_csv hext) ?_
    exact fun h => absurd h hext

/-- Two full rows. -/
theorem no_residue_iff_two :
    NoResidue wholeEnv startCtx ".".toList ",".toList "data.csv".toList
      (some "a,b\n1,2\n3,4\n".toList) := by
  refine (no_residue_iff wholeEnv startCtx (by decide) _ _).mpr fun _ text htext => ?_
  cases htext
  refine ⟨"a,b\n".toList, ["1,2\n".toList, "3,4\n".toList], by decide, fun _ k line _ hk => ?_⟩
  have hfull : ∀ line ∈ ["1,2\n".toList, "3,4\n".toList],
      headerCount ",".toList "a,b\n".toList ≤ (cellTexts ",".toList line).length := by decide
  exact hfull line (List.mem_of_getElem? hk)

/-- The second row has one field: the other cell is what the object held. -/
theorem short_row_shows :
    ¬ NoResidue wholeEnv startCtx ".".toList ",".toList "data.csv".toList
      (some "a,b\n1,2\n3\n".toList) := by
  intro h
  obtain ⟨ct, cu, ret, hct, hcu, hview⟩ :=
    h commaTable { commaTable with columnItem := fun _ _ => 7 }
  cases hct
  cases hcu
  obtain ⟨t, u, ht, hu, hsame⟩ := hview rfl
  cases ht
  cases hu
  exact absurd (hsame.cells 1 (by decide) 1 (by decide) (by decide)) (by decide)

end DataCommons.Csv
