import DataCommons.Csv.Model

/-!
# Reading rows

What the loops of `param_parse_csv` do to the table: a line is stored as one row,
token by token from the first column on, and each line takes a row of its own.

* `rowLoop_true_iff`, `rowLoop_eq`: when a line is taken, and the table behind it;
* `rowLoop_full`: a line with a token on a full table;
* `dataLoop_true_iff`: when all lines are taken;
* `dataLoop_appended`: the rows of the table behind them;
* `paramParseCsv_lines`: the whole function on a file with a first line.
-/

namespace DataCommons.Csv

open CString Params

variable {F : Type}

/-! ## Rows of a table -/

/-- The values in one row from column `col` on; other items stay. -/
def CsvFileh.setRow (t : CsvFileh F) (col row : ℕ) (xs : List F) : CsvFileh F :=
  { t with
    columnItem := fun i j =>
      if j = row ∧ col ≤ i then (xs[i - col]?).getD (t.columnItem i j) else t.columnItem i j }

theorem setRow_nil (t : CsvFileh F) (col row : ℕ) : t.setRow col row [] = t := by
  simp [CsvFileh.setRow]

theorem setItem_setRow (t : CsvFileh F) (col row : ℕ) (x : F) (xs : List F) :
    (t.setItem col row x).setRow (col + 1) row xs = t.setRow col row (x :: xs) := by
  have hitems : ∀ i j, ((t.setItem col row x).setRow (col + 1) row xs).columnItem i j
      = (t.setRow col row (x :: xs)).columnItem i j := by
    intro i j
    simp only [CsvFileh.setRow, CsvFileh.setItem]
    by_cases hj : j = row
    · by_cases hi : i = col
      · have hlt : ¬ col + 1 ≤ col := by omega
        simp [hj, hi, hlt]
      · by_cases hle : col ≤ i
        · have hsub : i - col = i - (col + 1) + 1 := by omega
          have hlt : col + 1 ≤ i := by omega
          simp [hj, hi, hle, hlt, hsub]
        · have hlt : ¬ col + 1 ≤ i := by omega
          simp [hj, hi, hle, hlt]
    · simp [hj]
  have heq : ((t.setItem col row x).setRow (col + 1) row xs).columnItem
      = (t.setRow col row (x :: xs)).columnItem := funext fun i => funext fun j => hitems i j
  simp only [CsvFileh.setRow, CsvFileh.setItem, CsvFileh.mk.injEq, true_and, and_true] at heq ⊢
  exact heq

theorem setRow_of_ne {t : CsvFileh F} {col row j : ℕ} (h : j ≠ row) (xs : List F) (i : ℕ) :
    (t.setRow col row xs).columnItem i j = t.columnItem i j := by
  simp [CsvFileh.setRow, h]

theorem setRow_self (t : CsvFileh F) (row : ℕ) (xs : List F) (i : ℕ) :
    (t.setRow 0 row xs).columnItem i row = (xs[i]?).getD (t.columnItem i row) := by
  simp [CsvFileh.setRow]

/-! ## One line -/

section Rows

variable [Zero F] {env : Env F}

/-- What a text is stored as; the empty one as `0.0f`. -/
def textValue (env : Env F) (decSep text : Str) : F :=
  if text.length = 0 then 0 else (env.strtof (rewriteDecimal decSep text)).value

/-- `strtof` takes the whole text. -/
def Converts (env : Env F) (decSep text : Str) : Prop :=
  text.length = 0 ∨ (env.strtof (rewriteDecimal decSep text)).rest = []

omit [Zero F] in
instance (env : Env F) (decSep text : Str) : Decidable (Converts env decSep text) :=
  inferInstanceAs (Decidable (_ ∨ _))

/-- The tokens of a line for which there are columns. -/
def cellTexts (sep line : Str) : List Str := (tokens sep (stripEnd line)).take maxBin

theorem rowLoop_step {cols : ℕ} {token : Str} {toks : List Str} {t : CsvFileh F}
    (hcols : cols < maxBin) (hroom : t.itemCount < maxBin) (hconv : Converts env t.decimalSep token) :
    rowLoop env cols (token :: toks) t
      = rowLoop env (cols + 1) toks
          (t.setItem cols t.itemCount (textValue env t.decimalSep token)) := by
  rw [rowLoop, if_neg (not_le.mpr hcols), if_neg (not_le.mpr hroom), textValue]
  by_cases hempty : token.length = 0
  · rw [if_pos hempty, if_pos hempty]
  · rw [if_neg hempty, if_neg hempty]
    exact if_neg (not_not.mpr (hconv.resolve_left hempty))

theorem rowLoop_full {cols : ℕ} {token : Str} {toks : List Str} {t : CsvFileh F}
    (hcols : cols < maxBin) (hfull : maxBin ≤ t.itemCount) :
    rowLoop env cols (token :: toks) t = (t, false) := by
  rw [rowLoop, if_neg (not_le.mpr hcols), if_pos hfull]

theorem rowLoop_refused {cols : ℕ} {token : Str} {toks : List Str} {t : CsvFileh F}
    (hcols : cols < maxBin) (hroom : t.itemCount < maxBin)
    (hconv : ¬ Converts env t.decimalSep token) : rowLoop env cols (token :: toks) t = (t, false) := by
  rw [Converts, not_or] at hconv
  rw [rowLoop, if_neg (not_le.mpr hcols), if_neg (not_le.mpr hroom), if_neg hconv.1]
  exact if_pos hconv.2

/-- A line does not change the counters, names and separators. -/
theorem rowLoop_frame (env : Env F) (cols : ℕ) (toks : List Str) (t : CsvFileh F) :
    ∃ items, (rowLoop env cols toks t).1 = { t with columnItem := items } := by
  induction toks generalizing cols t with
  | nil => exact ⟨t.columnItem, rfl⟩
  | cons token toks ih =>
    by_cases hcols : cols < maxBin
    · by_cases hroom : t.itemCount < maxBin
      · by_cases hconv : Converts env t.decimalSep token
        · obtain ⟨items, hitems⟩ := ih (cols + 1)
            (t.setItem cols t.itemCount (textValue env t.decimalSep token))
          exact ⟨items, by rw [rowLoop_step hcols hroom hconv, hitems]; rfl⟩
        · exact ⟨t.columnItem, by rw [rowLoop_refused hcols hroom hconv]⟩
      · exact ⟨t.columnItem, by rw [rowLoop_full hcols (not_lt.mp hroom)]⟩
    · exact ⟨t.columnItem, by rw [rowLoop, if_pos (not_lt.mp hcols)]⟩

/-- **The table behind a line**: its tokens as one row. -/
theorem rowLoop_eq {cols : ℕ} {toks : List Str} {t : CsvFileh F}
    (hroom : toks.take (maxBin - cols) = [] ∨ t.itemCount < maxBin)
    (hconv : ∀ token ∈ toks.take (maxBin - cols), Converts env t.decimalSep token) :
    rowLoop env cols toks t
      = (t.setRow cols t.itemCount
          ((toks.take (maxBin - cols)).map (textValue env t.decimalSep)), true) := by
  induction toks generalizing cols t with
  | nil => rw [List.take_nil, List.map_nil, setRow_nil, rowLoop]
  | cons token toks ih =>
    by_cases hcols : cols < maxBin
    · have htake : (token :: toks).take (maxBin - cols)
          = token :: toks.take (maxBin - (cols + 1)) := by
        rw [show maxBin - cols = maxBin - (cols + 1) + 1 by omega, List.take_succ_cons]
      rw [htake] at hroom hconv ⊢
      have hroom := hroom.resolve_left (List.cons_ne_nil _ _)
      have hrest := @ih (cols + 1) (t.setItem cols t.itemCount (textValue env t.decimalSep token))
        (Or.inr hroom) fun u hu => hconv u (List.mem_cons_of_mem token hu)
      rw [rowLoop_step hcols hroom (hconv token List.mem_cons_self), hrest, List.map_cons,
        ← setItem_setRow]
      rfl
    · have hzero : maxBin - cols = 0 := by omega
      rw [hzero, List.take_zero, List.map_nil, setRow_nil, rowLoop, if_pos (not_lt.mp hcols)]

/-- **A line is taken exactly if** there is room for a row with tokens and each of
them converts. -/
theorem rowLoop_true_iff {cols : ℕ} {toks : List Str} {t : CsvFileh F} :
    (rowLoop env cols toks t).2 = true ↔
      (toks.take (maxBin - cols) = [] ∨ t.itemCount < maxBin) ∧
        ∀ token ∈ toks.take (maxBin - cols), Converts env t.decimalSep token := by
  constructor
  · intro h
    induction toks generalizing cols t with
    | nil => simp
    | cons token toks ih =>
      by_cases hcols : cols < maxBin
      · rw [show maxBin - cols = maxBin - (cols + 1) + 1 by omega, List.take_succ_cons]
        by_cases hroom : t.itemCount < maxBin
        · by_cases hconv : Converts env t.decimalSep token
          · rw [rowLoop_step hcols hroom hconv] at h
            exact ⟨Or.inr hroom, List.forall_mem_cons.mpr ⟨hconv, (ih h).2⟩⟩
          · rw [rowLoop_refused hcols hroom hconv] at h
            cases h
        · rw [rowLoop_full hcols (not_lt.mp hroom)] at h
          cases h
      · have hzero : maxBin - cols = 0 := by omega
        simp [hzero]
  · rintro ⟨hroom, hconv⟩
    rw [rowLoop_eq hroom hconv]

/-! ## All lines -/

/-- A line that is taken where `item_count` is `n`. -/
def Taken (env : Env F) (t : CsvFileh F) (n : ℕ) (line : Str) : Prop :=
  (cellTexts t.columnSep line = [] ∨ n < maxBin) ∧
    ∀ text ∈ cellTexts t.columnSep line, Converts env t.decimalSep text

omit [Zero F] in
instance (env : Env F) (t : CsvFileh F) (n : ℕ) (line : Str) : Decidable (Taken env t n line) :=
  inferInstanceAs (Decidable (_ ∧ _))

theorem rowLoop_taken_iff {t : CsvFileh F} {line : Str} :
    (rowLoop env 0 (tokens t.columnSep (stripEnd line)) t).2 = true ↔
      Taken env t t.itemCount line := rowLoop_true_iff

theorem rowLoop_taken {t : CsvFileh F} {line : Str} (h : Taken env t t.itemCount line) :
    rowLoop env 0 (tokens t.columnSep (stripEnd line)) t
      = (t.setRow 0 t.itemCount ((cellTexts t.columnSep line).map (textValue env t.decimalSep)),
          true) := rowLoop_eq h.1 h.2

/-- The table behind one line that is taken. -/
def afterLine (env : Env F) (t : CsvFileh F) (line : Str) : CsvFileh F :=
  { t.setRow 0 t.itemCount ((cellTexts t.columnSep line).map (textValue env t.decimalSep)) with
    itemCount := t.itemCount + 1 }

theorem dataLoop_taken {t : CsvFileh F} {line : Str} (h : Taken env t t.itemCount line)
    (lines : List Str) : dataLoop env (line :: lines) t = dataLoop env lines (afterLine env t line) := by
  rw [dataLoop, rowLoop_taken h]
  rfl

theorem dataLoop_refused {t : CsvFileh F} {line : Str} (h : ¬ Taken env t t.itemCount line)
    (lines : List Str) :
    dataLoop env (line :: lines) t
      = ((rowLoop env 0 (tokens t.columnSep (stripEnd line)) t).1, false) := by
  have hfalse : (rowLoop env 0 (tokens t.columnSep (stripEnd line)) t).2 = false :=
    Bool.eq_false_iff.mpr fun e => h (rowLoop_taken_iff.mp e)
  rw [dataLoop]
  generalize rowLoop env 0 (tokens t.columnSep (stripEnd line)) t = res at hfalse
  obtain ⟨t', ret⟩ := res
  rw [show ret = false from hfalse]

/-- **All lines are taken exactly if** each is where it comes. -/
theorem dataLoop_true_iff {lines : List Str} {t : CsvFileh F} :
    (dataLoop env lines t).2 = true ↔
      ∀ k line, lines[k]? = some line → Taken env t (t.itemCount + k) line := by
  induction lines generalizing t with
  | nil => simp [dataLoop]
  | cons line lines ih =>
    by_cases h : Taken env t t.itemCount line
    · rw [dataLoop_taken h, ih]
      constructor
      · intro hrest k l hk
        cases k with
        | zero =>
          rw [List.getElem?_cons_zero, Option.some.injEq] at hk
          exact hk ▸ h
        | succ k =>
          have hl := hrest k l hk
          rw [show (afterLine env t line).itemCount = t.itemCount + 1 from rfl,
            Nat.add_assoc, Nat.add_comm 1 k] at hl
          exact hl
      · intro hall k l hk
        have hl := hall (k + 1) l hk
        rw [← Nat.add_assoc, Nat.add_right_comm] at hl
        exact hl
    · rw [dataLoop_refused h]
      exact iff_of_false Bool.false_ne_true fun hall => h (hall 0 line rfl)

/-- The table with the rows of `lines` behind its own. -/
structure Appended (env : Env F) (lines : List Str) (t t' : CsvFileh F) : Prop where
  itemCount : t'.itemCount = t.itemCount + lines.length
  colCount : t'.colCount = t.colCount
  columnName : t'.columnName = t.columnName
  columnSep : t'.columnSep = t.columnSep
  decimalSep : t'.decimalSep = t.decimalSep
  before : ∀ i j, j < t.itemCount → t'.columnItem i j = t.columnItem i j
  row : ∀ k line, lines[k]? = some line → ∀ i,
    t'.columnItem i (t.itemCount + k)
      = (((cellTexts t.columnSep line).map (textValue env t.decimalSep))[i]?).getD
          (t.columnItem i (t.itemCount + k))

theorem Appended.nil (env : Env F) (t : CsvFileh F) : Appended env [] t t :=
  ⟨rfl, rfl, rfl, rfl, rfl, fun _ _ _ => rfl, by simp⟩

theorem Appended.cons {line : Str} {lines : List Str} {t t' : CsvFileh F}
    (h : Appended env lines (afterLine env t line) t') : Appended env (line :: lines) t t' := by
  have hcount : (afterLine env t line).itemCount = t.itemCount + 1 := rfl
  refine ⟨?_, h.colCount, h.columnName, h.columnSep, h.decimalSep, fun i j hj => ?_, ?_⟩
  · rw [h.itemCount, hcount, List.length_cons]
    omega
  · rw [h.before i j (by omega)]
    exact setRow_of_ne (by omega) _ i
  · intro k l hk i
    cases k with
    | zero =>
      rw [List.getElem?_cons_zero, Option.some.injEq] at hk
      subst hk
      rw [h.before i (t.itemCount + 0) (by omega)]
      exact setRow_self t t.itemCount _ i
    | succ k =>
      have hrow := h.row k l hk i
      rw [hcount, show t.itemCount + 1 + k = t.itemCount + (k + 1) by omega] at hrow
      rw [hrow]
      congr 1
      exact setRow_of_ne (by omega) _ i

/-- **The table behind all lines**, a row for each. -/
theorem dataLoop_appended {lines : List Str} {t t' : CsvFileh F}
    (h : dataLoop env lines t = (t', true)) : Appended env lines t t' := by
  induction lines generalizing t with
  | nil =>
    cases h
    exact Appended.nil env _
  | cons line lines ih =>
    by_cases htaken : Taken env t t.itemCount line
    · rw [dataLoop_taken htaken] at h
      exact (ih h).cons
    · rw [dataLoop_refused htaken] at h
      cases h

/-! ## The file -/

/-- **What is made of a file** with a first line: the table behind the loop over the
lines, and what the loop says. -/
theorem paramParseCsv_result {t : CsvFileh F} {err : ParamError} {filename file header : Str}
    {lines : List Str} (hext : (strstr filename ".csv".toList).isSome)
    (hlines : fgetsLines csvLineSize file = header :: lines) :
    paramParseCsv env ⟨some t, err⟩ filename (some file)
      = some (⟨some (dataLoop env lines (csvNewHeaders t header)).1,
          if (dataLoop env lines (csvNewHeaders t header)).2 then .noError else .invalidNumber⟩,
          (dataLoop env lines (csvNewHeaders t header)).2) := by
  simp only [paramParseCsv, Option.isNone_eq_false_iff.mpr hext, Bool.false_eq_true, if_false,
    hlines]
  generalize dataLoop env lines (csvNewHeaders t header) = res
  obtain ⟨t', ret⟩ := res
  cases ret with
  | true => rfl
  | false => rfl

theorem paramParseCsv_lines {t : CsvFileh F} {err : ParamError} {filename file header : Str}
    {lines : List Str} (hext : (strstr filename ".csv".toList).isSome)
    (hlines : fgetsLines csvLineSize file = header :: lines) :
    ∃ err', paramParseCsv env ⟨some t, err⟩ filename (some file)
      = some (⟨some (dataLoop env lines (csvNewHeaders t header)).1, err'⟩,
          (dataLoop env lines (csvNewHeaders t header)).2) ∧
      ((dataLoop env lines (csvNewHeaders t header)).2 = true → err' = .noError) :=
  ⟨_, paramParseCsv_result hext hlines, fun h => if_pos h⟩

end Rows

end DataCommons.Csv
