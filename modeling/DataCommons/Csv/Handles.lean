import DataCommons.Csv.Fields
import DataCommons.Lib.Ledger

/-!
# File handles

`ParamParse` and `ParamSave` with the calls of `fopen` and `fclose` that they make, in
order; what `fopen` gives is part of the call.  A ledger of the handles says which of
them are left open.

* `parseTxtFiles_result`, `parseCsvFiles_result`, `saveTxtFiles_result`,
  `saveCsvFiles_result`: the results are those of the functions that the other files are
  about;
* `parseTxt_closed_iff`, `parseCsv_closed_iff`, `saveTxt_closed_iff`, `saveCsv_closed_iff`:
  one function each;
* `files_closed_iff`: every call.
-/

namespace DataCommons.Csv

open CString Params

variable {F H α : Type}

/-- `file_type_e`, and any other value of its type. -/
inductive FileType where
  | txt | csv | other
  deriving DecidableEq, Repr

/-- `param_ctx_t`. -/
structure ParserCtx (F : Type) where
  params : List (Param F)
  csvFileh : Option (CsvFileh F)
  paramError : ParamError

/-- What `fopen` gives, and what `fclose` is given; `none` is the null pointer. -/
inductive FileCall (H : Type) where
  | fopen (fileh : Option H)
  | fclose (fileh : Option H)
  deriving DecidableEq, Repr

/-- The calls of a function in order, and what it leaves and returns if it does. -/
structure Traced (H α : Type) where
  calls : List (FileCall H)
  result : Option α

def Traced.map {β : Type} (f : α → β) (t : Traced H α) : Traced H β := ⟨t.calls, t.result.map f⟩

/-! ## The functions with their calls -/

/-- `param_parse_txt`; a file that opens is a handle and a text. -/
def parseTxtFiles (env : Env F) (c : ParamCtx F) (filename : Str) (file : Option (H × Str)) :
    Traced H (ParamCtx F × Bool) :=
  if (strstr filename ".txt".toList).isNone then ⟨[], some (c, false)⟩
  else
    match file with
    | none => ⟨[.fopen none], some (c, false)⟩
    | some (fileh, file) =>
      match lineLoop env c.params (fileLines file) with
      | (_, _, .undefined) => ⟨[.fopen (some fileh)], none⟩
      | (ps, _, .reject err) => ⟨[.fopen (some fileh)], some (⟨ps, err⟩, false)⟩
      | (ps, found, .done) =>
        if !found then ⟨[.fopen (some fileh)], some (⟨ps, .unknown⟩, false)⟩
        else if ps.any fun p => p.isMandatory && !p.hasChanged then
          ⟨[.fopen (some fileh)], some (⟨ps, .noValue⟩, false)⟩
        else ⟨[.fopen (some fileh)], some (⟨ps, c.paramError⟩, true)⟩

/-- `param_parse_csv`. -/
def parseCsvFiles [Zero F] (env : Env F) (c : CsvCtx F) (filename : Str)
    (file : Option (H × Str)) : Traced H (CsvCtx F × Bool) :=
  if (strstr filename ".csv".toList).isNone then ⟨[], some (c, false)⟩
  else
    match file with
    | none => ⟨[.fopen none], some (c, false)⟩
    | some (fileh, file) =>
      match c.csvFileh, fgetsLines csvLineSize file with
      | some t, header :: lines =>
        match dataLoop env lines (csvNewHeaders t header) with
        | (t, true) => ⟨[.fopen (some fileh)], some (⟨some t, .noError⟩, true)⟩
        | (t, false) => ⟨[.fopen (some fileh)], some (⟨some t, .invalidNumber⟩, false)⟩
      | _, _ => ⟨[.fopen (some fileh)], none⟩

/-- The loop of `param_save_txt`; the file is closed in front of each `return false` of the
`switch` and behind the loop. -/
def saveLoopFiles (env : Env F) (fouth : H) : List (Param F) → List (FileCall H) × Str × Bool
  | [] => ([.fclose (some fouth)], [], true)
  | p :: ps =>
    if refusesSave p then ([.fclose (some fouth)], p.name ++ "=[".toList, false)
    else
      let (calls, file, ok) := saveLoopFiles env fouth ps
      (calls, saveLine env p ++ file, ok)

/-- `param_save_txt`: the file and what is returned.  A null pointer is closed where the
file does not open. -/
def saveTxtFiles (env : Env F) (c : ParamCtx F) (fouth : Option H) :
    Traced H (Option Str × Bool) :=
  if c.params.isEmpty then ⟨[], some (none, false)⟩
  else
    match fouth with
    | none => ⟨[.fopen none, .fclose none], none⟩
    | some fouth =>
      let (calls, file, ok) := saveLoopFiles env fouth c.params
      ⟨.fopen (some fouth) :: calls, some (some file, ok)⟩

/-- `param_save_csv`. -/
def saveCsvFiles (env : Env F) (c : CsvCtx F) (fouth : Option H) :
    Traced H (Option Str × Bool) :=
  match c.csvFileh with
  | none => ⟨[], none⟩
  | some t =>
    if t.colCount = 0 ∨ t.itemCount = 0 then ⟨[], some (none, false)⟩
    else
      match fouth with
      | none => ⟨[.fopen none], some (none, false)⟩
      | some fouth =>
        if t.colCount ≤ maxBin ∧ t.itemCount ≤ maxBin then
          ⟨[.fopen (some fouth), .fclose (some fouth)], some (some (csvText env t), true)⟩
        else ⟨[.fopen (some fouth)], none⟩

def paramParse [Zero F] (env : Env F) (c : ParserCtx F) (filename : Str) (type : FileType)
    (file : Option (H × Str)) : Traced H (ParserCtx F × Bool) :=
  match type with
  | .txt => (parseTxtFiles env ⟨c.params, c.paramError⟩ filename file).map fun res =>
      (⟨res.1.params, c.csvFileh, res.1.paramError⟩, res.2)
  | .csv => (parseCsvFiles env ⟨c.csvFileh, c.paramError⟩ filename file).map fun res =>
      (⟨c.params, res.1.csvFileh, res.1.paramError⟩, res.2)
  | .other => ⟨[], some (c, false)⟩

def paramSave (env : Env F) (c : ParserCtx F) (type : FileType) (fouth : Option H) :
    Traced H (Option Str × Bool) :=
  match type with
  | .txt => saveTxtFiles env ⟨c.params, c.paramError⟩ fouth
  | .csv => saveCsvFiles env ⟨c.csvFileh, c.paramError⟩ fouth
  | .other => ⟨[], some (none, false)⟩

/-! ## The results -/

theorem parseTxtFiles_result (env : Env F) (c : ParamCtx F) (filename : Str)
    (file : Option (H × Str)) :
    (parseTxtFiles env c filename file).result
      = paramParseTxt env c filename (file.map Prod.snd) := by
  rcases file with _ | ⟨fileh, file⟩
  · rw [parseTxtFiles, Option.map_none, paramParseTxt]
    split_ifs <;> rfl
  · rw [parseTxtFiles, Option.map_some, paramParseTxt]
    rcases lineLoop env c.params (fileLines file) with ⟨ps, found, _ | err | _⟩
    · dsimp only
      split_ifs <;> rfl
    · dsimp only
      split_ifs <;> rfl
    · dsimp only
      split_ifs <;> rfl

theorem parseCsvFiles_result [Zero F] (env : Env F) (c : CsvCtx F) (filename : Str)
    (file : Option (H × Str)) :
    (parseCsvFiles env c filename file).result
      = paramParseCsv env c filename (file.map Prod.snd) := by
  rcases file with _ | ⟨fileh, file⟩
  · rw [parseCsvFiles, Option.map_none, paramParseCsv]
    split_ifs <;> rfl
  · rw [parseCsvFiles, Option.map_some, paramParseCsv]
    by_cases hext : (strstr filename ".csv".toList).isNone
    · rw [if_pos hext, if_pos hext]
    · rw [if_neg hext, if_neg hext]
      rcases c with ⟨_ | t, err⟩
      · rfl
      · rcases fgetsLines csvLineSize file with _ | ⟨header, lines⟩
        · rfl
        · dsimp only
          rcases dataLoop env lines (csvNewHeaders t header) with ⟨t', _ | _⟩
          · rfl
          · rfl

theorem saveLoopFiles_eq (env : Env F) (fouth : H) (ps : List (Param F)) :
    saveLoopFiles env fouth ps = ([.fclose (some fouth)], saveLoop env ps) := by
  induction ps with
  | nil => rfl
  | cons p ps ih =>
    rw [saveLoopFiles, saveLoop]
    split
    · rfl
    · rw [ih]

theorem saveTxtFiles_result (env : Env F) (c : ParamCtx F) (fouth : Option H) :
    (saveTxtFiles env c fouth).result = paramSaveTxt env c fouth.isSome := by
  rw [paramSaveTxt]
  cases fouth with
  | none =>
    rw [saveTxtFiles, Option.isSome_none, Bool.not_false, if_pos rfl]
    split_ifs <;> rfl
  | some fouth =>
    rw [saveTxtFiles, Option.isSome_some, Bool.not_true, if_neg Bool.false_ne_true]
    simp only [saveLoopFiles_eq]
    split_ifs <;> rfl

theorem saveCsvFiles_result (env : Env F) (c : CsvCtx F) (fouth : Option H) :
    (saveCsvFiles env c fouth).result = paramSaveCsv env c fouth.isSome := by
  rcases c with ⟨_ | t, err⟩
  · rfl
  · rw [paramSaveCsv]
    cases fouth with
    | none =>
      rw [saveCsvFiles, Option.isSome_none, Bool.not_false]
      dsimp only
      rw [if_pos rfl]
      split_ifs <;> rfl
    | some fouth =>
      rw [saveCsvFiles, Option.isSome_some, Bool.not_true]
      dsimp only
      rw [if_neg Bool.false_ne_true]
      split_ifs <;> rfl

/-! ## What stays open -/

variable [DecidableEq H]

/-- The entry of a call in the ledger of the handles. -/
def FileCall.entry : FileCall H → Option (Ledger.Op H)
  | .fopen fileh => fileh.map .acquire
  | .fclose fileh => fileh.map .release

/-- The function returns, every file that it opened is closed once, and no null pointer
is. -/
structure Traced.Closes (t : Traced H α) : Prop where
  returns : t.result.isSome
  settled : (Ledger.empty.postAll (t.calls.filterMap FileCall.entry)).Settled
  nonnull : .fclose none ∉ t.calls

theorem closes_nil {res : Option α} (h : res.isSome) :
    Traced.Closes (⟨[], res⟩ : Traced H α) :=
  ⟨h, ⟨rfl, rfl⟩, List.not_mem_nil⟩

theorem closes_failed {res : Option α} (h : res.isSome) :
    Traced.Closes (⟨[.fopen none], res⟩ : Traced H α) :=
  ⟨h, ⟨rfl, rfl⟩, by simp⟩

theorem closes_closed {res : Option α} (h : res.isSome) (fileh : H) :
    Traced.Closes ⟨[.fopen (some fileh), .fclose (some fileh)], res⟩ := by
  refine ⟨h, ?_, by simp⟩
  have hrelease : (Ledger.mk [fileh] []).post (.release fileh) = ⟨[], []⟩ := Ledger.release_head rfl
  exact ⟨congrArg Ledger.held hrelease, congrArg Ledger.stray hrelease⟩

theorem not_closes_open (res : Option α) (fileh : H) :
    ¬ Traced.Closes ⟨[.fopen (some fileh)], res⟩ :=
  fun h => absurd h.settled.1 (List.cons_ne_nil fileh [])

theorem parseTxt_closed_iff (env : Env F) (c : ParamCtx F) (filename : Str)
    (file : Option (H × Str)) :
    (parseTxtFiles env c filename file).Closes ↔
      ((strstr filename ".txt".toList).isSome → file = none) := by
  unfold parseTxtFiles
  cases strstr filename ".txt".toList with
  | none => exact iff_of_true (closes_nil rfl) fun hext => absurd hext Bool.false_ne_true
  | some ext =>
    rw [Option.isNone_some, if_neg Bool.false_ne_true]
    rcases file with _ | ⟨fileh, file⟩
    · exact iff_of_true (closes_failed rfl) fun _ => rfl
    · refine iff_of_false ?_ fun h => by cases h rfl
      dsimp only
      rcases lineLoop env c.params (fileLines file) with ⟨ps, found, _ | err | _⟩
      · dsimp only
        split_ifs <;> exact not_closes_open _ fileh
      · exact not_closes_open _ fileh
      · exact not_closes_open _ fileh

theorem parseCsv_closed_iff [Zero F] (env : Env F) (c : CsvCtx F) (filename : Str)
    (file : Option (H × Str)) :
    (parseCsvFiles env c filename file).Closes ↔
      ((strstr filename ".csv".toList).isSome → file = none) := by
  unfold parseCsvFiles
  cases strstr filename ".csv".toList with
  | none => exact iff_of_true (closes_nil rfl) fun hext => absurd hext Bool.false_ne_true
  | some ext =>
    rw [Option.isNone_some, if_neg Bool.false_ne_true]
    rcases file with _ | ⟨fileh, file⟩
    · exact iff_of_true (closes_failed rfl) fun _ => rfl
    · refine iff_of_false ?_ fun h => by cases h rfl
      dsimp only
      rcases c with ⟨_ | t, err⟩
      · exact not_closes_open _ fileh
      · rcases fgetsLines csvLineSize file with _ | ⟨header, lines⟩
        · exact not_closes_open _ fileh
        · dsimp only
          rcases dataLoop env lines (csvNewHeaders t header) with ⟨t', _ | _⟩
          · exact not_closes_open _ fileh
          · exact not_closes_open _ fileh

/-- `param_save_txt` closes every file that it opens, and a null pointer where it opens
none. -/
theorem saveTxt_closed_iff (env : Env F) (c : ParamCtx F) (fouth : Option H) :
    (saveTxtFiles env c fouth).Closes ↔ c.params = [] ∨ fouth.isSome := by
  cases fouth with
  | none =>
    rw [saveTxtFiles]
    by_cases hparams : c.params = []
    · rw [if_pos (List.isEmpty_iff.mpr hparams)]
      exact iff_of_true (closes_nil rfl) (Or.inl hparams)
    · rw [if_neg (List.isEmpty_iff.not.mpr hparams)]
      exact iff_of_false (fun h => h.nonnull (by simp)) (by simp [hparams])
  | some fouth =>
    refine iff_of_true ?_ (Or.inr rfl)
    rw [saveTxtFiles]
    simp only [saveLoopFiles_eq]
    split_ifs
    · exact closes_nil rfl
    · exact closes_closed rfl fouth

/-- `param_save_csv` closes every file that it opens, if the table is one that can be
written. -/
theorem saveCsv_closed_iff (env : Env F) (c : CsvCtx F) (fouth : Option H) :
    (saveCsvFiles env c fouth).Closes ↔
      ∃ t, c.csvFileh = some t ∧ (t.colCount = 0 ∨ t.itemCount = 0 ∨ fouth = none ∨
        (t.colCount ≤ maxBin ∧ t.itemCount ≤ maxBin)) := by
  rcases c with ⟨_ | t, err⟩
  · exact iff_of_false (fun h => absurd h.returns Bool.false_ne_true) fun ⟨t, ht, _⟩ => by cases ht
  · have hcond : ∀ P : CsvFileh F → Prop, (∃ u, some t = some u ∧ P u) ↔ P t :=
      fun P => ⟨fun ⟨u, hu, h⟩ => by cases hu; exact h, fun h => ⟨t, rfl, h⟩⟩
    rw [hcond, saveCsvFiles]
    dsimp only
    by_cases hempty : t.colCount = 0 ∨ t.itemCount = 0
    · rw [if_pos hempty]
      exact iff_of_true (closes_nil rfl) (by rw [← or_assoc]; exact Or.inl hempty)
    · rw [if_neg hempty, ← or_assoc, or_iff_right hempty]
      cases fouth with
      | none => exact iff_of_true (closes_failed rfl) (Or.inl rfl)
      | some fouth =>
        dsimp only
        by_cases hfits : t.colCount ≤ maxBin ∧ t.itemCount ≤ maxBin
        · rw [if_pos hfits]
          exact iff_of_true (closes_closed rfl fouth) (Or.inr hfits)
        · rw [if_neg hfits]
          exact iff_of_false (not_closes_open _ fouth) (by simp [hfits])

/-! ## Every call -/

/-- A call, and what `fopen` would give in it. -/
inductive ParserCall (H : Type) where
  | paramParse (filename : Str) (type : FileType) (file : Option (H × Str))
  | paramSave (type : FileType) (fouth : Option H)

/-- The call closes the files that it opens. -/
def ClosesFiles [Zero F] (env : Env F) (c : ParserCtx F) : ParserCall H → Prop
  | .paramParse filename type file => (paramParse env c filename type file).Closes
  | .paramSave type fouth => (paramSave env c type fouth).Closes

/-- A call that reads opens no file; one that writes text has parameters only if its file
opens, and one that writes a table has one within the arrays, or writes nothing. -/
def HandlesSafe (c : ParserCtx F) : ParserCall H → Prop
  | .paramParse filename .txt file => (strstr filename ".txt".toList).isSome → file = none
  | .paramParse filename .csv file => (strstr filename ".csv".toList).isSome → file = none
  | .paramSave .txt fouth => c.params = [] ∨ fouth.isSome
  | .paramSave .csv fouth => ∃ t, c.csvFileh = some t ∧ (t.colCount = 0 ∨ t.itemCount = 0 ∨
      fouth = none ∨ (t.colCount ≤ maxBin ∧ t.itemCount ≤ maxBin))
  | _ => True

theorem closes_map {β : Type} (f : α → β) (t : Traced H α) : (t.map f).Closes ↔ t.Closes :=
  ⟨fun h => ⟨by simpa [Traced.map] using h.returns, h.settled, h.nonnull⟩,
    fun h => ⟨by simpa [Traced.map] using h.returns, h.settled, h.nonnull⟩⟩

/-- **Every file that a call opens is closed exactly if** the call opens none to read, and
one to write unless it has nothing to write. -/
theorem files_closed_iff [Zero F] (env : Env F) (c : ParserCtx F) (call : ParserCall H) :
    ClosesFiles env c call ↔ HandlesSafe c call := by
  cases call with
  | paramParse filename type file =>
    cases type with
    | txt => exact (closes_map _ _).trans (parseTxt_closed_iff env _ filename file)
    | csv => exact (closes_map _ _).trans (parseCsv_closed_iff env _ filename file)
    | other => exact iff_of_true (closes_nil rfl) trivial
  | paramSave type fouth =>
    cases type with
    | txt => exact saveTxt_closed_iff env _ fouth
    | csv => exact saveCsv_closed_iff env _ fouth
    | other => exact iff_of_true (closes_nil rfl) trivial

def oneParam : ParserCtx ℤ := ⟨[⟨"a".toList, [], false, false, .int 0⟩], none, .noError⟩

/-- A file that is read stays open, and a null pointer is closed where the file to write
does not open. -/
theorem handles_misused :
    ¬ ClosesFiles wholeEnv oneParam
        (.paramParse "p.txt".toList .txt (some ("in", "a=1\n".toList))) ∧
      ¬ ClosesFiles wholeEnv oneParam (.paramSave .txt (none : Option String)) := by
  refine ⟨not_closes_open _ "in", fun h => h.nonnull ?_⟩
  show FileCall.fclose none ∈ [.fopen none, .fclose none]
  decide

end DataCommons.Csv
