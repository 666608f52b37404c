import Mathlib.Data.List.DropRight
import DataCommons.Csv.Residue

/-!
# Line ends

The same file with LF and with CR LF for its line ends.  A data line loses its end by its
length; the first line keeps it, since `csv_new_headers` looks for it at the end of the
buffer, and the last column takes the carriage return into its name.

* `headerName_crlf_iff`: when the name of the last column is the same;
* `dataLoop_crlf`: lines that fit are taken alike;
* `blank_row_seen`, `long_line_seen`: a line that fills the buffer leaves one more row;
* `crlf_iff`: when the two files are read alike.
-/

namespace DataCommons.Csv

open CString Params

variable {F : Type}

/-! ## The first line -/

/-- The text of a line behind its last separator, without the newline. -/
def lastField (sep line : Str) : Str := line.dropLast.rtakeWhile fun c => decide (c ∉ sep)

/-- The last token runs on into what is added without a separator. -/
theorem tokens_last_field (sep body : Str) :
    ∃ before, ∀ e, e ≠ [] → (∀ c ∈ e, c ∉ sep) →
      tokens sep (body ++ e) = before ++ [body.rtakeWhile (fun c => decide (c ∉ sep)) ++ e] := by
  have hsplit := @List.rdropWhile_append_rtakeWhile _ (fun c => decide (c ∉ sep)) body
  have htok : ∀ e : Str, e ≠ [] → (∀ c ∈ e, c ∉ sep) →
      tokens sep (body.rtakeWhile (fun c => decide (c ∉ sep)) ++ e)
        = [body.rtakeWhile (fun c => decide (c ∉ sep)) ++ e] := by
    intro e hne he
    refine strtok_of_not_sep (fun c hc => decide_eq_false ?_) (by simp [hne])
    rcases List.mem_append.mp hc with hc | hc
    · simpa using List.mem_rtakeWhile_imp hc
    · exact he c hc
  by_cases hpre : body.rdropWhile (fun c => decide (c ∉ sep)) = []
  · rw [hpre, List.nil_append] at hsplit
    refine ⟨[], fun e hne he => ?_⟩
    rw [List.nil_append, ← htok e hne he, hsplit]
  · have hlast := List.rdropWhile_last_not (fun c => decide (c ∉ sep)) body hpre
    have hsep : decide ((body.rdropWhile fun c => decide (c ∉ sep)).getLast hpre ∈ sep) = true := by
      simpa using hlast
    refine ⟨tokens sep (body.rdropWhile fun c => decide (c ∉ sep)).dropLast, fun e hne he => ?_⟩
    rw [← htok e hne he]
    conv_lhs => rw [← hsplit, ← List.dropLast_append_getLast hpre]
    rw [List.append_assoc, List.append_assoc, List.singleton_append]
    exact strtok_append_cons hsep

/-- **The name of the last column is the same exactly if** the end of the line does not
come into it: a blank cuts it before, or it is too long. -/
theorem headerName_crlf_iff {tok e : Str} (hnl : '\n' ∉ tok) (he : ' ' ∉ e) :
    headerName (tok ++ '\r' :: e) = headerName (tok ++ ['\n']) ↔
      columnNameSize - 1 ≤ tok.length ∨ ' ' ∈ tok := by
  have hblank := mem_map_toLower (d := ' ') (by decide) tok
  have hline := (mem_map_toLower (d := '\n') (by decide) tok).not.mpr hnl
  have hend := (mem_map_toLower (d := ' ') (by decide) e).not.mpr he
  rw [headerName, headerName, List.map_append, List.map_append, List.map_cons, List.map_cons,
    List.map_nil, show '\r'.toLower = '\r' from rfl, show '\n'.toLower = '\n' from rfl]
  have hlen : (tok.map Char.toLower).length = tok.length := List.length_map _
  rw [← hlen, ← hblank]
  generalize tok.map Char.toLower = low at hline
  generalize e.map Char.toLower = rest at hend
  by_cases hlong : columnNameSize - 1 ≤ low.length
  · rw [List.take_append_of_le_length hlong, List.take_append_of_le_length hlong]
    exact iff_of_true rfl (Or.inl hlong)
  · obtain ⟨k, hk⟩ : ∃ k, columnNameSize - 1 - low.length = k + 1 :=
      Nat.exists_eq_add_one.mpr (by omega)
    have htake : ∀ s : Str, (low ++ s).take (columnNameSize - 1) = low ++ s.take (k + 1) := by
      intro s
      rw [List.take_append, List.take_of_length_le (by omega), hk]
    rw [htake, htake, List.take_succ_cons, List.take_succ_cons, List.take_nil]
    by_cases hb : ' ' ∈ low
    · have hmem : ∀ s : Str, ' ' ∈ low ++ s := fun s => List.mem_append_left s hb
      rw [if_pos (hmem _), if_pos (hmem _), takeWhile_append_of_mem hb, takeWhile_append_of_mem hb]
      exact iff_of_true rfl (Or.inr hb)
    · have hnot : ' ' ∉ low ++ '\r' :: rest.take k := by
        rw [List.mem_append, List.mem_cons, not_or, not_or]
        exact ⟨hb, by decide, fun hm => hend (List.mem_of_mem_take hm)⟩
      have hnot' : ' ' ∉ low ++ ['\n'] := by simp [hb]
      simp only [if_neg hnot, if_neg hnot']
      refine iff_of_false (fun heq => ?_) (not_or.mpr ⟨hlong, hb⟩)
      have hlow : ∀ c ∈ low, decide (c ≠ '\n') = true :=
        fun c hc => decide_eq_true fun e => hline (e ▸ hc)
      rw [takeWhile_of_split hline, List.takeWhile_append_of_pos hlow,
        List.takeWhile_cons_of_pos (by decide)] at heq
      exact absurd (List.append_right_eq_self.mp heq) (List.cons_ne_nil _ _)

def headerNames (sep line : Str) : List Str := ((tokens sep line).take maxBin).map headerName

theorem csvNewHeaders_eq (t : CsvFileh F) (line : Str) :
    csvNewHeaders t line =
      { t with
        columnName := fun i => ((headerNames t.columnSep line)[i]?).getD (t.columnName i)
        colCount := (headerNames t.columnSep line).length } := rfl

/-- There are as many names whatever ends the line, and only the last one shows it. -/
theorem headerNames_line (sep body : Str) :
    ∃ before, ∀ e, e ≠ [] → (∀ c ∈ e, c ∉ sep) → (body ++ e).length < csvLineSize →
      headerNames sep (body ++ e)
        = before ++ [headerName (body.rtakeWhile (fun c => decide (c ∉ sep)) ++ e)] := by
  obtain ⟨before, htokens⟩ := tokens_last_field sep body
  refine ⟨before.map headerName, fun e hne he hlen => ?_⟩
  have htokens := htokens e hne he
  have hfew : (tokens sep (body ++ e)).length ≤ maxBin := by
    have hfields := fields_length_le (fun c => decide (c ∈ sep)) (body ++ e)
    have hle : (tokens sep (body ++ e)).length ≤ _ := List.length_filter_le _ _
    simp only [maxBin, csvLineSize] at hlen ⊢
    omega
  rw [headerNames, List.take_of_length_le hfew, htokens, List.map_append, List.map_singleton]

/-! ## Lines of the file -/

/-- A line that ends without a carriage return, or has no end. -/
def LfLine (line : Str) : Prop :=
  '\n' ∉ line ∨ ∃ body, '\n' ∉ body ∧ body.getLast? ≠ some '\r' ∧ line = body ++ ['\n']

/-- A line that leaves no room for one more character in the buffer. -/
def FillsBuffer (line : Str) : Prop := '\n' ∈ line ∧ csvLineSize ≤ line.length + 1

instance (line : Str) : Decidable (FillsBuffer line) := inferInstanceAs (Decidable (_ ∧ _))

theorem lfLine_of_isLines {size : ℕ} {file : Str} {lines : List Str}
    (hlf : ¬ ['\r', '\n'] <:+: file) (h : IsLines size file lines) :
    ∀ line ∈ lines, LfLine line := by
  intro line hmem
  by_cases hnl : '\n' ∈ line
  · obtain ⟨body, hbody, rfl⟩ := h.ends hmem hnl
    refine Or.inr ⟨body, hbody, fun hcr => hlf ?_, rfl⟩
    obtain ⟨init, rfl⟩ := List.getLast?_eq_some_iff.mp hcr
    refine List.IsInfix.trans ⟨init, [], ?_⟩ (h.part hmem)
    simp
  · exact Or.inl hnl

theorem stripEnd_lf {body : Str} (h : body.getLast? ≠ some '\r') :
    stripEnd (body ++ ['\n']) = body := by
  rw [stripEnd, if_pos (Or.inl List.getLast?_concat), List.dropLast_concat, if_neg h]

theorem stripEnd_crlf (body : Str) : stripEnd (body ++ ['\r', '\n']) = body := by
  have hsplit : body ++ ['\r', '\n'] = (body ++ ['\r']) ++ ['\n'] := by simp
  rw [hsplit, stripEnd, if_pos (Or.inl List.getLast?_concat), List.dropLast_concat,
    if_pos List.getLast?_concat, List.dropLast_concat]

theorem stripEnd_cr {body : Str} (h : body.getLast? ≠ some '\r') :
    stripEnd (body ++ ['\r']) = body := by
  rw [stripEnd, if_pos (Or.inr List.getLast?_concat), List.dropLast_concat, if_neg h]

section Loop

variable [Zero F] {env : Env F}

theorem dataLoop_strip {line line' : Str} (h : stripEnd line' = stripEnd line) (lines : List Str)
    (t : CsvFileh F) : dataLoop env (line' :: lines) t = dataLoop env (line :: lines) t := by
  rw [dataLoop, dataLoop, h]

theorem dataLoop_newline (lines : List Str) (t : CsvFileh F) :
    dataLoop env (['\n'] :: lines) t
      = dataLoop env lines { t with itemCount := t.itemCount + 1 } := by
  have hcells : cellTexts t.columnSep ['\n'] = [] := rfl
  have htaken : Taken env t t.itemCount ['\n'] := ⟨Or.inl hcells, by simp [hcells]⟩
  rw [dataLoop_taken htaken, afterLine_blank hcells]

/-- **A line with CR LF is taken like the line with LF**, and followed by a blank line
where it fills the buffer. -/
theorem dataLoop_pieces {line : Str} (h : LfLine line) (lines : List Str) (t : CsvFileh F) :
    dataLoop env (crlfPieces csvLineSize line ++ lines) t =
      dataLoop env (line :: if FillsBuffer line then ['\n'] :: lines else lines) t := by
  rcases h with hnl | ⟨body, hbody, hcr, rfl⟩
  · have hno : ¬ FillsBuffer line := fun hfills => hnl hfills.1
    rw [crlfPieces, if_pos hnl, if_neg hno, List.singleton_append]
  · have hmem : '\n' ∈ body ++ ['\n'] := by simp
    rw [crlfPieces, if_neg (not_not.mpr hmem), List.dropLast_concat]
    by_cases hfits : (body ++ ['\n']).length + 1 < csvLineSize
    · have hno : ¬ FillsBuffer (body ++ ['\n']) := fun hfills => not_lt.mpr hfills.2 hfits
      rw [if_pos hfits, if_neg hno, List.singleton_append]
      exact dataLoop_strip ((stripEnd_crlf body).trans (stripEnd_lf hcr).symm) lines t
    · rw [if_neg hfits, if_pos ⟨hmem, not_lt.mp hfits⟩, List.cons_append, List.singleton_append]
      exact dataLoop_strip ((stripEnd_cr hcr).trans (stripEnd_lf hcr).symm) _ t

/-- No line that is taken fills the buffer. -/
def RowsFit (env : Env F) (t : CsvFileh F) (lines : List Str) : Prop :=
  ∀ k line, lines[k]? = some line → FillsBuffer line →
    ∃ j ≤ k, ∃ l, lines[j]? = some l ∧ ¬ Taken env t (t.itemCount + j) l

theorem rowsFit_cons {t : CsvFileh F} {line : Str} {lines : List Str}
    (htaken : Taken env t t.itemCount line) :
    RowsFit env t (line :: lines) ↔
      ¬ FillsBuffer line ∧ RowsFit env (afterLine env t line) lines := by
  have hnext : ∀ j, (afterLine env t line).itemCount + j = t.itemCount + (j + 1) := by
    intro j
    rw [show (afterLine env t line).itemCount = t.itemCount + 1 from rfl, Nat.add_assoc,
      Nat.add_comm 1]
  constructor
  · intro h
    refine ⟨fun hfills => ?_, fun k l hk hfills => ?_⟩
    · obtain ⟨j, hj, l, hl, hnot⟩ := h 0 line rfl hfills
      cases Nat.le_zero.mp hj
      cases hl
      exact hnot htaken
    · obtain ⟨j, hj, l', hl', hnot⟩ := h (k + 1) l hk hfills
      cases j with
      | zero =>
        cases hl'
        exact absurd htaken hnot
      | succ j => exact ⟨j, Nat.le_of_succ_le_succ hj, l', hl', by rw [hnext]; exact hnot⟩
  · rintro ⟨hline, h⟩ k l hk hfills
    cases k with
    | zero =>
      cases hk
      exact absurd hfills hline
    | succ k =>
      obtain ⟨j, hj, l', hl', hnot⟩ := h k l hk hfills
      rw [hnext] at hnot
      exact ⟨j + 1, Nat.succ_le_succ hj, l', hl', hnot⟩

/-- **Lines that fit are taken alike.** -/
theorem dataLoop_crlf {lines : List Str} (hlf : ∀ line ∈ lines, LfLine line) {t : CsvFileh F}
    (hfit : RowsFit env t lines) :
    dataLoop env (lines.flatMap (crlfPieces csvLineSize)) t = dataLoop env lines t := by
  induction lines generalizing t with
  | nil => rfl
  | cons line lines ih =>
    obtain ⟨hline, hlines⟩ := List.forall_mem_cons.mp hlf
    rw [List.flatMap_cons, dataLoop_pieces hline]
    by_cases htaken : Taken env t t.itemCount line
    · obtain ⟨hno, hrest⟩ := (rowsFit_cons htaken).mp hfit
      rw [if_neg hno, dataLoop_taken htaken, dataLoop_taken htaken, ih hlines hrest]
    · rw [dataLoop_refused htaken, dataLoop_refused htaken]

/-- What is seen behind the lines shows the names that the table had before them. -/
theorem dataLoop_names {lines lines' : List Str} {t u : CsvFileh F}
    (h : SameView (dataLoop env lines t).1 (dataLoop env lines' u).1) :
    ∀ i < t.colCount, u.columnName i = t.columnName i := by
  obtain ⟨items, n, hframe⟩ := dataLoop_frame env lines t
  obtain ⟨items', n', hframe'⟩ := dataLoop_frame env lines' u
  rw [hframe, hframe'] at h
  exact h.names

/-! ## One row more -/

theorem rowLoop_other (cols : ℕ) (toks : List Str) {t : CsvFileh F} {j : ℕ}
    (hj : j ≠ t.itemCount) (i : ℕ) :
    (rowLoop env cols toks t).1.columnItem i j = t.columnItem i j := by
  induction toks generalizing cols t with
  | nil => rfl
  | cons token toks ih =>
    by_cases hcols : cols < maxBin
    · by_cases hroom : t.itemCount < maxBin
      · by_cases hconv : Converts env t.decimalSep token
        · rw [rowLoop_step hcols hroom hconv]
          refine (ih (t := t.setItem _ _ _) (cols + 1) hj).trans ?_
          simp [CsvFileh.setItem, hj]
        · rw [rowLoop_refused hcols hroom hconv]
      · rw [rowLoop_full hcols (not_lt.mp hroom)]
    · rw [rowLoop, if_pos (not_lt.mp hcols)]

/-- The rows before stay. -/
theorem dataLoop_before (lines : List Str) {t : CsvFileh F} {j : ℕ} (hj : j < t.itemCount)
    (i : ℕ) : (dataLoop env lines t).1.columnItem i j = t.columnItem i j := by
  induction lines generalizing t with
  | nil => rfl
  | cons line lines ih =>
    by_cases htaken : Taken env t t.itemCount line
    · rw [dataLoop_taken htaken, ih (t := afterLine env t line) (Nat.lt_succ_of_lt hj)]
      exact setRow_of_ne (Nat.ne_of_lt hj) _ i
    · rw [dataLoop_refused htaken]
      exact rowLoop_other 0 _ (Nat.ne_of_lt hj) i

theorem le_dataLoop (lines : List Str) (t : CsvFileh F) :
    t.itemCount ≤ (dataLoop env lines t).1.itemCount := by
  obtain ⟨n, -, hcount, -⟩ := dataLoop_prefix env lines t
  rw [hcount]
  exact Nat.le_add_right _ _

/-- The value of the first text of the lines. -/
def firstValue (env : Env F) (decSep colSep : Str) (lines : List Str) : F :=
  ((lines.findSome? fun line => (cellTexts colSep line).head?).map (textValue env decSep)).getD 0

theorem firstValue_blank {decSep colSep line : Str} (hblank : cellTexts colSep line = [])
    (lines : List Str) :
    firstValue env decSep colSep (line :: lines) = firstValue env decSep colSep lines := by
  rw [firstValue, List.findSome?_cons, hblank]
  rfl

/-- It is read into column 0 of the next row. -/
theorem first_cell {line : Str} {t : CsvFileh F} (htaken : Taken env t t.itemCount line)
    (htexts : cellTexts t.columnSep line ≠ []) (lines : List Str) :
    (dataLoop env (line :: lines) t).1.columnItem 0 t.itemCount
      = firstValue env t.decimalSep t.columnSep (line :: lines) := by
  obtain ⟨text, texts, hcells⟩ := List.exists_cons_of_ne_nil htexts
  have hrow : (afterLine env t line).columnItem 0 t.itemCount
      = (((cellTexts t.columnSep line).map (textValue env t.decimalSep))[0]?).getD
          (t.columnItem 0 t.itemCount) := setRow_self t t.itemCount _ 0
  rw [dataLoop_taken htaken, dataLoop_before _ (Nat.lt_succ_self t.itemCount), hrow, firstValue,
    List.findSome?_cons, hcells]
  rfl

/-- **A blank row shows.**  Where one of two tables has got more rows than the other, and
holds something else than the first value in its column 0, the lines leave them apart. -/
theorem blank_row_seen {lines : List Str} (hlf : ∀ line ∈ lines, LfLine line)
    {t u : CsvFileh F} (hsep : u.columnSep = t.columnSep) (hdec : u.decimalSep = t.decimalSep)
    (hcols : 0 < t.colCount) (hcount : t.itemCount < u.itemCount) {x : F}
    (hx : firstValue env t.decimalSep t.columnSep lines ≠ x)
    (hold : ∀ j, t.itemCount ≤ j → u.columnItem 0 j = x) :
    ¬ SameView (dataLoop env lines t).1
      (dataLoop env (lines.flatMap (crlfPieces csvLineSize)) u).1 := by
  induction lines generalizing t u with
  | nil => exact fun hsame => absurd hsame.itemCount (Nat.ne_of_gt hcount)
  | cons line lines ih =>
    intro hsame
    obtain ⟨hline, hlines⟩ := List.forall_mem_cons.mp hlf
    rw [List.flatMap_cons, dataLoop_pieces hline] at hsame
    cases hcells : cellTexts t.columnSep line with
    | nil =>
      have htaken : Taken env t t.itemCount line := ⟨Or.inl hcells, by simp [hcells]⟩
      have hcells' : cellTexts u.columnSep line = [] := hsep ▸ hcells
      have htaken' : Taken env u u.itemCount line := ⟨Or.inl hcells', by simp [hcells']⟩
      rw [dataLoop_taken htaken, dataLoop_taken htaken', afterLine_blank hcells,
        afterLine_blank hcells'] at hsame
      rw [firstValue_blank hcells] at hx
      by_cases hfills : FillsBuffer line
      · rw [if_pos hfills, dataLoop_newline] at hsame
        exact ih (t := { t with itemCount := t.itemCount + 1 })
          (u := { u with itemCount := u.itemCount + 1 + 1 }) hlines hsep hdec hcols
          (show t.itemCount + 1 < u.itemCount + 1 + 1 by omega) hx
          (fun j hj => hold j (Nat.le_of_succ_le hj)) hsame
      · rw [if_neg hfills] at hsame
        exact ih (t := { t with itemCount := t.itemCount + 1 })
          (u := { u with itemCount := u.itemCount + 1 }) hlines hsep hdec hcols
          (Nat.succ_lt_succ hcount) hx (fun j hj => hold j (Nat.le_of_succ_le hj)) hsame
    | cons text texts =>
      by_cases htaken : Taken env t t.itemCount line
      · have hroom : t.itemCount < maxBin := htaken.1.resolve_left (by simp [hcells])
        have hrow : t.itemCount < (dataLoop env (line :: lines) t).1.itemCount := by
          rw [dataLoop_taken htaken]
          exact le_dataLoop lines (afterLine env t line)
        obtain ⟨items, n, hframe⟩ := dataLoop_frame env (line :: lines) t
        have hcell := hsame.cells 0 (by rw [hframe]; exact hcols) t.itemCount hrow hroom
        rw [first_cell htaken (by simp [hcells]), dataLoop_before _ hcount, hold _ le_rfl] at hcell
        exact hx hcell.symm
      · rw [dataLoop_refused htaken] at hsame
        obtain ⟨items, hframe⟩ := rowLoop_frame env 0 (tokens t.columnSep (stripEnd line)) t
        have hmore := hsame.itemCount
        rw [hframe] at hmore
        exact absurd hmore (Nat.ne_of_gt (lt_of_lt_of_le hcount (le_dataLoop _ u)))

/-- **A line that fills the buffer shows** in a column that holds something else than one
value. -/
theorem long_line_seen {lines : List Str} (hlf : ∀ line ∈ lines, LfLine line) {t : CsvFileh F}
    (hcols : 0 < t.colCount) (hfit : ¬ RowsFit env t lines) :
    ∃ y : F, ∀ x, y ≠ x → ∀ items : ℕ → ℕ → F, (∀ j, t.itemCount ≤ j → items 0 j = x) →
      ¬ SameView (dataLoop env lines { t with columnItem := items }).1
        (dataLoop env (lines.flatMap (crlfPieces csvLineSize))
          { t with columnItem := items }).1 := by
  induction lines generalizing t with
  | nil => exact absurd (fun k line hk => by cases hk) hfit
  | cons line lines ih =>
    obtain ⟨hline, hlines⟩ := List.forall_mem_cons.mp hlf
    by_cases htaken : Taken env t t.itemCount line
    · rw [rowsFit_cons htaken, not_and_or, not_not] at hfit
      by_cases hfills : FillsBuffer line
      · refine ⟨firstValue env t.decimalSep t.columnSep lines, fun x hx items hitems hsame => ?_⟩
        have htaken' : Taken env { t with columnItem := items } t.itemCount line := htaken
        rw [List.flatMap_cons, dataLoop_pieces hline, if_pos hfills, dataLoop_taken htaken',
          dataLoop_taken htaken', dataLoop_newline] at hsame
        refine blank_row_seen (t := afterLine env { t with columnItem := items } line)
          (u := { afterLine env { t with columnItem := items } line with
            itemCount := t.itemCount + 1 + 1 }) hlines rfl rfl
          hcols (Nat.lt_succ_self _) hx (fun j hj => ?_) hsame
        exact (setRow_of_ne (Nat.ne_of_gt hj) _ 0).trans (hitems j (Nat.le_of_succ_le hj))
      · obtain ⟨y, hy⟩ := ih (t := afterLine env t line) hlines hcols (hfit.resolve_left hfills)
        refine ⟨y, fun x hx items hitems hsame => ?_⟩
        have htaken' : Taken env { t with columnItem := items } t.itemCount line := htaken
        rw [List.flatMap_cons, dataLoop_pieces hline, if_neg hfills, dataLoop_taken htaken',
          dataLoop_taken htaken'] at hsame
        refine hy x hx (afterLine env { t with columnItem := items } line).columnItem ?_ hsame
        intro j hj
        exact (setRow_of_ne (Nat.ne_of_gt hj) _ 0).trans (hitems j (Nat.le_of_succ_le hj))
    · exact absurd (fun k l _ _ => ⟨0, Nat.zero_le k, line, rfl, htaken⟩) hfit

end Loop

/-! ## The file -/

/-- The name of the last column is full, or cut at a blank, before the end of the line. -/
def LastNameCut (sep header : Str) : Prop :=
  columnNameSize - 1 ≤ (lastField sep header).length ∨ ' ' ∈ lastField sep header

instance (sep header : Str) : Decidable (LastNameCut sep header) :=
  inferInstanceAs (Decidable (_ ∨ _))

/-- The first line has no end; or it leaves room for one more character, its end does not
come into a name, and no line that is taken fills the buffer. -/
def EndsAlike [Zero F] (env : Env F) (t : CsvFileh F) (header : Str) (lines : List Str) : Prop :=
  '\n' ∉ header ∨
    (¬ FillsBuffer header ∧ LastNameCut t.columnSep header ∧ RowsFit env t lines)

/-- Whatever the columns hold before, both files are read with the same result. -/
def LineEndsAgree [Zero F] (env : Env F) (t : CsvFileh F) (err : ParamError)
    (filename file : Str) : Prop :=
  ∀ items, ∃ u v err' ret,
    paramParseCsv env ⟨some { t with columnItem := items }, err⟩ filename (some file)
        = some (⟨some u, err'⟩, ret) ∧
      paramParseCsv env ⟨some { t with columnItem := items }, err⟩ filename (some (crlf file))
        = some (⟨some v, err'⟩, ret) ∧
      SameView u v

section Header

variable {body : Str} {t : CsvFileh F}

/-- The names of a line that has room for the carriage return. -/
theorem header_names_crlf (hbody : '\n' ∉ body) (hlfsep : '\n' ∉ t.columnSep)
    (hcrsep : '\r' ∉ t.columnSep) (hfits : ¬ FillsBuffer (body ++ ['\n'])) :
    ∃ before last last', headerNames t.columnSep (body ++ ['\n']) = before ++ [last] ∧
      headerNames t.columnSep (body ++ ['\r', '\n']) = before ++ [last'] ∧
      (last' = last ↔ LastNameCut t.columnSep (body ++ ['\n'])) := by
  obtain ⟨before, hnames⟩ := headerNames_line t.columnSep body
  have hlen : (body ++ ['\r', '\n']).length < csvLineSize := by
    have hroom : ¬ csvLineSize ≤ (body ++ ['\n']).length + 1 := fun h => hfits ⟨by simp, h⟩
    simp only [List.length_append, List.length_cons, List.length_nil] at hroom ⊢
    omega
  have hlen' : (body ++ ['\n']).length < csvLineSize := by
    simp only [List.length_append, List.length_cons, List.length_nil] at hlen ⊢
    omega
  refine ⟨before, _, _, hnames ['\n'] (by simp) (by simpa using hlfsep) hlen',
    hnames ['\r', '\n'] (by simp) (by simp [hlfsep, hcrsep]) hlen, ?_⟩
  have hnl : '\n' ∉ body.rtakeWhile (fun c => decide (c ∉ t.columnSep)) :=
    fun hm => hbody ((List.rtakeWhile_suffix _ _).subset hm)
  rw [headerName_crlf_iff hnl (by decide), LastNameCut, lastField, List.dropLast_concat]

theorem csvNewHeaders_crlf (hbody : '\n' ∉ body) (hlfsep : '\n' ∉ t.columnSep)
    (hcrsep : '\r' ∉ t.columnSep) (hfits : ¬ FillsBuffer (body ++ ['\n']))
    (hcut : LastNameCut t.columnSep (body ++ ['\n'])) :
    csvNewHeaders t (body ++ ['\r', '\n']) = csvNewHeaders t (body ++ ['\n']) := by
  obtain ⟨before, last, last', hlf, hcr, hlast⟩ := header_names_crlf hbody hlfsep hcrsep hfits
  rw [csvNewHeaders_eq, csvNewHeaders_eq, hlf, hcr, hlast.mpr hcut]

/-- The last name shows the carriage return. -/
theorem lastNameCut_of_names (hbody : '\n' ∉ body) (hlfsep : '\n' ∉ t.columnSep)
    (hcrsep : '\r' ∉ t.columnSep) (hfits : ¬ FillsBuffer (body ++ ['\n']))
    (hnames : ∀ i < (csvNewHeaders t (body ++ ['\n'])).colCount,
      (csvNewHeaders t (body ++ ['\r', '\n'])).columnName i
        = (csvNewHeaders t (body ++ ['\n'])).columnName i) :
    LastNameCut t.columnSep (body ++ ['\n']) := by
  obtain ⟨before, last, last', hlf, hcr, hlast⟩ := header_names_crlf hbody hlfsep hcrsep hfits
  simp only [csvNewHeaders_eq, hlf, hcr] at hnames
  have hname := hnames before.length (by simp)
  refine hlast.mp ?_
  simpa using hname

/-- A line with an end gives a name. -/
theorem colCount_pos (hlfsep : '\n' ∉ t.columnSep) (hlen : (body ++ ['\n']).length < csvLineSize) :
    0 < (csvNewHeaders t (body ++ ['\n'])).colCount := by
  obtain ⟨before, hnames⟩ := headerNames_line t.columnSep body
  rw [csvNewHeaders_eq]
  dsimp only
  rw [hnames ['\n'] (by simp) (by simpa using hlfsep) hlen, List.length_append,
    List.length_singleton]
  exact Nat.succ_pos _

end Header

section File

variable [Zero F] {env : Env F} {t : CsvFileh F} {err : ParamError} {filename file : Str}
  {header : Str} {lines : List Str}

theorem lineEndsAgree_iff {header' : Str} {lines' : List Str}
    (hext : (strstr filename ".csv".toList).isSome)
    (hlf : fgetsLines csvLineSize file = header :: lines)
    (hcr : fgetsLines csvLineSize (crlf file) = header' :: lines') :
    LineEndsAgree env t err filename file ↔ ∀ items,
      SameView (dataLoop env lines (csvNewHeaders { t with columnItem := items } header)).1
          (dataLoop env lines' (csvNewHeaders { t with columnItem := items } header')).1 ∧
        (dataLoop env lines' (csvNewHeaders { t with columnItem := items } header')).2
          = (dataLoop env lines (csvNewHeaders { t with columnItem := items } header)).2 := by
  refine forall_congr' fun items => ?_
  rw [paramParseCsv_result hext hlf, paramParseCsv_result hext hcr]
  constructor
  · rintro ⟨u, v, err', ret, hu, hv, hsame⟩
    simp only [Option.some.injEq, Prod.mk.injEq, CsvCtx.mk.injEq] at hu hv
    obtain ⟨⟨rfl, -⟩, hret⟩ := hu
    obtain ⟨⟨rfl, -⟩, hret'⟩ := hv
    exact ⟨hsame, hret'.trans hret.symm⟩
  · rintro ⟨hsame, hret⟩
    refine ⟨_, _, _, _, rfl, ?_, hsame⟩
    rw [hret]

/-- The first line leaves no room for one more character: the rest of its end is a row. -/
theorem header_fills_seen [Nontrivial F] {body : Str} (hlfsep : '\n' ∉ t.columnSep)
    (hlines : ∀ line ∈ lines, LfLine line) (hlen : (body ++ ['\n']).length < csvLineSize) :
    ¬ ∀ items, SameView
      (dataLoop env lines (csvNewHeaders { t with columnItem := items } (body ++ ['\n']))).1
      (dataLoop env (['\n'] :: lines.flatMap (crlfPieces csvLineSize))
        (csvNewHeaders { t with columnItem := items } (body ++ ['\r']))).1 := by
  intro h
  obtain ⟨x, hx⟩ := exists_ne (firstValue env t.decimalSep t.columnSep lines)
  have hsame := h fun _ _ => x
  rw [dataLoop_newline] at hsame
  refine blank_row_seen (t := csvNewHeaders { t with columnItem := fun _ _ => x } (body ++ ['\n']))
    (u := { csvNewHeaders { t with columnItem := fun _ _ => x } (body ++ ['\r']) with
      itemCount := t.itemCount + 1 }) hlines rfl rfl ?_ (Nat.lt_succ_self t.itemCount) hx.symm
    (fun j _ => rfl) hsame
  exact colCount_pos (t := { t with columnItem := fun _ _ => x }) hlfsep hlen

theorem crlf_lines_iff [Nontrivial F] (hlfsep : '\n' ∉ t.columnSep) (hcrsep : '\r' ∉ t.columnSep)
    (hext : (strstr filename ".csv".toList).isSome)
    (hread : IsLines csvLineSize file (header :: lines)) (hlf : ¬ ['\r', '\n'] <:+: file) :
    LineEndsAgree env t err filename file ↔ EndsAlike env t header lines := by
  have hlines := fgetsLines_of_isLines hread
  have hpieces := fgetsLines_crlf hread
  rw [List.flatMap_cons] at hpieces
  obtain ⟨-, hends⟩ := List.forall_mem_cons.mp (lfLine_of_isLines hlf hread)
  by_cases hnl : '\n' ∈ header
  · obtain ⟨body, hbody, rfl⟩ := hread.ends List.mem_cons_self hnl
    rw [crlfPieces, if_neg (not_not.mpr hnl), List.dropLast_concat] at hpieces
    by_cases hfills : FillsBuffer (body ++ ['\n'])
    · rw [if_neg (not_lt.mpr hfills.2)] at hpieces
      refine iff_of_false (fun hagree => ?_) (by simp [EndsAlike, hfills])
      have hagree := (lineEndsAgree_iff hext hlines hpieces).mp hagree
      exact header_fills_seen hlfsep hends (hread.line List.mem_cons_self)
        fun items => (hagree items).1
    · rw [if_pos (not_le.mp fun hle => hfills ⟨hnl, hle⟩), List.singleton_append] at hpieces
      rw [lineEndsAgree_iff hext hlines hpieces]
      constructor
      · intro hagree
        have hcut : LastNameCut t.columnSep (body ++ ['\n']) := by
          have hnames := dataLoop_names (hagree t.columnItem).1
          exact lastNameCut_of_names hbody hlfsep hcrsep hfills hnames
        refine Or.inr ⟨hfills, hcut, ?_⟩
        by_contra hfit
        obtain ⟨y, hy⟩ := long_line_seen (t := csvNewHeaders t (body ++ ['\n'])) hends
          (colCount_pos hlfsep (hread.line List.mem_cons_self)) hfit
        obtain ⟨x, hx⟩ := exists_ne y
        have hsame := (hagree fun _ _ => x).1
        rw [csvNewHeaders_crlf (t := { t with columnItem := fun _ _ => x }) hbody hlfsep hcrsep
          hfills hcut] at hsame
        exact hy x hx.symm _ (fun j _ => rfl) hsame
      · rintro (hno | ⟨-, hcut, hfit⟩) items
        · exact absurd hnl hno
        · have hcrlf := csvNewHeaders_crlf (t := { t with columnItem := items }) hbody hlfsep hcrsep
            hfills hcut
          have hfits : RowsFit env (csvNewHeaders { t with columnItem := items } (body ++ ['\n']))
            lines := hfit
          rw [hcrlf, dataLoop_crlf hends hfits]
          exact ⟨SameView.refl _, rfl⟩
  · have hnil := hread.nil_of_not_mem hnl
    subst hnil
    rw [crlfPieces, if_pos hnl] at hpieces
    rw [lineEndsAgree_iff hext hlines hpieces]
    exact iff_of_true (fun _ => ⟨SameView.refl _, rfl⟩) (Or.inl hnl)

end File

/-- **A file with LF and the same file with CR LF are read alike exactly if** the first
line has no end, or its end does not come into the last name and no line that is taken
is longer with CR LF than the buffer; for every file whose lines fit with LF. -/
theorem crlf_iff [Zero F] [Nontrivial F] (env : Env F) {t : CsvFileh F} (err : ParamError)
    (hlfsep : '\n' ∉ t.columnSep) (hcrsep : '\r' ∉ t.columnSep) (filename : Str)
    {file : Str} {ls : List Str} (hread : IsLines csvLineSize file ls)
    (hlf : ¬ ['\r', '\n'] <:+: file) :
    LineEndsAgree env t err filename file ↔
      ((strstr filename ".csv".toList).isSome →
        ∃ header lines, ls = header :: lines ∧ EndsAlike env t header lines) := by
  by_cases hext : (strstr filename ".csv".toList).isSome
  · cases ls with
    | nil =>
      refine iff_of_false (fun h => ?_) fun h => ?_
      · obtain ⟨u, v, err', ret, hu, -⟩ := h t.columnItem
        rw [paramParseCsv_undefined hext (Or.inr (fgetsLines_of_isLines hread))] at hu
        cases hu
      · obtain ⟨header, lines, hls, -⟩ := h hext
        cases hls
    | cons header lines =>
      rw [crlf_lines_iff hlfsep hcrsep hext hread hlf]
      constructor
      · exact fun h _ => ⟨header, lines, rfl, h⟩
      · intro h
        obtain ⟨header', lines', hls, hends⟩ := h hext
        cases hls
        exact hends
  · refine iff_of_true (fun items => ?_) fun h => absurd h hext
    exact ⟨_, _, err, false, paramParseCsv_of_not_csv hext, paramParseCsv_of_not_csv hext,
      SameView.refl _⟩

/-- The last name is cut at its blank. -/
theorem crlf_iff_blank :
    LineEndsAgree wholeEnv commaTable .noError "data.csv".toList "a,b x\n1,2\n".toList := by
  have hread : IsLines csvLineSize "a,b x\n1,2\n".toList ["a,b x\n".toList, "1,2\n".toList] :=
    @isLines_flatten csvLineSize ["a,b x".toList, "1,2".toList] (by decide)
  have hlf : ¬ ['\r', '\n'] <:+: "a,b x\n1,2\n".toList :=
    fun h => absurd (strstr_isSome_iff.mpr h) (by decide)
  refine (crlf_iff wholeEnv .noError (by decide) (by decide) _ hread hlf).mpr fun _ =>
    ⟨_, _, rfl, Or.inr ⟨by decide, by decide, fun k line hk hfills => ?_⟩⟩
  have hno : ∀ line ∈ ["1,2\n".toList], ¬ FillsBuffer line := by decide
  exact absurd hfills (hno line (List.mem_of_getElem? hk))

/-- The last column of the file with CR LF has a carriage return in its name. -/
theorem carriage_return_in_name :
    ¬ LineEndsAgree wholeEnv commaTable .noError "data.csv".toList "a,b\n1,2\n".toList := by
  intro h
  obtain ⟨u, v, err, ret, hu, hv, hsame⟩ := h fun _ _ => 0
  cases hu
  cases hv
  exact absurd (hsame.names 1 (by decide)) (by decide)

end DataCommons.Csv
