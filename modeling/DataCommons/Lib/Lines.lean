import Mathlib.Algebra.Order.Group.Nat
import Mathlib.Data.List.Basic

/-!
# Reading a file with `fgets`

`fgetsLines size` are the pieces that a buffer of `size` characters takes from a
file: up to a newline, or as much as fits.

* `fgetsLines_of_isLines`: lines that fit are read whole;
* `isLines_flatten`: lines written one after the other are the lines of the file;
* `readPieces_first`: the first piece of any file;
* `fgetsLines_crlf`: the pieces of a file when its line ends become CR LF.
-/

namespace DataCommons.CString

/-- What `fgets` reads into a buffer of `size`; `room` more characters fit behind the
present one. -/
def readPieces (size : ℕ) : ℕ → List Char → List (List Char)
  | _, [] => []
  | room, c :: s =>
    if c = '\n' ∨ room = 0 then [c] :: readPieces size (size - 2) s
    else
      match readPieces size (room - 1) s with
      | [] => [[c]]
      | line :: lines => (c :: line) :: lines

def fgetsLines (size : ℕ) (file : List Char) : List (List Char) := readPieces size (size - 2) file

/-- The lines of a file, each of which fits a buffer of `size` with its terminator;
the last one may end without a newline. -/
inductive IsLines (size : ℕ) : List Char → List (List Char) → Prop
  | nil : IsLines size [] []
  | last {line : List Char} (hne : line ≠ []) (hnl : '\n' ∉ line) (hlen : line.length < size) :
      IsLines size line [line]
  | cons {body s : List Char} {lines : List (List Char)} (hnl : '\n' ∉ body)
      (hlen : body.length + 1 < size) (hrest : IsLines size s lines) :
      IsLines size (body ++ '\n' :: s) ((body ++ ['\n']) :: lines)

theorem readPieces_flatten (size room : ℕ) (s : List Char) :
    (readPieces size room s).flatten = s := by
  induction s generalizing room with
  | nil => rfl
  | cons c s ih =>
    rw [readPieces]
    split
    · rw [List.flatten_cons, ih, List.singleton_append]
    · have h := ih (room - 1)
      split
      · next heq =>
        rw [heq] at h
        simpa using h
      · next heq =>
        rw [heq, List.flatten_cons] at h
        rw [List.flatten_cons, List.cons_append, h]

theorem readPieces_cons {size room : ℕ} {body : List Char} (hnl : '\n' ∉ body)
    (hlen : body.length ≤ room) (s : List Char) :
    readPieces size room (body ++ '\n' :: s) = (body ++ ['\n']) :: readPieces size (size - 2) s := by
  induction body generalizing room with
  | nil => rw [List.nil_append, readPieces, if_pos (Or.inl rfl), List.nil_append]
  | cons c body ih =>
    rw [List.mem_cons, not_or] at hnl
    rw [List.length_cons] at hlen
    have hstop : ¬ (c = '\n' ∨ room = 0) := by
      rintro (rfl | hz)
      · exact hnl.1 rfl
      · omega
    rw [List.cons_append, readPieces, if_neg hstop, ih hnl.2 (by omega)]
    rfl

/-- Behind a newline the buffer is filled anew. -/
theorem readPieces_append (size room : ℕ) (a b : List Char) :
    readPieces size room (a ++ '\n' :: b)
      = readPieces size room (a ++ ['\n']) ++ readPieces size (size - 2) b := by
  induction a generalizing room with
  | nil => rw [List.nil_append, List.nil_append, readPieces, readPieces, if_pos (Or.inl rfl),
      if_pos (Or.inl rfl), readPieces, List.singleton_append]
  | cons c a ih =>
    rw [List.cons_append, List.cons_append, readPieces, readPieces]
    split
    · rw [ih, List.cons_append]
    · rw [ih]
      cases hr : readPieces size (room - 1) (a ++ ['\n']) with
      | nil =>
        have hflat := readPieces_flatten size (room - 1) (a ++ ['\n'])
        rw [hr] at hflat
        simp at hflat
      | cons line lines => rfl

theorem readPieces_last {size room : ℕ} {line : List Char} (hne : line ≠ []) (hnl : '\n' ∉ line)
    (hlen : line.length ≤ room + 1) : readPieces size room line = [line] := by
  induction line generalizing room with
  | nil => exact absurd rfl hne
  | cons c line ih =>
    rw [List.mem_cons, not_or] at hnl
    rw [List.length_cons] at hlen
    rw [readPieces]
    by_cases hz : room = 0
    · have hnil : line = [] := List.length_eq_zero_iff.mp (by omega)
      rw [if_pos (Or.inr hz), hnil, readPieces]
    · have hstop : ¬ (c = '\n' ∨ room = 0) := by
        rintro (rfl | h)
        · exact hnl.1 rfl
        · exact hz h
      rw [if_neg hstop]
      by_cases hnil : line = []
      · rw [hnil, readPieces]
      · rw [ih hnil hnl.2 (by omega)]

/-- **Lines that fit are read whole.** -/
theorem fgetsLines_of_isLines {size : ℕ} {file : List Char} {lines : List (List Char)}
    (h : IsLines size file lines) : fgetsLines size file = lines := by
  rw [fgetsLines]
  induction h with
  | nil => rfl
  | last hne hnl hlen => exact readPieces_last hne hnl (by omega)
  | cons hnl hlen hrest ih => rw [readPieces_cons hnl (by omega), ih]

/-- A line has no newline but at its end, and fits. -/
theorem IsLines.line {size : ℕ} {file line : List Char} {lines : List (List Char)}
    (h : IsLines size file lines) (hmem : line ∈ lines) : line.length < size := by
  induction h with
  | nil => cases hmem
  | last hne hnl hlen => rwa [List.mem_singleton.mp hmem]
  | cons hnl hlen hrest ih =>
    rcases List.mem_cons.mp hmem with rfl | hmem
    · rw [List.length_append, List.length_singleton]
      exact hlen
    · exact ih hmem

/-- **Lines written one after the other are the lines of the file.** -/
theorem isLines_flatten {size : ℕ} {bodies : List (List Char)}
    (h : ∀ body ∈ bodies, '\n' ∉ body ∧ body.length + 1 < size) :
    IsLines size (bodies.map (· ++ ['\n'])).flatten (bodies.map (· ++ ['\n'])) := by
  induction bodies with
  | nil => exact IsLines.nil
  | cons body bodies ih =>
    obtain ⟨hnl, hlen⟩ := h body List.mem_cons_self
    rw [List.map_cons, List.flatten_cons, List.append_assoc, List.singleton_append]
    exact IsLines.cons hnl hlen (ih fun b hb => h b (List.mem_cons_of_mem body hb))

/-! ## Pieces of any file -/

theorem ne_nil_of_mem_readPieces {size room : ℕ} {s l : List Char}
    (h : l ∈ readPieces size room s) : l ≠ [] := by
  induction s generalizing room l with
  | nil => cases h
  | cons c s ih =>
    rw [readPieces] at h
    split at h
    · rcases List.mem_cons.mp h with rfl | h
      · exact List.cons_ne_nil _ _
      · exact ih h
    · split at h
      · rw [List.mem_singleton.mp h]
        exact List.cons_ne_nil _ _
      · next heq =>
        rcases List.mem_cons.mp h with rfl | h
        · exact List.cons_ne_nil _ _
        · exact ih (heq ▸ List.mem_cons_of_mem _ h)

/-- A first piece that does not fill the buffer is the whole text without a newline,
or ends with the first newline. -/
theorem readPieces_first {size room : ℕ} {s l : List Char} {ls : List (List Char)}
    (h : readPieces size room s = l :: ls) (hshort : l.length ≤ room) :
    (l = s ∧ '\n' ∉ s) ∨ ∃ p, l = p ++ ['\n'] ∧ '\n' ∉ p := by
  induction s generalizing room l ls with
  | nil => cases h
  | cons c s ih =>
    rw [readPieces] at h
    split at h
    · next hc =>
      rcases hc with rfl | hr
      · cases h
        exact Or.inr ⟨[], rfl, List.not_mem_nil⟩
      · cases h
        rw [hr] at hshort
        exact absurd hshort (by simp)
    · next hc =>
      rw [not_or] at hc
      split at h
      · next heq =>
        cases h
        have hs := readPieces_flatten size (room - 1) s
        rw [heq] at hs
        subst hs
        exact Or.inl ⟨rfl, by simpa using Ne.symm hc.1⟩
      · next l' ls' heq =>
        cases h
        rw [List.length_cons] at hshort
        rcases ih heq (by omega) with ⟨rfl, hs⟩ | ⟨p, rfl, hp⟩
        · exact Or.inl ⟨rfl, by simpa [hs] using Ne.symm hc.1⟩
        · refine Or.inr ⟨c :: p, rfl, fun hm => ?_⟩
          rcases List.mem_cons.mp hm with e | hm
          · exact hc.1 e.symm
          · exact hp hm

/-! ## Line ends of two characters -/

/-- The file with CR LF for every line end. -/
def crlf (file : List Char) : List Char :=
  file.flatMap fun c => if c = '\n' then ['\r', '\n'] else [c]

/-- What is read of a line with CR LF for its end: the line, or in two pieces where the
buffer has no room for one more character. -/
def crlfPieces (size : ℕ) (line : List Char) : List (List Char) :=
  if '\n' ∉ line then [line]
  else if line.length + 1 < size then [line.dropLast ++ ['\r', '\n']]
  else [line.dropLast ++ ['\r'], ['\n']]

theorem crlf_eq_self {s : List Char} (h : '\n' ∉ s) : crlf s = s := by
  induction s with
  | nil => rfl
  | cons c s ih =>
    rw [List.mem_cons, not_or] at h
    have hc : c ≠ '\n' := fun e => h.1 e.symm
    rw [crlf, List.flatMap_cons, if_neg hc, List.singleton_append]
    exact congrArg (c :: ·) (ih h.2)

theorem crlf_line {body : List Char} (hnl : '\n' ∉ body) (s : List Char) :
    crlf (body ++ '\n' :: s) = (body ++ ['\r']) ++ '\n' :: crlf s := by
  have hbody := crlf_eq_self hnl
  rw [crlf] at hbody ⊢
  rw [List.flatMap_append, hbody, List.flatMap_cons, if_pos rfl, List.append_assoc]
  rfl

theorem readPieces_full {size : ℕ} {body : List Char} (hnl : '\n' ∉ body) (c : Char)
    (s : List Char) :
    readPieces size body.length (body ++ c :: s) = (body ++ [c]) :: readPieces size (size - 2) s := by
  induction body with
  | nil => rw [List.nil_append, List.length_nil, readPieces, if_pos (Or.inr rfl), List.nil_append]
  | cons d body ih =>
    rw [List.mem_cons, not_or] at hnl
    have hgo : ¬ (d = '\n' ∨ (d :: body).length = 0) := by
      rintro (rfl | h)
      · exact hnl.1 rfl
      · cases h
    rw [List.cons_append, readPieces, if_neg hgo, List.length_cons, Nat.add_sub_cancel, ih hnl.2]
    rfl

/-- **The pieces of a file with CR LF**, line by line. -/
theorem fgetsLines_crlf {size : ℕ} {file : List Char} {lines : List (List Char)}
    (h : IsLines size file lines) :
    fgetsLines size (crlf file) = lines.flatMap (crlfPieces size) := by
  induction h with
  | nil => rfl
  | @last line hne hnl hlen =>
    rw [crlf_eq_self hnl, fgetsLines_of_isLines (.last hne hnl hlen), List.flatMap_singleton,
      crlfPieces, if_pos hnl]
  | @cons body s lines hnl hlen hrest ih =>
    have hmem : ¬ '\n' ∉ body ++ ['\n'] := not_not.mpr (by simp)
    have hcr : '\n' ∉ body ++ ['\r'] := by simpa using hnl
    rw [fgetsLines] at ih ⊢
    rw [crlf_line hnl, List.flatMap_cons, crlfPieces, if_neg hmem, List.dropLast_concat,
      List.length_append, List.length_singleton]
    by_cases hfits : body.length + 1 + 1 < size
    · rw [if_pos hfits, readPieces_cons hcr (by rw [List.length_append, List.length_singleton]; omega),
        ih, List.append_assoc]
      rfl
    · -- the buffer is full behind the carriage return
      have hroom : size - 2 = body.length := by omega
      rw [if_neg hfits, List.append_assoc, List.singleton_append, hroom, readPieces_full hnl,
        readPieces, if_pos (Or.inl rfl), ih]
      rfl

theorem IsLines.part {size : ℕ} {file line : List Char} {lines : List (List Char)}
    (h : IsLines size file lines) (hmem : line ∈ lines) : line <:+: file := by
  induction h with
  | nil => cases hmem
  | last hne hnl hlen =>
    cases List.mem_singleton.mp hmem
    exact List.infix_rfl
  | @cons body s lines hnl hlen hrest ih =>
    rcases List.mem_cons.mp hmem with rfl | hmem
    · exact ⟨[], s, by simp⟩
    · exact (ih hmem).trans ⟨body ++ ['\n'], [], by simp⟩

theorem IsLines.ends {size : ℕ} {file line : List Char} {lines : List (List Char)}
    (h : IsLines size file lines) (hmem : line ∈ lines) (hnl : '\n' ∈ line) :
    ∃ body, '\n' ∉ body ∧ line = body ++ ['\n'] := by
  induction h with
  | nil => cases hmem
  | last hne hno hlen =>
    rw [List.mem_singleton.mp hmem] at hnl
    exact absurd hnl hno
  | @cons body s lines hno hlen hrest ih =>
    rcases List.mem_cons.mp hmem with rfl | hmem
    · exact ⟨body, hno, rfl⟩
    · exact ih hmem

theorem IsLines.nil_of_not_mem {size : ℕ} {file line : List Char} {lines : List (List Char)}
    (h : IsLines size file (line :: lines)) (hnl : '\n' ∉ line) : lines = [] := by
  cases h with
  | last hne hno hlen => rfl
  | cons hno hlen hrest => exact absurd (by simp) hnl

end DataCommons.CString
