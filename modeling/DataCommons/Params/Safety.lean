import DataCommons.Params.Frame

/-!
# Scanning a line

What `param_parse_txt` does with a line, without what it stores: the copy into
`name`, the pointers that `strstr` gives, and the loop over hexadecimal digits, which
ends only if its two-character rounds meet `val_end`.

* `hexEnds_iff`: the loop ends exactly for an even number of digits;
* `scanEnds_of_paramLoop`: a line with a defined end was scanned without fault;
* `harmless_iff`: what one parameter must find in the line;
* `lineScans_iff`: scanning is well defined and ends exactly if every parameter that
  the loop reaches finds that.
-/

namespace DataCommons.Params

open CString

variable {F : Type}

/-! ## The hexadecimal loop -/

/-- `while (val_start != val_end)` with `val_start += 2` comes to its end. -/
inductive HexEnds : ℕ → ℕ → Prop
  | stop (valEnd : ℕ) : HexEnds valEnd valEnd
  | round {valStart valEnd : ℕ} (hne : valStart ≠ valEnd) (hrest : HexEnds (valStart + 2) valEnd) :
      HexEnds valStart valEnd

theorem HexEnds.exists_rounds {valStart valEnd : ℕ} (h : HexEnds valStart valEnd) :
    ∃ n, valStart + 2 * n = valEnd := by
  induction h with
  | stop valEnd => exact ⟨0, rfl⟩
  | round hne hrest ih =>
    obtain ⟨n, hn⟩ := ih
    exact ⟨n + 1, by omega⟩

theorem hexEnds_rounds (n valStart : ℕ) : HexEnds valStart (valStart + 2 * n) := by
  induction n generalizing valStart with
  | zero => exact HexEnds.stop _
  | succ n ih =>
    refine HexEnds.round (by omega) ?_
    rw [show valStart + 2 * (n + 1) = valStart + 2 + 2 * n by omega]
    exact ih (valStart + 2)

/-- **The loop ends exactly for an even number of digits.** -/
theorem hexEnds_iff (n : ℕ) : HexEnds 0 n ↔ n % 2 = 0 := by
  constructor
  · intro h
    obtain ⟨k, hk⟩ := h.exists_rounds
    omega
  · intro h
    have hrounds := hexEnds_rounds (n / 2) 0
    rwa [show 0 + 2 * (n / 2) = n by omega] at hrounds

theorem even_of_binLoop (env : Env F) {digits : Str} (bytes : List UInt8)
    (h : (binLoop env digits bytes).2 ≠ .undefined) : digits.length % 2 = 0 := by
  fun_induction binLoop env digits bytes with
  | case1 => rfl
  | case2 => exact absurd rfl h
  | case3 => exact absurd rfl h
  | case4 => exact absurd rfl h
  | case5 a b digits byte bytes n hn rest ending hrec ih =>
    rw [hrec] at ih
    have := ih h
    simp only [List.length_cons]
    omega

/-! ## The line -/

def rejects (env : Env F) (v : Var F) (valStart : Str) : Bool :=
  match (assignVar env v valStart).2.1 with
  | .reject _ => true
  | _ => false

/-- What the `switch` scans itself: the digits of a binary value that is not too
long. -/
def SwitchEnds (v : Var F) (valStart : Str) : Prop :=
  match v with
  | .binary _ =>
    (binDigits valStart).length / 2 > maxBin ∨ HexEnds 0 (binDigits valStart).length
  | _ => True

/-- The loop over the parameters, without what is stored, is well defined and ends. -/
def ScanEnds (env : Env F) : List (Param F) → Str → Prop
  | [], _ => True
  | p :: ps, line =>
    match scanParam p line with
    | .miss => ScanEnds env ps line
    | .stop => True
    | .undefined => False
    | .value valStart line =>
      SwitchEnds p.var valStart ∧ (rejects env p.var valStart = false → ScanEnds env ps line)

/-- Scanning a line is well defined and ends; some lines are skipped. -/
def LineScans (env : Env F) (ps : List (Param F)) (line : Str) : Prop :=
  skipped line = true ∨ ScanEnds env ps line

theorem switchEnds_of_assignVar {env : Env F} {v : Var F} {valStart : Str}
    (h : (assignVar env v valStart).2.1 ≠ .undefined) : SwitchEnds v valStart := by
  cases v with
  | binary bytes =>
    rw [assignVar] at h
    by_cases hlong : (binDigits valStart).length / 2 > maxBin
    · exact Or.inl hlong
    · rw [if_neg hlong] at h
      exact Or.inr ((hexEnds_iff _).mpr (even_of_binLoop env bytes h))
  | _ => trivial

/-- **A line with a defined end was scanned without fault.** -/
theorem scanEnds_of_paramLoop {env : Env F} {ps : List (Param F)} {line : Str}
    (h : (paramLoop env ps line).2.2 ≠ .undefined) : ScanEnds env ps line := by
  induction ps generalizing line with
  | nil => trivial
  | cons p ps ih =>
    rw [paramLoop] at h
    rw [ScanEnds]
    cases hscan : scanParam p line with
    | miss =>
      simp only [hscan] at h
      exact ih h
    | stop => trivial
    | undefined => simp [hscan] at h
    | value valStart line' =>
      simp only [hscan, assign] at h
      refine ⟨@switchEnds_of_assignVar _ env _ _ fun hbad => ?_, fun hgo => ?_⟩
      · simp [hbad] at h
      · simp only [rejects] at hgo
        generalize assignVar env p.var valStart = res at h hgo
        obtain ⟨v, ending, taken⟩ := res
        cases ending with
        | done => exact ih h
        | reject err => cases hgo
        | undefined => exact absurd rfl h

/-! ## What a parameter finds -/

/-- The text after the `=` and its blanks. -/
def valueText (nameStart : Str) : Str :=
  ((nameStart.dropWhile (· ≠ '=')).drop 1).dropWhile (· = ' ')

/-- The text up to the first blank, or else up to the newline. -/
def word (text : Str) : Str :=
  if ' ' ∈ text then text.takeWhile (· ≠ ' ') else text.takeWhile (· ≠ '\n')

/-- A text after `=` that can be scanned for a value: a list has its bracket, a string
has a character, and a binary value has two digits for each byte. -/
def Shaped (v : Var F) (text : Str) : Prop :=
  match v with
  | .list _ => ']' ∈ text
  | .str _ => text ≠ []
  | .binary _ =>
    ' ' ∈ text ∨ '\n' ∈ text → (binDigits (word text)).length / 2 > maxBin ∨
      (binDigits (word text)).length % 2 = 0
  | _ => True

/-- Where the line has the name, the rest fits `name`, and where the name stands before
an `=`, the value can be scanned. -/
def Harmless (p : Param F) (line : Str) : Prop :=
  ∀ nameStart, strstr line p.name = some nameStart → nameStart.length < nameSize ∧
    ('=' ∈ nameStart → nameOf nameStart = p.name → Shaped p.var (valueText nameStart))

theorem cutAt_mem {c : Char} {s : Str} (h : c ∈ s) :
    cutAt c s = some (s.takeWhile (· ≠ c), s.dropWhile (· ≠ c)) := if_pos h

theorem cutAt_not_mem {c : Char} {s : Str} (h : c ∉ s) : cutAt c s = none := if_neg h

/-- A text can be scanned exactly if the search for the value is defined and the
`switch` comes to its end on it. -/
theorem shaped_iff (v : Var F) (text : Str) :
    Shaped v text ↔ valueOf v text ≠ .undefined ∧
      ∀ valStart valEnd, valueOf v text = .value valStart valEnd → SwitchEnds v valStart := by
  cases v with
  | list l =>
    by_cases h : ']' ∈ text
    · simp [Shaped, valueOf, cutAt_mem h, h, SwitchEnds]
    · simp [Shaped, valueOf, cutAt_not_mem h, h]
  | str s =>
    cases text with
    | nil => simp [Shaped, valueOf]
    | cons c text =>
      simp only [Shaped, ne_eq, reduceCtorEq, not_false_eq_true, valueOf, true_iff, SwitchEnds,
        implies_true, and_true]
      by_cases h : '"' ∈ text
      · simp [cutAt_mem h]
      · simp [cutAt_not_mem h]
  | binary bytes =>
    simp only [Shaped, valueOf, SwitchEnds, hexEnds_iff]
    by_cases hb : ' ' ∈ text
    · simp [cutAt_mem hb, hb, word]
    · by_cases hn : '\n' ∈ text
      · simp [cutAt_not_mem hb, cutAt_mem hn, hb, hn, word]
      · simp [cutAt_not_mem hb, cutAt_not_mem hn, hb, hn]
  | _ =>
    simp only [Shaped, valueOf, SwitchEnds, true_iff, implies_true, and_true]
    by_cases hb : ' ' ∈ text
    · simp [cutAt_mem hb]
    · by_cases hn : '\n' ∈ text
      · simp [cutAt_not_mem hb, cutAt_mem hn]
      · simp [cutAt_not_mem hb, cutAt_not_mem hn]

/-- **One parameter is scanned without fault exactly if** the line is harmless to
it. -/
theorem harmless_iff (p : Param F) (line : Str) :
    Harmless p line ↔ scanParam p line ≠ .undefined ∧
      ∀ valStart l, scanParam p line = .value valStart l → SwitchEnds p.var valStart := by
  rw [Harmless, scanParam]
  cases hf : strstr line p.name with
  | none => simp
  | some s =>
    simp only [Option.some.injEq, forall_eq']
    by_cases hlen : s.length ≥ nameSize
    · simp [hlen, not_lt.mpr hlen]
    rw [if_neg hlen]
    by_cases heq : '=' ∉ s
    · simp [heq, not_le.mp hlen]
    rw [if_neg heq]
    by_cases hname : nameOf s ≠ p.name
    · simp [hname, not_le.mp hlen]
    rw [if_neg hname]
    simp only [not_le.mp hlen, not_not.mp heq, not_not.mp hname, forall_true_left, true_and,
      shaped_iff, valueText]
    cases valueOf p.var (((s.dropWhile (· ≠ '=')).drop 1).dropWhile (· = ' ')) <;> simp

/-- The parameters that the loop comes to, each with the line as it is cut by then. -/
def reached (env : Env F) : List (Param F) → Str → List (Param F × Str)
  | [], _ => []
  | p :: ps, line =>
    (p, line) ::
      match scanParam p line with
      | .miss => reached env ps line
      | .value valStart line =>
        if rejects env p.var valStart then [] else reached env ps line
      | _ => []

theorem scanEnds_iff (env : Env F) (ps : List (Param F)) (line : Str) :
    ScanEnds env ps line ↔ ∀ r ∈ reached env ps line, Harmless r.1 r.2 := by
  induction ps generalizing line with
  | nil => simp [ScanEnds, reached]
  | cons p ps ih =>
    rw [ScanEnds, reached, List.forall_mem_cons, harmless_iff]
    cases hscan : scanParam p line with
    | miss => simp [ih]
    | stop => simp
    | undefined => simp
    | value valStart line' =>
      cases hrej : rejects env p.var valStart with
      | true => simp [hrej]
      | false => simp [hrej, ih]

/-- A line that starts with the name of the first parameter must fit `name`. -/
theorem fits_of_lineScans {env : Env F} {p : Param F} {ps : List (Param F)} {line : Str}
    (h : LineScans env (p :: ps) line) (hskip : skipped line = false) (hname : p.name <+: line) :
    line.length < nameSize := by
  have hends := h.resolve_left (by simp [hskip])
  exact ((scanEnds_iff env (p :: ps) line).mp hends (p, line) List.mem_cons_self line
    (strstr_at_start hname)).1

/-- A list of integers and a binary variable. -/
def listAndBin : List (Param Unit) :=
  [⟨"PLIST".toList, "a list".toList, true, false, .list (.int [])⟩,
    ⟨"PBIN".toList, "a binary".toList, true, false, .binary [0, 0]⟩]

end DataCommons.Params
