import DataCommons.Params.Safety
import DataCommons.Params.Single

/-!
# The walk of `param_parse_txt`

The loop over the lines and the loop over the parameters as relations: which lines
the call comes to (`Reads`), and which parameters one line is offered to, cut as it is
by then (`Comes`).

* `lineLoop_of_reads`, `paramLoop_of_comes`: from there on the loops go on as if they
  had begun there;
* `parse_of_reject`: a refusal that the walk comes to ends the call;
* `scanParam_of_names`: what a line that names a parameter hands to it.
-/

namespace DataCommons.Params

open CString

variable {F : Type}

/-! ## Lines that name a parameter -/

/-- The line names the parameter: the copy from the first place where the name is found
fits `name` and holds the name before an `=`. -/
structure Names (name line nameStart : Str) : Prop where
  start : strstr line name = some nameStart
  fits : nameStart.length < nameSize
  equals : '=' ∈ nameStart
  key : nameOf nameStart = name

theorem valueText_suffix (s : Str) : valueText s <:+ s :=
  (List.dropWhile_suffix _).trans ((List.drop_suffix _ _).trans (List.dropWhile_suffix _))

/-- What the value found in a line hands on, with the line cut at the value's end. -/
@[simp]
def Value.scan (line : Str) : Value → Scan
  | .value valStart valEnd => .value valStart (line.take (line.length - valEnd.length))
  | .missing => .stop
  | .undefined => .undefined

/-- The search from the place where the name is found. -/
theorem scanParam_found {p : Param F} {line s : Str} (h : strstr line p.name = some s)
    (hfits : s.length < nameSize) :
    scanParam p line =
      if '=' ∉ s then .miss
      else if nameOf s ≠ p.name then .miss
      else (valueOf p.var (valueText s)).scan line := by
  have hs : ¬ s.length ≥ nameSize := not_le.mpr hfits
  rw [scanParam, h]
  simp only [if_neg hs]
  rfl

theorem scanParam_of_names {p : Param F} {line s : Str} (h : Names p.name line s) :
    scanParam p line = (valueOf p.var (valueText s)).scan line := by
  rw [scanParam_found h.start h.fits, if_neg (not_not.mpr h.equals), if_neg (not_not.mpr h.key)]

/-- A short line either gives nothing to a parameter or names it. -/
theorem names_of_scanParam {p : Param F} {l : Str} (hlen : l.length < nameSize)
    (h : scanParam p l ≠ .miss) : ∃ s, Names p.name l s := by
  cases hf : strstr l p.name with
  | none =>
    rw [scanParam, hf] at h
    exact absurd rfl h
  | some s =>
    have hfits : s.length < nameSize := lt_of_le_of_lt (strstr_eq_some hf).1.length_le hlen
    rw [scanParam_found hf hfits] at h
    by_cases heq : '=' ∉ s
    · exact absurd (if_pos heq) h
    rw [if_neg heq] at h
    by_cases hkey : nameOf s ≠ p.name
    · exact absurd (if_pos hkey) h
    exact ⟨s, hf, hfits, not_not.mp heq, not_not.mp hkey⟩

/-- The value has its end: a blank or a newline. -/
def Ended (text : Str) : Prop := ' ' ∈ text ∨ '\n' ∈ text

instance (text : Str) : Decidable (Ended text) := inferInstanceAs (Decidable (_ ∨ _))

/-- The value of a type that is neither a list nor a string. -/
theorem valueOf_word {v : Var F} (hlist : ∀ l, v ≠ .list l) (hstr : ∀ t, v ≠ .str t) (s : Str) :
    (Ended s → ∃ valEnd, valueOf v s = .value (word s) valEnd) ∧
      (¬ Ended s → valueOf v s = .missing) := by
  simp only [valueOf, Ended, word]
  by_cases hb : ' ' ∈ s
  · simp [cutAt_mem hb, hb]
  · by_cases hn : '\n' ∈ s
    · simp [cutAt_not_mem hb, cutAt_mem hn, hb, hn]
    · simp [cutAt_not_mem hb, cutAt_not_mem hn, hb, hn]

/-! ## One line of the loop -/

theorem lineLoop_skip {env : Env F} {line : Str} (hskip : skipped line = true) (ps : List (Param F))
    (lines : List Str) : lineLoop env ps (line :: lines) = lineLoop env ps lines := by
  rw [lineLoop, if_pos hskip]

theorem lineLoop_pass {env : Env F} {line : Str} (hskip : skipped line = false) (ps : List (Param F))
    (lines : List Str) :
    lineLoop env ps (line :: lines) =
      match (paramLoop env ps line).2.2 with
      | .done =>
        ((lineLoop env (paramLoop env ps line).1 lines).1,
          (paramLoop env ps line).2.1 || (lineLoop env (paramLoop env ps line).1 lines).2.1,
          (lineLoop env (paramLoop env ps line).1 lines).2.2)
      | ending => ((paramLoop env ps line).1, (paramLoop env ps line).2.1, ending) := by
  rw [lineLoop, if_neg (by rw [hskip]; exact Bool.false_ne_true)]
  generalize paramLoop env ps line = a
  obtain ⟨qs, found, ending⟩ := a
  cases ending <;> rfl

/-! ## The walk -/

/-- The loop over the parameters comes to `p` with the line `l`: `before` are the
parameters before it, as they are by then, and `rest` the ones behind it. -/
inductive Comes (env : Env F) :
    List (Param F) → Str → List (Param F) → Param F → List (Param F) → Str → Prop
  | here (p : Param F) (rest : List (Param F)) (l : Str) : Comes env (p :: rest) l [] p rest l
  | miss {q p : Param F} {ps before rest : List (Param F)} {line l : Str}
      (hscan : scanParam q line = .miss) (h : Comes env ps line before p rest l) :
      Comes env (q :: ps) line (q :: before) p rest l
  | taken {q q' p : Param F} {ps before rest : List (Param F)} {line s line' l : Str}
      (hscan : scanParam q line = .value s line') (hassign : assign env q s = (q', .done))
      (h : Comes env ps line' before p rest l) : Comes env (q :: ps) line (q' :: before) p rest l

/-- The loop over the lines comes to `line` with the parameters `ps'`, and `rest` are
the lines behind it. -/
inductive Reads (env : Env F) :
    List (Param F) → List Str → List (Param F) → Str → List Str → Prop
  | here {ps : List (Param F)} {line : Str} (rest : List Str) (hskip : skipped line = false) :
      Reads env ps (line :: rest) ps line rest
  | skip {ps ps' : List (Param F)} {lines rest : List Str} {l line : Str}
      (hskip : skipped l = true) (h : Reads env ps lines ps' line rest) :
      Reads env ps (l :: lines) ps' line rest
  | pass {ps ps₁ ps' : List (Param F)} {lines rest : List Str} {l line : Str} {found : Bool}
      (hskip : skipped l = false) (hpass : paramLoop env ps l = (ps₁, found, .done))
      (h : Reads env ps₁ lines ps' line rest) : Reads env ps (l :: lines) ps' line rest

/-- **From a parameter on** the loop goes on as if it had begun there. -/
theorem paramLoop_of_comes {env : Env F} {ps before rest : List (Param F)} {p : Param F}
    {line l : Str} (h : Comes env ps line before p rest l) :
    (paramLoop env ps line).1 = before ++ (paramLoop env (p :: rest) l).1 ∧
      (paramLoop env ps line).2.2 = (paramLoop env (p :: rest) l).2.2 := by
  induction h with
  | here p rest l => exact ⟨rfl, rfl⟩
  | miss hscan _ ih =>
    rw [paramLoop, hscan]
    exact ⟨congrArg (_ :: ·) ih.1, ih.2⟩
  | taken hscan hassign _ ih =>
    rw [paramLoop, hscan]
    simp only [hassign]
    exact ⟨congrArg (_ :: ·) ih.1, ih.2⟩

/-- **From a line on** the loop goes on as if it had begun there. -/
theorem lineLoop_of_reads {env : Env F} {ps ps' : List (Param F)} {lines rest : List Str}
    {line : Str} (h : Reads env ps lines ps' line rest) :
    skipped line = false ∧
      (lineLoop env ps lines).1 = (lineLoop env ps' (line :: rest)).1 ∧
      (lineLoop env ps lines).2.2 = (lineLoop env ps' (line :: rest)).2.2 ∧
      ((lineLoop env ps' (line :: rest)).2.1 = true → (lineLoop env ps lines).2.1 = true) := by
  induction h with
  | here rest hskip => exact ⟨hskip, rfl, rfl, id⟩
  | skip hskip _ ih =>
    rw [lineLoop_skip hskip]
    exact ih
  | pass hskip hpass _ ih =>
    obtain ⟨hline, hps, hend, hfound⟩ := ih
    rw [lineLoop_pass hskip, hpass]
    exact ⟨hline, hps, hend, fun h => by simp only [hfound h, Bool.or_true]⟩

/-- **A refusal that the walk comes to ends the call.** -/
theorem parse_of_reject {env : Env F} {c : ParamCtx F} {filename file line l : Str}
    {lines : List Str} {ps before rest qs : List (Param F)} {p : Param F} {found : Bool}
    {err : ParamError} (htxt : (strstr filename ".txt".toList).isSome)
    (hreads : Reads env c.params (fileLines file) ps line lines)
    (hcomes : Comes env ps line before p rest l)
    (hreject : paramLoop env (p :: rest) l = (qs, found, .reject err)) :
    paramParseTxt env c filename (some file) = some (⟨before ++ qs, err⟩, false) := by
  obtain ⟨hskip, hps, hend, -⟩ := lineLoop_of_reads hreads
  obtain ⟨hpass, hpassEnd⟩ := paramLoop_of_comes hcomes
  rw [hreject] at hpass hpassEnd
  rw [lineLoop_pass hskip, hpassEnd] at hps hend
  rw [hpass] at hps
  rw [paramParseTxt_file htxt]
  generalize lineLoop env c.params (fileLines file) = b at hps hend ⊢
  obtain ⟨ps'', found'', ending'⟩ := b
  dsimp only at hps hend
  subst hps hend
  rfl

/-- What a file does is what the loop over its lines does. -/
theorem parse_congr {env : Env F} {c : ParamCtx F} {filename a b : Str}
    (h : lineLoop env c.params (fileLines a) = lineLoop env c.params (fileLines b)) :
    paramParseTxt env c filename (some a) = paramParseTxt env c filename (some b) := by
  rw [paramParseTxt, paramParseTxt]
  simp only [h]

/-- A file of one line. -/
theorem parse_line {env : Env F} {c : ParamCtx F} {filename l : Str}
    (htxt : (strstr filename ".txt".toList).isSome) (hline : fileLines l = [l])
    (hskip : skipped l = false) :
    paramParseTxt env c filename (some l) =
      match paramLoop env c.params l with
      | (_, _, .undefined) => none
      | (ps, _, .reject err) => some (⟨ps, err⟩, false)
      | (ps, found, .done) =>
        if !found then some (⟨ps, .unknown⟩, false)
        else if ps.any fun p => p.isMandatory && !p.hasChanged then some (⟨ps, .noValue⟩, false)
        else some (⟨ps, c.paramError⟩, true) := by
  rw [paramParseTxt_file htxt, hline, lineLoop_pass hskip]
  generalize paramLoop env c.params l = r
  obtain ⟨ps, found, ending⟩ := r
  cases ending <;> simp [lineLoop]

/-- A file of one line that one pass ends well on, where nothing is missing. -/
theorem parse_alone {env : Env F} {ps qs : List (Param F)} {e : ParamError} {filename l : Str}
    (htxt : (strstr filename ".txt".toList).isSome) (hline : fileLines l = [l])
    (hskip : skipped l = false) (hpass : paramLoop env ps l = (qs, true, .done))
    (hopt : ∀ q ∈ qs, q.isMandatory = true → q.hasChanged = true) :
    paramParseTxt env ⟨ps, e⟩ filename (some l) = some (⟨qs, e⟩, true) := by
  have hany : (qs.any fun q => q.isMandatory && !q.hasChanged) = false := by
    rw [List.any_eq_false]
    intro q hq
    simpa using hopt q hq
  rw [parse_line htxt hline hskip, hpass]
  simp only [Bool.not_true, Bool.false_eq_true, if_false, hany]

/-! ## What the walk meets -/

/-- On the line some parameter is met for which `Q` holds of its place, itself and the
line as it is by then. -/
def MeetsOn (env : Env F) (ps : List (Param F)) (line : Str) (Q : ℕ → Param F → Str → Prop) : Prop :=
  ∃ before p rest l, Comes env ps line before p rest l ∧ Q before.length p l

/-- In the file some parameter is met for which `Q` holds. -/
def Meets (env : Env F) (ps : List (Param F)) (lines : List Str) (Q : ℕ → Param F → Str → Prop) :
    Prop :=
  ∃ ps' line rest, Reads env ps lines ps' line rest ∧ MeetsOn env ps' line Q

section Meets

variable {env : Env F} {Q : ℕ → Param F → Str → Prop}

theorem meetsOn_nil (line : Str) : ¬ MeetsOn env [] line Q := by
  rintro ⟨before, p, rest, l, h, -⟩
  cases h

theorem meetsOn_false (ps : List (Param F)) (line : Str) :
    ¬ MeetsOn env ps line fun _ _ _ => False := by
  rintro ⟨before, p, rest, l, -, h⟩
  exact h

theorem meetsOn_cons (q : Param F) (ps : List (Param F)) (line : Str) :
    MeetsOn env (q :: ps) line Q ↔
      Q 0 q line ∨
        (scanParam q line = .miss ∧ MeetsOn env ps line fun i => Q (i + 1)) ∨
        ∃ s line', scanParam q line = .value s line' ∧ (assign env q s).2 = .done ∧
          MeetsOn env ps line' fun i => Q (i + 1) := by
  constructor
  · rintro ⟨before, p, rest, l, h, hq⟩
    cases h with
    | here => exact Or.inl hq
    | miss hscan h => exact Or.inr (Or.inl ⟨hscan, _, _, _, _, h, hq⟩)
    | taken hscan hassign h =>
      exact Or.inr (Or.inr ⟨_, _, hscan, by rw [hassign], _, _, _, _, h, hq⟩)
  · rintro (hq | ⟨hscan, before, p, rest, l, h, hq⟩ |
      ⟨s, line', hscan, hdone, before, p, rest, l, h, hq⟩)
    · exact ⟨[], q, ps, line, .here q ps line, hq⟩
    · exact ⟨_, _, _, _, .miss hscan h, hq⟩
    · exact ⟨_, _, _, _, .taken hscan (Prod.ext rfl hdone) h, hq⟩

theorem meetsOn_miss {q : Param F} {line : Str} (hscan : scanParam q line = .miss)
    (ps : List (Param F)) :
    MeetsOn env (q :: ps) line Q ↔ Q 0 q line ∨ MeetsOn env ps line fun i => Q (i + 1) := by
  simp [meetsOn_cons, hscan]

theorem meetsOn_value {q : Param F} {line line' s : Str} (hscan : scanParam q line = .value s line')
    (ps : List (Param F)) :
    MeetsOn env (q :: ps) line Q ↔
      Q 0 q line ∨ (assign env q s).2 = .done ∧ MeetsOn env ps line' fun i => Q (i + 1) := by
  simp [meetsOn_cons, hscan, and_assoc]

theorem meets_nil (ps : List (Param F)) : ¬ Meets env ps [] Q := by
  rintro ⟨ps', line, rest, h, -⟩
  cases h

theorem meets_skip {line : Str} (hskip : skipped line = true) (ps : List (Param F))
    (lines : List Str) : Meets env ps (line :: lines) Q ↔ Meets env ps lines Q := by
  constructor
  · rintro ⟨ps', line', rest, h, hon⟩
    cases h with
    | here _ hno => rw [hskip] at hno; cases hno
    | skip _ h => exact ⟨ps', line', rest, h, hon⟩
    | pass hno _ _ => rw [hskip] at hno; cases hno
  · rintro ⟨ps', line', rest, h, hon⟩
    exact ⟨ps', line', rest, .skip hskip h, hon⟩

theorem meets_cons {line : Str} (hskip : skipped line = false) (ps : List (Param F))
    (lines : List Str) :
    Meets env ps (line :: lines) Q ↔
      MeetsOn env ps line Q ∨
        (paramLoop env ps line).2.2 = .done ∧ Meets env (paramLoop env ps line).1 lines Q := by
  constructor
  · rintro ⟨ps', line', rest, h, hon⟩
    cases h with
    | here => exact Or.inl hon
    | skip hno _ => rw [hskip] at hno; cases hno
    | pass _ hpass h =>
      rw [hpass]
      exact Or.inr ⟨rfl, ps', line', rest, h, hon⟩
  · rintro (hon | ⟨hdone, ps', line', rest, h, hon⟩)
    · exact ⟨ps, line, lines, .here lines hskip, hon⟩
    · exact ⟨ps', line', rest, .pass hskip (Prod.ext rfl (Prod.ext rfl hdone)) h, hon⟩

end Meets

/-! ## How the loops end -/

/-- The parameter takes a value from the line and is marked. -/
def Given (env : Env F) (p : Param F) (l : Str) : Prop :=
  ∃ s l', scanParam p l = .value s l' ∧ (assignVar env p.var s).2.2 = true

/-- The parameter refuses what the line gives it. -/
def Refused (env : Env F) (p : Param F) (l : Str) : Prop :=
  ∃ s l' err, scanParam p l = .value s l' ∧ (assign env p s).2 = .reject err

/-- An access for the parameter is undefined. -/
def Faulty (env : Env F) (p : Param F) (l : Str) : Prop :=
  scanParam p l = .undefined ∨ ∃ s l', scanParam p l = .value s l' ∧ (assign env p s).2 = .undefined

/-- The parameter at the place `i` is marked. -/
def Marked (ps : List (Param F)) (i : ℕ) : Prop := ∃ p, ps[i]? = some p ∧ p.hasChanged = true

theorem marked_zero (p : Param F) (ps : List (Param F)) :
    Marked (p :: ps) 0 ↔ p.hasChanged = true := by
  simp [Marked]

theorem marked_succ (p : Param F) (ps : List (Param F)) (i : ℕ) :
    Marked (p :: ps) (i + 1) ↔ Marked ps i := Iff.rfl

section Loops

variable {env : Env F}

theorem paramLoop_value {q : Param F} {line line' s : Str} (hscan : scanParam q line = .value s line')
    (ps : List (Param F)) :
    paramLoop env (q :: ps) line =
      match (assign env q s).2 with
      | .done =>
        ((assign env q s).1 :: (paramLoop env ps line').1, true, (paramLoop env ps line').2.2)
      | ending => ((assign env q s).1 :: ps, true, ending) := by
  rw [paramLoop, hscan]
  dsimp only
  generalize assign env q s = a
  obtain ⟨q', ending⟩ := a
  cases ending <;> rfl

/-- How a pass ends and whether it finds something does not depend on what the
parameters hold. -/
theorem paramLoop_snd_congr {qs ps : List (Param F)} (h : List.Forall₂ Registered qs ps)
    (line : Str) : (paramLoop env qs line).2 = (paramLoop env ps line).2 := by
  induction h generalizing line with
  | nil => rfl
  | @cons q p qs ps hq _ ih =>
    cases hscan : scanParam p line with
    | miss =>
      rw [paramLoop, paramLoop, scanParam_congr hq, hscan]
      exact ih line
    | stop => rw [paramLoop, paramLoop, scanParam_congr hq, hscan]
    | undefined => rw [paramLoop, paramLoop, scanParam_congr hq, hscan]
    | value s line' =>
      have hend : (assign env q s).2 = (assign env p s).2 := assignVar_ending_congr env hq.type s
      rw [paramLoop_value ((scanParam_congr hq line).trans hscan), paramLoop_value hscan, hend]
      cases (assign env p s).2 with
      | done =>
        dsimp only
        rw [ih line']
      | reject err => rfl
      | undefined => rfl

theorem lineLoop_registered (env : Env F) (ps : List (Param F)) (lines : List Str) :
    List.Forall₂ Registered (lineLoop env ps lines).1 ps := by
  induction lines generalizing ps with
  | nil => exact forall₂_registered_refl ps
  | cons line lines ih =>
    cases hskip : skipped line with
    | true =>
      rw [lineLoop_skip hskip]
      exact ih ps
    | false =>
      have hpass := paramLoop_registered env ps line
      rw [lineLoop_pass hskip]
      cases hend : (paramLoop env ps line).2.2 with
      | done => exact forall₂_trans (ih _) hpass Registered.trans
      | reject err => exact hpass
      | undefined => exact hpass

/-- **A pass finds something** when a search in it does not miss. -/
theorem paramLoop_found_iff (ps : List (Param F)) (line : Str) :
    (paramLoop env ps line).2.1 = true ↔
      MeetsOn env ps line fun _ p l => scanParam p l ≠ .miss := by
  induction ps generalizing line with
  | nil => simp [paramLoop, meetsOn_nil]
  | cons q ps ih =>
    cases hscan : scanParam q line with
    | miss => simpa [paramLoop, meetsOn_miss hscan, hscan] using ih line
    | stop => simp [paramLoop, meetsOn_cons, hscan]
    | undefined => simp [paramLoop, meetsOn_cons, hscan]
    | value s line' =>
      rw [paramLoop_value hscan, meetsOn_value hscan]
      cases (assign env q s).2 <;> simp [hscan]

/-- **A pass is undefined** when an access in it is. -/
theorem paramLoop_undefined_iff (ps : List (Param F)) (line : Str) :
    (paramLoop env ps line).2.2 = .undefined ↔ MeetsOn env ps line fun _ p l => Faulty env p l := by
  induction ps generalizing line with
  | nil => simp [paramLoop, meetsOn_nil]
  | cons q ps ih =>
    cases hscan : scanParam q line with
    | miss => simpa [paramLoop, meetsOn_miss hscan, hscan, Faulty] using ih line
    | stop => simp [paramLoop, meetsOn_cons, hscan, Faulty]
    | undefined => simp [paramLoop, meetsOn_cons, hscan, Faulty]
    | value s line' =>
      rw [paramLoop_value hscan, meetsOn_value hscan]
      cases hend : (assign env q s).2 with
      | done => simpa [Faulty, hscan, hend] using ih line'
      | reject err => simp [Faulty, hscan, hend]
      | undefined => simp [Faulty, hscan, hend]

/-- **A pass ends with an error** when a parameter in it refuses its value. -/
theorem paramLoop_reject_iff (ps : List (Param F)) (line : Str) :
    (∃ err, (paramLoop env ps line).2.2 = .reject err) ↔
      MeetsOn env ps line fun _ p l => Refused env p l := by
  induction ps generalizing line with
  | nil => simp [paramLoop, meetsOn_nil]
  | cons q ps ih =>
    cases hscan : scanParam q line with
    | miss => simpa [paramLoop, meetsOn_miss hscan, hscan, Refused] using ih line
    | stop => simp [paramLoop, meetsOn_cons, hscan, Refused]
    | undefined => simp [paramLoop, meetsOn_cons, hscan, Refused]
    | value s line' =>
      rw [paramLoop_value hscan, meetsOn_value hscan]
      cases hend : (assign env q s).2 with
      | done => simpa [Refused, hscan, hend] using ih line'
      | reject err => simp [Refused, hscan, hend]
      | undefined => simp [Refused, hscan, hend]

/-- **A pass marks** what takes a value in it, and unmarks nothing. -/
theorem paramLoop_marked_iff (ps : List (Param F)) (line : Str) (i : ℕ) :
    Marked (paramLoop env ps line).1 i ↔
      Marked ps i ∨ MeetsOn env ps line fun j p l => j = i ∧ Given env p l := by
  induction ps generalizing line i with
  | nil => simp [paramLoop, meetsOn_nil]
  | cons q ps ih =>
    cases hscan : scanParam q line with
    | miss =>
      rw [meetsOn_miss hscan, paramLoop, hscan]
      cases i with
      | zero => simp [marked_zero, Given, hscan, meetsOn_false]
      | succ i => simpa [marked_succ] using ih line i
    | stop => simp [paramLoop, meetsOn_cons, hscan, Given]
    | undefined => simp [paramLoop, meetsOn_cons, hscan, Given]
    | value s line' =>
      have hmark : (assign env q s).1.hasChanged = true ↔
          q.hasChanged = true ∨ Given env q line := by
        simp [assign, Given, hscan]
      rw [paramLoop_value hscan, meetsOn_value hscan]
      cases i with
      | zero =>
        cases hend : (assign env q s).2 <;> simp [marked_zero, hmark, meetsOn_false]
      | succ i =>
        cases hend : (assign env q s).2 with
        | done => simpa [marked_succ] using ih line' i
        | reject err => simp [marked_succ]
        | undefined => simp [marked_succ]

/-- From passes to the loop: what is so of a loop exactly when it is so of one of its
passes. -/
theorem lineLoop_meets_iff {P : List (Param F) × Bool × Ending → Prop}
    {Q : ℕ → Param F → Str → Prop} (hnil : ∀ ps, ¬ P (ps, false, .done))
    (hline : ∀ ps line, P (paramLoop env ps line) ↔ MeetsOn env ps line Q)
    (hpass : ∀ qs found r, P (r.1, found || r.2.1, r.2.2) ↔ P (qs, found, .done) ∨ P r)
    (ps : List (Param F)) (lines : List Str) :
    P (lineLoop env ps lines) ↔ Meets env ps lines Q := by
  induction lines generalizing ps with
  | nil => exact iff_of_false (hnil ps) (meets_nil ps)
  | cons line lines ih =>
    cases hskip : skipped line with
    | true => rw [lineLoop_skip hskip, meets_skip hskip, ih]
    | false =>
      rw [meets_cons hskip, ← hline, ← ih, lineLoop_pass hskip]
      generalize paramLoop env ps line = r
      obtain ⟨qs, found, ending⟩ := r
      cases ending with
      | done => simpa using hpass qs found (lineLoop env qs lines)
      | reject err => simp
      | undefined => simp

/-- **The loop finds something** when a search in it does not miss. -/
theorem lineLoop_found_iff (ps : List (Param F)) (lines : List Str) :
    (lineLoop env ps lines).2.1 = true ↔
      Meets env ps lines fun _ p l => scanParam p l ≠ .miss :=
  @lineLoop_meets_iff F env (fun r => r.2.1 = true) _ (by simp) paramLoop_found_iff (by simp) ps lines

/-- **The loop is undefined** when an access in it is. -/
theorem lineLoop_undefined_iff (ps : List (Param F)) (lines : List Str) :
    (lineLoop env ps lines).2.2 = .undefined ↔
      Meets env ps lines fun _ p l => Faulty env p l :=
  @lineLoop_meets_iff F env (fun r => r.2.2 = .undefined) _ (by simp) paramLoop_undefined_iff (by simp)
    ps lines

/-- **The loop ends with an error** when a parameter in it refuses its value. -/
theorem lineLoop_reject_iff (ps : List (Param F)) (lines : List Str) :
    (∃ err, (lineLoop env ps lines).2.2 = .reject err) ↔
      Meets env ps lines fun _ p l => Refused env p l :=
  @lineLoop_meets_iff F env (fun r => ∃ err, r.2.2 = .reject err) _ (by simp) paramLoop_reject_iff
    (by simp) ps lines

/-- **The loop marks** what takes a value in it, and unmarks nothing. -/
theorem lineLoop_marked_iff (ps : List (Param F)) (lines : List Str) (i : ℕ) :
    Marked (lineLoop env ps lines).1 i ↔
      Marked ps i ∨ Meets env ps lines fun j p l => j = i ∧ Given env p l := by
  induction lines generalizing ps with
  | nil => simp [lineLoop, meets_nil]
  | cons line lines ih =>
    cases hskip : skipped line with
    | true => rw [lineLoop_skip hskip, meets_skip hskip, ih]
    | false =>
      have hpass := @paramLoop_marked_iff F env ps line i
      rw [meets_cons hskip, lineLoop_pass hskip, ← or_assoc, ← hpass]
      cases hend : (paramLoop env ps line).2.2 with
      | done => simpa using ih (paramLoop env ps line).1
      | reject err => simp
      | undefined => simp

end Loops

end DataCommons.Params
