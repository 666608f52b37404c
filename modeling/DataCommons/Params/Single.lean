import DataCommons.Params.RoundTrip

/-!
# A file with one parameter

`param_parse_txt` looks for a name anywhere in any piece that `fgets` gives it, so
a file with one written line could be read in odd ways.  It is not: with no `=` in
the value, the parameter takes something only from its own line, read whole
(`own_line_of_hit`), and the line is read whole exactly if the name is `Readable`
and the line fits `name` (`lineLoop_single`).  `Restores` is the property of saving
and reading back that the results about one parameter share; `not_restores` and
`restores_of_value` are the two ways to settle it.
-/

namespace DataCommons.Params

open CString

variable {F : Type}

/-- A name that the parser finds at the start of its line. -/
structure Readable (name : Str) : Prop where
  chars : ∀ c ∈ name, c ≠ '=' ∧ c ≠ ' ' ∧ c ≠ '\n'
  head : name.head? ≠ some '#'

theorem Readable.unsplit {name : Str} (h : Readable name) : ∀ c ∈ name, c ≠ '=' ∧ c ≠ ' ' :=
  fun c hc => ⟨(h.chars c hc).1, (h.chars c hc).2.1⟩

theorem readable_of_all {name : Str}
    (h : (name.all fun c => c ≠ '=' ∧ c ≠ ' ' ∧ c ≠ '\n') = true) (hhead : name.head? ≠ some '#') :
    Readable name :=
  ⟨fun c hc => of_decide_eq_true (List.all_eq_true.mp h c hc), hhead⟩

/-- After `param_save_txt`, whatever the variables and marks are then, parsing the
written file returns `true` and gives all variables back. -/
def Restores (env : Env F) (c : ParamCtx F) (filename : Str) : Prop :=
  ∃ file, paramSaveTxt env c true = some (some file, true) ∧
    ∀ c' : ParamCtx F, List.Forall₂ Registered c'.params c.params →
      ∃ c₂, paramParseTxt env c' filename (some file) = some (c₂, true) ∧
        c₂.params.map Param.var = c.params.map Param.var

/-! ## The hit -/

theorem nameOf_start (s : Str) : nameOf s <+: s.takeWhile (· ≠ '=') := by
  rw [nameOf]
  cases s.takeWhile (· ≠ '=') with
  | nil => exact List.prefix_rfl
  | cons c cs => exact List.cons_prefix_cons.mpr ⟨rfl, List.takeWhile_prefix _⟩

/-- The name in the copy has no `=` and, behind its first character, no blank. -/
theorem nameOf_chars (s : Str) :
    (∀ c ∈ nameOf s, c ≠ '=') ∧ ∀ c ∈ (nameOf s).drop 1, c ≠ ' ' := by
  constructor
  · intro c hc
    exact of_decide_eq_true
      (List.mem_takeWhile_imp (p := fun x => decide (x ≠ '=')) ((nameOf_start s).subset hc))
  · rw [nameOf]
    cases s.takeWhile (· ≠ '=') with
    | nil => simp
    | cons c cs =>
      intro d hd
      exact of_decide_eq_true (List.mem_takeWhile_imp (p := fun x => decide (x ≠ ' ')) hd)

/-- Where the search stops at all, the piece has the name in front of an `=`. -/
theorem scanParam_hit {q : Param F} {l : Str} (hm : scanParam q l ≠ .miss)
    (hu : scanParam q l ≠ .undefined) :
    ∃ s, s <:+ l ∧ s.length < nameSize ∧ '=' ∈ s ∧ nameOf s = q.name := by
  rw [scanParam] at hm hu
  cases hf : strstr l q.name with
  | none => simp [hf] at hm
  | some s =>
    simp only [hf] at hm hu
    by_cases h₁ : s.length ≥ nameSize
    · exact absurd (if_pos h₁) hu
    rw [if_neg h₁] at hm
    by_cases h₂ : '=' ∉ s
    · exact absurd (if_pos h₂) hm
    rw [if_neg h₂] at hm
    by_cases h₃ : nameOf s ≠ q.name
    · exact absurd (if_pos h₃) hm
    exact ⟨s, (strstr_eq_some hf).1, not_le.mp h₁, not_not.mp h₂, not_not.mp h₃⟩

theorem split_unique {c : Char} {a b a' b' : Str} (h : a ++ c :: b = a' ++ c :: b')
    (ha : c ∉ a) (ha' : c ∉ a') : a = a' ∧ b = b' := by
  have h₁ := cutAt_append ha b
  rw [h, cutAt_append ha' b'] at h₁
  simpa [eq_comm] using h₁

/-- The text before the only `=` of the file. -/
theorem before_only_eq {name value a t r : Str} (hname : '=' ∉ name) (hvalue : '=' ∉ value)
    (h : a ++ (t ++ '=' :: r) = name ++ '=' :: value) (ht : '=' ∉ t) : a ++ t = name := by
  have ha : '=' ∉ a := by
    intro ha
    obtain ⟨x, y, rfl, hx⟩ := List.eq_append_cons_of_mem ha
    rw [List.append_assoc, List.cons_append] at h
    obtain ⟨-, hy⟩ := split_unique h hx hname
    exact hvalue (hy ▸ by simp)
  rw [← List.append_assoc] at h
  exact (split_unique h (by simp [ha, ht]) hname).1

/-- A piece with the whole name in front of an `=` is the first of the file. -/
theorem piece_at_start {name value a t r : Str} (hname : '=' ∉ name) (hvalue : '=' ∉ value)
    (hmem : a ++ (t ++ '=' :: r) ∈ fileLines (name ++ '=' :: value)) (ht : '=' ∉ t)
    (hle : name.length ≤ t.length) : a = [] ∧ t = name ∧
      ∃ post, readPieces lineSize (lineSize - 2) (name ++ '=' :: value) =
        (name ++ '=' :: r) :: post := by
  rw [fileLines, fgetsLines] at hmem
  obtain ⟨pre, post, hsplit⟩ := List.append_of_mem hmem
  have hfile := readPieces_flatten lineSize (lineSize - 2) (name ++ '=' :: value)
  rw [hsplit, List.flatten_append, List.flatten_cons] at hfile
  have hbefore : (pre.flatten ++ a) ++ t = name := by
    refine before_only_eq (r := r ++ post.flatten) hname hvalue ?_ ht
    rw [← hfile]
    simp only [List.append_assoc, List.cons_append]
  have hlens := congrArg List.length hbefore
  simp only [List.length_append] at hlens
  have hpre : pre.flatten = [] := List.length_eq_zero_iff.mp (by omega)
  have ha : a = [] := List.length_eq_zero_iff.mp (by omega)
  have hnil : pre = [] := by
    cases pre with
    | nil => rfl
    | cons x xs =>
      have hx : x ∈ readPieces lineSize (lineSize - 2) (name ++ '=' :: value) := by simp [hsplit]
      exact absurd (List.append_eq_nil_iff.mp hpre).1 (ne_nil_of_mem_readPieces hx)
  rw [hpre, ha, List.nil_append, List.nil_append] at hbefore
  rw [hnil, ha, hbefore, List.nil_append, List.nil_append] at hsplit
  exact ⟨ha, hbefore, post, hsplit⟩

/-- The first piece, where it is short, ends with the only newline of the file. -/
theorem short_piece_whole {name value r : Str} {post : List Str} (hnl : '\n' ∉ value)
    (hsplit : readPieces lineSize (lineSize - 2) (name ++ '=' :: (value ++ ['\n'])) =
      (name ++ '=' :: r) :: post) (hlen : (name ++ '=' :: r).length < nameSize) :
    '\n' ∉ name ∧ name ++ '=' :: r = name ++ '=' :: (value ++ ['\n']) := by
  have hfile := readPieces_flatten lineSize (lineSize - 2) (name ++ '=' :: (value ++ ['\n']))
  rw [hsplit, List.flatten_cons] at hfile
  rcases readPieces_first hsplit (by simp only [lineSize, nameSize] at hlen ⊢; omega) with
    ⟨-, hno⟩ | ⟨p, hp, hpnl⟩
  · exact absurd (by simp) hno
  · have hname : '\n' ∉ name := by
      intro hmem
      obtain ⟨x, y, hxy, hx⟩ := List.eq_append_cons_of_mem hmem
      rw [hxy, List.append_assoc, List.cons_append] at hp
      have := (split_unique hp hx hpnl).2
      simp at this
    refine ⟨hname, ?_⟩
    rw [hp, List.append_assoc, List.singleton_append, ← List.cons_append, ← List.append_assoc]
      at hfile
    obtain ⟨hpv, -⟩ := split_unique hfile hpnl (by simp [hname, hnl])
    rw [hp, hpv, List.append_assoc, List.cons_append]

/-- The name of a line that is not skipped. -/
theorem readable_of_line {name rest : Str} (hskip : skipped (name ++ '=' :: rest) = false)
    (hchars : ∀ c ∈ name, c ≠ '=') (hblank : ∀ c ∈ name.drop 1, c ≠ ' ') (hnl : '\n' ∉ name) :
    Readable name := by
  have hhead : ∀ c, name.head? = some c → (name ++ '=' :: rest).head? = some c := by
    intro c hc
    rw [List.head?_append, hc, Option.some_or]
  simp only [skipped, Bool.or_eq_false_iff, decide_eq_false_iff_not] at hskip
  refine ⟨fun c hc => ⟨hchars c hc, ?_, fun e => hnl (e ▸ hc)⟩, fun hh => ?_⟩
  · rintro rfl
    cases hn : name with
    | nil => simp [hn] at hc
    | cons d ds =>
      rw [hn] at hc hblank hhead hskip
      rcases List.mem_cons.mp hc with rfl | hc
      · exact hskip.1.2 (hhead ' ' rfl)
      · exact hblank ' ' hc rfl
  · exact hskip.1.1 (hhead '#' hh)

/-- **A hit is on the parameter's own line, read whole.** -/
theorem own_line_of_hit {q : Param F} {value l : Str} (heq : '=' ∉ value) (hnl : '\n' ∉ value)
    (hmem : l ∈ fileLines (q.name ++ '=' :: (value ++ ['\n']))) (hskip : skipped l = false)
    (hm : scanParam q l ≠ .miss) (hu : scanParam q l ≠ .undefined) :
    Readable q.name ∧ l = q.name ++ '=' :: (value ++ ['\n']) ∧ l.length < nameSize := by
  obtain ⟨s, ⟨a, rfl⟩, hlen, hs, hname⟩ := scanParam_hit hm hu
  obtain ⟨hchars, hblank⟩ := nameOf_chars s
  have hle := (nameOf_start s).length_le
  obtain ⟨t, r, rfl, ht⟩ := List.eq_append_cons_of_mem hs
  rw [hname] at hchars hblank hle
  rw [takeWhile_of_split ht] at hle
  have hnoeq : '=' ∉ q.name := fun h => hchars _ h rfl
  have heq' : '=' ∉ value ++ ['\n'] := by simp [heq]
  obtain ⟨rfl, rfl, post, hsplit⟩ := piece_at_start hnoeq heq' hmem ht hle
  rw [List.nil_append] at hskip ⊢
  obtain ⟨hnl', hwhole⟩ := short_piece_whole hnl hsplit hlen
  exact ⟨readable_of_line hskip hchars hblank hnl', hwhole, hlen⟩

/-! ## One parameter -/

/-- Where something is found in a file and the loop ends well, a piece is a hit. -/
theorem hit_of_found {env : Env F} {q : Param F} {lines : List Str} {ps : List (Param F)}
    (h : lineLoop env [q] lines = (ps, true, .done)) :
    ∃ l ∈ lines, skipped l = false ∧ scanParam q l ≠ .miss ∧ scanParam q l ≠ .undefined := by
  induction lines with
  | nil => simp [lineLoop] at h
  | cons l lines ih =>
    rw [lineLoop] at h
    by_cases hs : skipped l = true
    · rw [if_pos hs] at h
      obtain ⟨l', hl', hit⟩ := ih h
      exact ⟨l', List.mem_cons_of_mem l hl', hit⟩
    · rw [if_neg hs] at h
      cases hscan : scanParam q l with
      | miss =>
        have hrest : lineLoop env [q] lines = (ps, true, .done) := by
          simp only [paramLoop, hscan] at h
          generalize lineLoop env [q] lines = res at h ⊢
          obtain ⟨ps', found, ending⟩ := res
          rwa [Bool.false_or] at h
        obtain ⟨l', hl', hit⟩ := ih hrest
        exact ⟨l', List.mem_cons_of_mem l hl', hit⟩
      | undefined => simp [paramLoop, hscan] at h
      | stop => exact ⟨l, List.mem_cons_self, by simpa using hs, by simp [hscan], by simp [hscan]⟩
      | value v l' =>
        exact ⟨l, List.mem_cons_self, by simpa using hs, by simp [hscan], by simp [hscan]⟩

theorem paramParseTxt_true {env : Env F} {c c₂ : ParamCtx F} {filename file : Str}
    (h : paramParseTxt env c filename (some file) = some (c₂, true)) :
    lineLoop env c.params (fileLines file) = (c₂.params, true, .done) := by
  rw [paramParseTxt] at h
  split at h
  · simp at h
  · split at h
    · cases h
    · simp at h
    · next ps found hloop =>
      split at h
      · simp at h
      · next hfound =>
        split at h
        · simp at h
        · cases h
          rw [hloop]
          simpa using hfound

section Line

variable {env : Env F} {p q : Param F} {value : Str}

theorem skipped_readable {name : Str} (h : Readable name) (s : Str) :
    skipped (name ++ '=' :: s) = false := by
  cases name with
  | nil => rfl
  | cons c cs =>
    obtain ⟨-, hb, hnl⟩ := h.chars c List.mem_cons_self
    have hh : c ≠ '#' := fun e => h.head (by rw [e]; rfl)
    simp [skipped, hb, hnl, hh]

/-- A line that fits and ends with its only newline is read whole. -/
theorem fileLines_line {body : Str} (hnl : '\n' ∉ body) (hlen : body.length < lineSize - 1) :
    fileLines (body ++ ['\n']) = [body ++ ['\n']] := by
  rw [fileLines]
  exact fgetsLines_of_isLines (.cons hnl (by omega) .nil)

/-- **On its own line the parameter meets its value**, and nothing else is read. -/
theorem lineLoop_single (env : Env F) (hname : Readable q.name) (hnl : '\n' ∉ value)
    (hlen : (q.name ++ '=' :: (value ++ ['\n'])).length < nameSize) :
    lineLoop env [q] (fileLines (q.name ++ '=' :: (value ++ ['\n'])))
      = paramLoop env [q] (q.name ++ '=' :: (value ++ ['\n'])) := by
  have hbody : q.name ++ '=' :: (value ++ ['\n']) = (q.name ++ '=' :: value) ++ ['\n'] := by
    rw [List.append_assoc, List.cons_append]
  have hno : '\n' ∉ q.name ++ '=' :: value := by
    simpa [hnl] using fun h => (hname.chars _ h).2.2 rfl
  have hlines : fileLines (q.name ++ '=' :: (value ++ ['\n']))
      = [q.name ++ '=' :: (value ++ ['\n'])] := by
    rw [hbody] at hlen ⊢
    rw [List.length_append] at hlen
    exact fileLines_line hno (by simp only [nameSize, lineSize] at hlen ⊢; omega)
  rw [hlines, lineLoop, if_neg (by simp [skipped_readable hname])]
  generalize paramLoop env [q] _ = res
  obtain ⟨ps, found, ending⟩ := res
  cases ending <;> simp [lineLoop]

theorem paramSaveTxt_single {c : ParamCtx F} (hc : c.params = [p]) {file : Str}
    (h : paramSaveTxt env c true = some (some file, true)) : file = saveLine env p := by
  simp only [paramSaveTxt, hc, List.isEmpty_cons, Bool.false_eq_true, if_false, Bool.not_true,
    saveLoop] at h
  split at h
  · simp at h
  · simpa [eq_comm] using h

theorem forall₂_registered_refl (ps : List (Param F)) : List.Forall₂ Registered ps ps :=
  List.forall₂_same.mpr fun p _ => Registered.refl p

/-- **A context of one parameter is restored only from a readable line.** -/
theorem not_restores {c : ParamCtx F} {filename : Str} (hc : c.params = [p])
    (hsave : saveLine env p = p.name ++ '=' :: (value ++ ['\n'])) (heq : '=' ∉ value)
    (hnl : '\n' ∉ value) (h : ¬ (Readable p.name ∧ (saveLine env p).length < nameSize)) :
    ¬ Restores env c filename := by
  rintro ⟨file, hfile, hparse⟩
  obtain ⟨c₂, htrue, -⟩ := hparse c (forall₂_registered_refl c.params)
  have hloop := paramParseTxt_true htrue
  rw [paramSaveTxt_single hc hfile, hc, hsave] at hloop
  obtain ⟨l, hl, hskip, hm, hu⟩ := hit_of_found hloop
  obtain ⟨hname, rfl, hlen⟩ := own_line_of_hit heq hnl hl hskip hm hu
  exact h ⟨hname, hsave ▸ hlen⟩

theorem parse_single {c c' c₂ : ParamCtx F} {filename file : Str} (hc : c.params = [p])
    (hsave : saveLine env p = p.name ++ '=' :: (value ++ ['\n'])) (hnl : '\n' ∉ value)
    (hname : Readable p.name) (hlen : (saveLine env p).length < nameSize)
    (hfile : paramSaveTxt env c true = some (some file, true)) (hq : Registered q p)
    (hc' : c'.params = [q]) (htrue : paramParseTxt env c' filename (some file) = some (c₂, true)) :
    paramLoop env [q] (q.name ++ '=' :: (value ++ ['\n'])) = (c₂.params, true, .done) := by
  have hloop := paramParseTxt_true htrue
  rw [paramSaveTxt_single hc hfile, hc', hsave, ← hq.name] at hloop
  rw [hsave, ← hq.name] at hlen
  rw [← lineLoop_single env (hq.name ▸ hname) hnl hlen]
  exact hloop

/-- **Enough to restore one parameter**: whatever it holds, its line gives it the
value that was saved. -/
theorem restores_of_value {c : ParamCtx F} {filename : Str} (hc : c.params = [p])
    (hrefuse : refusesSave p = false)
    (hsave : saveLine env p = p.name ++ '=' :: (value ++ ['\n'])) (hnl : '\n' ∉ value)
    (hname : Readable p.name) (hlen : (saveLine env p).length < nameSize)
    (htxt : (strstr filename ".txt".toList).isSome)
    (hval : ∀ q : Param F, Registered q p → ∃ text e,
      valueOf q.var ((value ++ ['\n']).dropWhile (· = ' ')) = .value text e ∧
        assignVar env q.var text = (p.var, .done, true)) :
    Restores env c filename := by
  refine ⟨saveLine env p, ?_, fun c' hreg => ?_⟩
  · simp only [paramSaveTxt, hc, List.isEmpty_cons, Bool.false_eq_true, if_false, Bool.not_true,
      saveLoop, hrefuse, List.append_nil]
  · rw [hc] at hreg
    obtain ⟨q, qs, hq, hqs, hc'⟩ := List.forall₂_cons_right_iff.mp hreg
    rw [List.forall₂_nil_right_iff.mp hqs] at hc'
    obtain ⟨text, e, hv, ha⟩ := hval q hq
    have hlen' : (q.name ++ '=' :: (value ++ ['\n'])).length < nameSize := by
      rw [hq.name, ← hsave]
      exact hlen
    have hloop := lineLoop_single env (hq.name ▸ hname) hnl hlen'
    rw [paramLoop, scanParam_line (Readable.unsplit (hq.name ▸ hname)) hlen', hv] at hloop
    simp only [assign, ha, paramLoop, Bool.or_true] at hloop
    refine ⟨⟨[{ q with var := p.var, hasChanged := true }], c'.paramError⟩, ?_, by simp [hc]⟩
    simp only [paramParseTxt_file htxt, hsave, hc', ← hq.name, hloop, Bool.not_true, List.any_cons,
      Bool.and_false, List.any_nil, Bool.or_false, Bool.false_eq_true, if_false]

/-- **Enough not to restore it**: for some state of the parameter its line gives it
another value, or none. -/
theorem not_restores_of_value {c : ParamCtx F} {filename : Str} (hc : c.params = [p])
    (hsave : saveLine env p = p.name ++ '=' :: (value ++ ['\n'])) (hnl : '\n' ∉ value)
    (hname : Readable p.name) (hlen : (saveLine env p).length < nameSize) (hq : Registered q p)
    (hval : ∀ text e, valueOf q.var ((value ++ ['\n']).dropWhile (· = ' ')) = .value text e →
      (assignVar env q.var text).1 ≠ p.var ∨ (assignVar env q.var text).2.1 ≠ .done)
    (hmissing : valueOf q.var ((value ++ ['\n']).dropWhile (· = ' ')) ≠ .missing) :
    ¬ Restores env c filename := by
  rintro ⟨file, hfile, hparse⟩
  obtain ⟨c₂, htrue, hvars⟩ := hparse ⟨[q], c.paramError⟩ (hc ▸ .cons hq .nil)
  have hloop := parse_single hc hsave hnl hname hlen hfile hq rfl htrue
  have hlen' : (q.name ++ '=' :: (value ++ ['\n'])).length < nameSize := by
    rw [hq.name, ← hsave]
    exact hlen
  rw [paramLoop, scanParam_line (Readable.unsplit (hq.name ▸ hname)) hlen'] at hloop
  cases hv : valueOf q.var ((value ++ ['\n']).dropWhile (· = ' ')) with
  | missing => exact hmissing hv
  | undefined => simp [hv] at hloop
  | value text e =>
    have hbad := hval text e hv
    simp only [hv, assign] at hloop
    generalize assignVar env q.var text = res at hloop hbad
    obtain ⟨v, ending, taken⟩ := res
    cases ending with
    | done =>
      simp only [paramLoop, Prod.mk.injEq] at hloop
      rw [hc, ← hloop.1] at hvars
      simp only [List.map_cons, List.map_nil, List.cons.injEq, and_true] at hvars
      rcases hbad with hbad | hbad
      · exact hbad hvars
      · exact hbad rfl
    | reject err => simp at hloop
    | undefined => simp at hloop

end Line

end DataCommons.Params
