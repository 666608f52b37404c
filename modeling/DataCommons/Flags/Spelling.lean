import DataCommons.Flags.Loop

/-!
# The two spellings of an option

`-name=value` is cut in place and `-name value` takes the next argument.  Both
mean the same as long as one flag at most has the name; a second one takes a second
argument in the separate spelling only.

* `matchFlags_spelling`, `loopRound_spelling`: one round, for one flag at most;
* `matchFlags_short`, `matchFlags_joined`: the two spellings for two flags;
* `spellings_iff`: when the two spellings agree.
-/

namespace DataCommons.Flags

variable {F D : Type}

/-- What the caller sees of a call: the return value, the flags, the error, its
name, and the rest arguments. -/
def observed (r : FlagCtx F D × List FlagOut × Bool) :
    Bool × List (Flag F D) × FlagError × Option Str × ℕ × List Str :=
  (r.2.2, r.1.flags, r.1.flagError, r.1.flagErrorName, r.1.restArgc, r.1.restArgv)

/-- In option position, `opt=value` and `opt value` give the same. -/
def SpellingsAgree (lib : FloatLib F D) (c : FlagCtx F D) (opt : Str) : Prop :=
  ∀ (pre : List Str) (value : Str) (suf : List Str) (c₁ : FlagCtx F D),
    Reaches lib c (pre ++ (opt ++ '=' :: value) :: suf) c₁ ((opt ++ '=' :: value) :: suf) →
    (flagParse lib c (pre ++ (opt ++ '=' :: value) :: suf)).map observed =
      (flagParse lib c (pre ++ opt :: value :: suf)).map observed

/-- A context as the registration functions build it. -/
structure Registered (c : FlagCtx F D) : Prop where
  programName : c.programName = none
  unchanged : ∀ f ∈ c.flags, f.hasChanged = false
  lists : ∀ f ∈ c.flags, ∀ items, f.val = .list items → items = []

/-- `strtof` and `strtod` read the number `1`. -/
structure FloatLib.ReadsOne (lib : FloatLib F D) : Prop where
  strtof : (lib.strtof "1".toList).rest = [] ∧ (lib.strtof "1".toList).erange = false
  strtod : (lib.strtod "1".toList).rest = [] ∧ (lib.strtod "1".toList).erange = false

/-! ## The tokens -/

theorem cutEquals_eq_none {x name : Str} (h : cutEquals x = (name, none)) :
    '=' ∉ x ∧ name = x := by
  unfold cutEquals at h
  split at h
  · rename_i hdrop
    cases h
    refine ⟨fun hmem => ?_, rfl⟩
    have := List.dropWhile_eq_nil_iff.mp hdrop _ hmem
    simp at this
  · cases h

theorem cutEquals_append {x : Str} (h : '=' ∉ x) (value : Str) :
    cutEquals (x ++ '=' :: value) = (x, some value) := by
  have hne : ∀ c ∈ x, decide (c ≠ '=') = true := fun c hc =>
    decide_eq_true fun heq => h (by rwa [heq] at hc)
  rw [cutEquals, List.dropWhile_append_of_pos hne, List.takeWhile_append_of_pos hne]
  simp

theorem readToken_joined {opt name : Str} {ignore : Bool}
    (h : readToken opt = some (name, ignore, none)) (value : Str) :
    readToken (opt ++ '=' :: value) = some (name, ignore, some value) := by
  unfold readToken at h
  split at h
  · rename_i flag
    split at h
    · cases h
    · rename_i hflag
      simp only [Option.some.injEq, Prod.mk.injEq] at h
      obtain ⟨hname, hig, hnone⟩ := h
      have hpair : cutEquals (cutSlash flag).2 = ((cutEquals (cutSlash flag).2).1, none) :=
        Prod.ext rfl hnone
      obtain ⟨hmem, hcut⟩ := cutEquals_eq_none hpair
      have hslash : cutSlash (flag ++ '=' :: value) =
          ((cutSlash flag).1, (cutSlash flag).2 ++ '=' :: value) := by
        cases flag with
        | nil => rfl
        | cons x flag =>
          by_cases hx : x = '/'
          · subst hx
            rfl
          · simp [cutSlash, hx]
      have hne : flag ++ '=' :: value ≠ ['-'] := by
        cases flag with
        | nil => simp
        | cons x flag => simp
      rw [List.cons_append, readToken, if_neg hne, hslash]
      dsimp only
      rw [cutEquals_append hmem, hig, ← hname, hcut]
  · cases h

/-! ## One flag at most -/

theorem matchFlags_absent (lib : FloatLib F D) {name : Str} (ignore : Bool) (equals : Option Str)
    {flags : List (Flag F D)} (h : name ∉ flags.map (·.name)) (args : List Str) :
    matchFlags lib name ignore equals flags args = some ⟨flags, args, false, none⟩ := by
  induction flags with
  | nil => rfl
  | cons f fs ih =>
    rw [List.map_cons, List.mem_cons, not_or] at h
    rw [matchFlags, if_neg (Ne.symm h.1), ih h.2]

theorem matchFlags_names {lib : FloatLib F D} {name : Str} {ignore : Bool} {equals : Option Str}
    {flags : List (Flag F D)} {args : List Str} {m : Matched F D}
    (h : matchFlags lib name ignore equals flags args = some m) :
    m.flags.map (·.name) = flags.map (·.name) := by
  induction flags generalizing args m with
  | nil =>
    cases h
    rfl
  | cons f fs ih =>
    cases matchFlags_cons h with
    | other _ hrest => exact congrArg (f.name :: ·) (ih hrest)
    | missing => rfl
    | refused => rfl
    | stored _ _ _ hrest => exact congrArg (f.name :: ·) (ih hrest)

theorem Arrives.names {lib : FloatLib F D} {c c' : FlagCtx F D} {args args' : List Str}
    (h : Arrives lib c args c' args') : c'.flags.map (·.name) = c.flags.map (·.name) := by
  induction h with
  | refl c args => rfl
  | round hround _ ih =>
    obtain ⟨_, _, _, _, _, m, -, -, -, hm, -, -, rfl, -⟩ := loopRound_next hround
    exact ih.trans (matchFlags_names hm)

/-- One flag takes one argument, wherever it stands. -/
theorem matchFlags_spelling (lib : FloatLib F D) {name : Str} (ignore : Bool) (value : Str)
    {flags : List (Flag F D)} (hmem : name ∈ flags.map (·.name))
    (hone : (flags.map (·.name)).count name ≤ 1) (suf : List Str) :
    matchFlags lib name ignore (some value) flags suf =
      matchFlags lib name ignore none flags (value :: suf) := by
  induction flags with
  | nil => cases hmem
  | cons f fs ih =>
    rw [matchFlags, matchFlags]
    by_cases hname : f.name = name
    · have habsent := not_mem_of_count hone hname
      rw [if_pos hname, if_pos hname]
      dsimp only [fetchArg]
      simp only [matchFlags_absent lib ignore _ habsent]
    · have hmem' : name ∈ fs.map (·.name) :=
        (List.mem_cons.mp hmem).resolve_left fun h => hname h.symm
      rw [List.map_cons, List.count_cons_of_ne hname] at hone
      rw [if_neg hname, if_neg hname, ih hmem' hone]

theorem loopRound_spelling (lib : FloatLib F D) {c : FlagCtx F D} {opt name : Str} {ignore : Bool}
    (hopt : readToken opt = some (name, ignore, none)) (value : Str) (suf : List Str)
    (h : IsHelp name ∨ (c.flags.map (·.name)).count name ≤ 1) :
    loopRound lib c ((opt ++ '=' :: value) :: suf) = loopRound lib c (opt :: value :: suf) := by
  rw [loopRound, loopRound, readToken_joined hopt value, hopt]
  dsimp only
  by_cases hhelp : IsHelp name
  · rw [if_pos hhelp, if_pos hhelp]
  · rw [if_neg hhelp, if_neg hhelp]
    by_cases hmem : name ∈ c.flags.map (·.name)
    · rw [matchFlags_spelling lib ignore value hmem (h.resolve_left hhelp)]
    · rw [matchFlags_absent lib ignore _ hmem, matchFlags_absent lib ignore _ hmem]
      rfl

theorem loop_spelling (lib : FloatLib F D) {c : FlagCtx F D} {opt name : Str} {ignore : Bool}
    (hopt : readToken opt = some (name, ignore, none)) (value : Str) (suf : List Str)
    (h : IsHelp name ∨ (c.flags.map (·.name)).count name ≤ 1) :
    loop lib c ((opt ++ '=' :: value) :: suf) = loop lib c (opt :: value :: suf) := by
  have hround := loopRound_spelling lib hopt value suf h
  rw [loop_eq lib c (_ :: suf), loop_eq lib c (opt :: value :: suf), hround]
  cases hnext : loopRound lib c (opt :: value :: suf) with
  | stop =>
    -- both begin with an option
    exfalso
    simp only [loopRound, hopt] at hnext
    split at hnext
    · cases hnext
    · split at hnext
      · cases hnext
      · split at hnext
        · cases hnext
        · split at hnext <;> cases hnext
  | _ => rfl

/-! ## Two flags -/

/-- In the separate spelling the last flag finds no argument. -/
theorem matchFlags_no_arg (lib : FloatLib F D) {name : Str} (ignore : Bool)
    {flags : List (Flag F D)} (hmem : name ∈ flags.map (·.name)) :
    matchFlags lib name ignore none flags [] = some ⟨flags, [], false, some .noValue⟩ := by
  induction flags with
  | nil => cases hmem
  | cons f fs ih =>
    rw [matchFlags]
    by_cases hname : f.name = name
    · rw [if_pos hname]
      rfl
    · rw [if_neg hname, ih ((List.mem_cons.mp hmem).resolve_left fun h => hname h.symm)]

theorem matchFlags_short {lib : FloatLib F D} {name value : Str} {ignore : Bool}
    {flags : List (Flag F D)} (htwo : 2 ≤ (flags.map (·.name)).count name)
    (hok : ∀ f ∈ flags, ∃ w, flagStore lib ignore value f.val = some (.ok w)) :
    ∃ m, matchFlags lib name ignore none flags [value] = some m ∧ m.err = some .noValue := by
  induction flags with
  | nil => simp at htwo
  | cons f fs ih =>
    rw [matchFlags]
    by_cases hname : f.name = name
    · obtain ⟨w, hw⟩ := hok f List.mem_cons_self
      have hmem : name ∈ fs.map (·.name) := by
        rw [List.map_cons, List.count_cons, if_pos (by simpa using hname)] at htwo
        exact List.count_pos_iff.mp (by omega)
      rw [if_pos hname]
      dsimp only [fetchArg]
      rw [hw]
      dsimp only
      rw [matchFlags_no_arg lib ignore hmem]
      exact ⟨_, rfl, rfl⟩
    · rw [List.map_cons, List.count_cons_of_ne hname] at htwo
      obtain ⟨m, hm, herr⟩ := ih htwo fun g hg => hok g (List.mem_cons_of_mem _ hg)
      rw [if_neg hname, hm]
      exact ⟨_, rfl, herr⟩

/-- In the joined spelling every flag of the name takes the same argument. -/
theorem matchFlags_joined {lib : FloatLib F D} {name value : Str} {ignore : Bool}
    {flags : List (Flag F D)}
    (hok : ∀ f ∈ flags, ∃ w, flagStore lib ignore value f.val = some (.ok w)) (args : List Str) :
    ∃ m, matchFlags lib name ignore (some value) flags args = some m ∧ m.err = none ∧
      m.args = args ∧ (name ∈ flags.map (·.name) → m.found = true) ∧
      ∀ f ∈ m.flags, f.name = name → f.hasChanged = true := by
  induction flags with
  | nil => exact ⟨_, rfl, rfl, rfl, by simp, by simp⟩
  | cons f fs ih =>
    obtain ⟨m, hm, herr, hargs, hfound, hchanged⟩ :=
      ih fun g hg => hok g (List.mem_cons_of_mem _ hg)
    rw [matchFlags]
    by_cases hname : f.name = name
    · obtain ⟨w, hw⟩ := hok f List.mem_cons_self
      rw [if_pos hname]
      dsimp only [fetchArg]
      rw [hw]
      dsimp only
      rw [hm]
      refine ⟨_, rfl, herr, hargs, fun _ => rfl, fun g hg hgn => ?_⟩
      rcases List.mem_cons.mp hg with rfl | hg
      · rfl
      · exact hchanged g hg hgn
    · rw [if_neg hname, hm]
      refine ⟨_, rfl, herr, hargs, fun hmem => ?_, fun g hg hgn => ?_⟩
      · exact hfound ((List.mem_cons.mp hmem).resolve_left fun h => hname h.symm)
      · rcases List.mem_cons.mp hg with rfl | hg
        · exact absurd hgn hname
        · exact hchanged g hg hgn

theorem flagStore_one {lib : FloatLib F D} (hlib : lib.ReadsOne) (ignore : Bool)
    {v : FlagVal F D} (hlist : ∀ items, v = .list items → items = []) :
    ∃ w, flagStore lib ignore "1".toList v = some (.ok w) := by
  obtain ⟨⟨hfr, hfe⟩, hdr, hde⟩ := hlib
  cases v with
  | float v =>
    have hone : parseFloat lib "1".toList = .ok (lib.strtof "1".toList).value := by
      rw [parseFloat, if_neg (not_not.mpr hfr), if_neg fun h => by simp only [hfe] at h; cases h.2]
    exact ⟨_, by rw [flagStore, hone]; rfl⟩
  | double v =>
    have hone : parseDouble lib "1".toList = .ok (lib.strtod "1".toList).value := by
      rw [parseDouble, if_neg (not_not.mpr hdr), if_neg fun h => by simp only [hde] at h; cases h.2]
    exact ⟨_, by rw [flagStore, hone]; rfl⟩
  | list items =>
    obtain rfl := hlist items rfl
    cases ignore <;> exact ⟨_, rfl⟩
  | _ => cases ignore <;> exact ⟨_, rfl⟩

/-- The mandatory flag that the report names has not been given. -/
theorem parseEnd_name {c : FlagCtx F D} (h : (parseEnd c).2.2 = false) :
    ∃ f ∈ c.flags, f.isMandatory = true ∧ f.hasChanged = false ∧
      (parseEnd c).1 = { c with flagError := .noValue, flagErrorName := some f.name } := by
  rw [parseEnd_eq] at h ⊢
  cases hlast : (missing c.flags).getLast? with
  | none =>
    rw [hlast] at h
    cases h
  | some f =>
    obtain ⟨hf, hmissing⟩ := List.mem_filter.mp (List.mem_of_getLast? hlast)
    obtain ⟨hmandatory, hchanged⟩ := Bool.and_eq_true_iff.mp hmissing
    exact ⟨f, hf, hmandatory, by simpa using hchanged, rfl⟩

/-- With two flags of the name and nothing behind the value the spellings differ. -/
theorem spellings_differ {lib : FloatLib F D} (hlib : lib.ReadsOne) (c : FlagCtx F D)
    (hlists : ∀ f ∈ c.flags, ∀ items, f.val = .list items → items = []) {opt name : Str} {ignore : Bool}
    (hopt : readToken opt = some (name, ignore, none)) (hhelp : ¬ IsHelp name)
    (htwo : 2 ≤ (c.flags.map (·.name)).count name) :
    (loop lib c [opt ++ '=' :: "1".toList]).map observed ≠
      (loop lib c [opt, "1".toList]).map observed := by
  have hok : ∀ f ∈ c.flags, ∃ w, flagStore lib ignore "1".toList f.val = some (.ok w) :=
    fun f hf => flagStore_one hlib ignore (hlists f hf)
  obtain ⟨m, hm, herr⟩ := matchFlags_short htwo hok
  obtain ⟨m', hm', herr', hargs', hfound', hchanged⟩ :=
    @matchFlags_joined F D lib name "1".toList ignore c.flags hok []
  have hsep : loopRound lib c [opt, "1".toList] =
      .reject { c with flags := m.flags, flagError := .noValue, flagErrorName := some name } := by
    rw [loopRound, hopt]
    dsimp only
    rw [if_neg hhelp, hm]
    dsimp only
    rw [herr]
  have hjoin : loopRound lib c [opt ++ '=' :: "1".toList] =
      .next { c with flags := m'.flags } [] := by
    rw [loopRound, readToken_joined hopt]
    dsimp only
    rw [if_neg hhelp, hm']
    dsimp only
    rw [herr']
    dsimp only
    rw [if_pos (hfound' (List.count_pos_iff.mp (by omega))), hargs']
  rw [loop_eq lib c [opt ++ _], hjoin, loop_eq lib c [opt, _], hsep]
  change some (observed (parseEnd { c with flags := m'.flags })) ≠ some (observed (_, [], false))
  intro heq
  have heq := Option.some.inj heq
  simp only [observed, Prod.mk.injEq] at heq
  obtain ⟨hret, -, -, hname, -⟩ := heq
  -- the joined spelling can fail only by a mandatory flag of another name
  obtain ⟨f, hf, -, hunchanged, hctx⟩ := parseEnd_name hret
  rw [hctx] at hname
  rw [hchanged f hf (Option.some.inj hname)] at hunchanged
  cases hunchanged

/-- **When the two spellings agree**: when one flag at most has the name. -/
theorem spellings_iff (lib : FloatLib F D) (hlib : lib.ReadsOne) (c : FlagCtx F D)
    (hc : Registered c) {opt name : Str} {ignore : Bool}
    (hopt : readToken opt = some (name, ignore, none)) :
    SpellingsAgree lib c opt ↔ IsHelp name ∨ (c.flags.map (·.name)).count name ≤ 1 := by
  constructor
  · intro h
    by_contra hnot
    rw [not_or, Nat.not_le] at hnot
    have hagree := h [[]] "1".toList [] { c with programName := some [] } (by
      unfold Reaches started argsOf
      rw [hc.programName]
      exact .refl _ _)
    have hcall : ∀ args, flagParse lib c ([] :: args) =
        loop lib { c with programName := some [] } args := fun args => by
      rw [flagParse_eq_loop lib (Or.inl (List.cons_ne_nil _ _)), started, argsOf, hc.programName]
      rfl
    rw [List.singleton_append, List.singleton_append, hcall, hcall] at hagree
    exact spellings_differ hlib { c with programName := some [] } hc.lists hopt hnot.1 hnot.2 hagree
  · intro h pre value suf c₁ hreach
    have hX : (opt ++ '=' :: value) :: suf ≠ [] := List.cons_ne_nil _ _
    have hpre := reaches_cons hX hreach
    have hargv : ∀ Y, Y ≠ [] → pre ++ Y ≠ [] ∨ c.programName ≠ none := fun Y hY =>
      Or.inl (List.append_ne_nil_of_right_ne_nil _ hY)
    have hsep := reaches_change hX hreach (opt :: value :: suf)
    rw [flagParse_of_reaches (hargv _ hX) hreach,
      flagParse_of_reaches (hargv _ (List.cons_ne_nil _ _)) hsep, loop_spelling lib hopt]
    have hnames : c₁.flags.map (·.name) = c.flags.map (·.name) := by
      rw [hreach.names, started_flags]
    rw [hnames]
    exact h

/-- A library that reads the number `1` and nothing else. -/
def onlyOne : FloatLib Unit Unit where
  strtof s := ⟨(), if s = "1".toList then [] else s, false⟩
  strtod s := ⟨(), if s = "1".toList then [] else s, false⟩
  isFltMax _ := false
  isDblMax _ := false

/-- A context of `int` flags with these names. -/
def intFlags (names : List Str) : FlagCtx Unit Unit where
  flags := names.map fun name => ⟨name, .int 5, false, false⟩
  flagError := .noError
  flagErrorName := none
  flagErrorValue := none
  programName := none
  restArgc := 0
  restArgv := []

theorem spellings_iff_ints :
    (SpellingsAgree onlyOne (intFlags ["n".toList, "m".toList]) "-n".toList ↔
      IsHelp "n".toList ∨
        ((intFlags ["n".toList, "m".toList]).flags.map (·.name)).count "n".toList ≤ 1) :=
  spellings_iff onlyOne ⟨by decide, by decide⟩ (intFlags ["n".toList, "m".toList])
    ⟨rfl, by decide, by simp [intFlags]⟩
    (by decide : readToken "-n".toList = some ("n".toList, false, none))

/-- `prog -n=1` is accepted and `prog -n 1` lacks a value. -/
theorem second_flag_takes_another :
    ¬ SpellingsAgree onlyOne (intFlags ["n".toList, "n".toList]) "-n".toList ∧
      flagParse onlyOne (intFlags ["n".toList, "n".toList]) ["prog".toList, "-n=1".toList] =
        some ({ intFlags [] with
          flags := [⟨"n".toList, .int 1, false, true⟩, ⟨"n".toList, .int 1, false, true⟩],
          programName := some "prog".toList }, [], true) ∧
      flagParse onlyOne (intFlags ["n".toList, "n".toList]) ["prog".toList, "-n".toList, "1".toList] =
        some ({ intFlags [] with
          flags := [⟨"n".toList, .int 1, false, true⟩, ⟨"n".toList, .int 5, false, false⟩],
          flagError := .noValue, flagErrorName := some "n".toList,
          programName := some "prog".toList }, [], false) := by
  refine ⟨fun h => ?_, by decide, by decide⟩
  have hagree := h ["prog".toList] "1".toList []
    { intFlags ["n".toList, "n".toList] with programName := some "prog".toList } (.refl _ _)
  exact absurd (congrArg (Option.map Prod.fst) hagree) (by decide)

end DataCommons.Flags
