import DataCommons.Flags.TwoRuns

/-!
# The error report

What a call that returns `false` leaves in the error fields.

* `Arrives.frame`, `Arrives.transfer`: the rounds change the flags alone and look at
  nothing else of the context;
* `flagStore_error`: the errors of the cases of the `switch`;
* `matchFlags_badWord`: when the loop over the flags ends with a word that a BOOL refuses;
* `report_right_iff`: when the report belongs to the call.
-/

namespace DataCommons.Flags

variable {F D : Type}

/-! ## What the rounds read and write -/

/-- The outcome of a round, with these flags put into another context. -/
theorem loopRound_transfer {lib : FloatLib F D} {c c' : FlagCtx F D} {args args' : List Str}
    (h : loopRound lib c args = .next c' args') {d : FlagCtx F D} (hflags : d.flags = c.flags) :
    c' = { c with flags := c'.flags } ∧
      loopRound lib d args = .next { d with flags := c'.flags } args' := by
  obtain ⟨tok, rest, name, ignore, equals, m, rfl, htok, hhelp, hm, herr, hfound, rfl, rfl⟩ :=
    loopRound_next h
  refine ⟨rfl, ?_⟩
  rw [loopRound, htok]
  dsimp only
  rw [if_neg hhelp, hflags, hm]
  dsimp only
  rw [herr]
  dsimp only
  rw [if_pos hfound]

/-- The rounds change the flags alone. -/
theorem Arrives.frame {lib : FloatLib F D} {c c' : FlagCtx F D} {args args' : List Str}
    (h : Arrives lib c args c' args') : c' = { c with flags := c'.flags } := by
  induction h with
  | refl c args => rfl
  | round hround _ ih =>
    have hstep := (loopRound_transfer hround rfl).1
    rw [ih, hstep]

theorem Arrives.transfer {lib : FloatLib F D} {c c' : FlagCtx F D} {args args' : List Str}
    (h : Arrives lib c args c' args') {d : FlagCtx F D} (hflags : d.flags = c.flags) :
    Arrives lib d args { d with flags := c'.flags } args' := by
  induction h generalizing d with
  | refl c args =>
    rw [← hflags]
    exact .refl d args
  | @round c c₁ c' args args₁ args' hround _ ih =>
    have hstep := (loopRound_transfer hround hflags).2
    exact .round hstep (ih (d := { d with flags := c₁.flags }) rfl)

/-- What of the context a call takes over to where it comes to. -/
theorem reaches_frame {lib : FloatLib F D} {c c₁ : FlagCtx F D} {argv args : List Str}
    (h : Reaches lib c argv c₁ args) :
    c₁ = { c with flags := c₁.flags, programName := c₁.programName } := by
  have hframe := h.frame
  have hstart : started c argv = { c with programName := (started c argv).programName } := by
    unfold started
    split
    · rfl
    · rfl
  rw [hstart] at hframe
  rw [hframe]

/-- Where a call comes to depends on the flags and the program name. -/
theorem reaches_transfer {lib : FloatLib F D} {c c₁ : FlagCtx F D} {argv args : List Str}
    (h : Reaches lib c argv c₁ args) {d : FlagCtx F D} (hflags : d.flags = c.flags)
    (hprog : d.programName = c.programName) :
    Reaches lib d argv { d with flags := c₁.flags, programName := c₁.programName } args := by
  have hc : c₁.programName = (started c argv).programName := by
    have hframe := h.frame
    rw [hframe]
  have hd : started d argv = { d with programName := (started c argv).programName } := by
    unfold started
    rw [hprog]
    cases hname : c.programName with
    | none => rfl
    | some name =>
      dsimp only
      rw [hname, ← hname, ← hprog]
  have hstart : (started d argv).flags = (started c argv).flags := by
    rw [started_flags, started_flags, hflags]
  have harr := h.transfer hstart
  have hargs : argsOf d argv = argsOf c argv := by rw [argsOf, argsOf, hprog]
  rw [hd] at harr
  rw [Reaches, hargs, hd, hc]
  exact harr

/-! ## Contexts that run alike -/

/-- Contexts that differ in the error fields and `rest_argv` at most. -/
structure Like (c d : FlagCtx F D) : Prop where
  flags : d.flags = c.flags
  programName : d.programName = c.programName
  restArgc : d.restArgc = c.restArgc

/-- The same kind of error under the same name. -/
structure SameReport (c d : FlagCtx F D) : Prop where
  error : d.flagError = c.flagError
  name : d.flagErrorName = c.flagErrorName

theorem loopRound_other (lib : FloatLib F D) {c d : FlagCtx F D} (h : d.flags = c.flags)
    (args : List Str) :
    (loopRound lib c args = .help → loopRound lib d args = .help) ∧
    (loopRound lib c args = .stop → loopRound lib d args = .stop) ∧
    (loopRound lib c args = .overrun → loopRound lib d args = .overrun) := by
  unfold loopRound
  rw [h]
  split
  · exact ⟨id, id, id⟩
  · split
    · exact ⟨id, id, id⟩
    · split
      · exact ⟨id, id, id⟩
      · split
        · exact ⟨id, id, id⟩
        · split
          · exact ⟨fun h => (by cases h), fun h => (by cases h), fun h => (by cases h)⟩
          · split
            · exact ⟨fun h => (by cases h), fun h => (by cases h), fun h => (by cases h)⟩
            · exact ⟨fun h => (by cases h), fun h => (by cases h), fun h => (by cases h)⟩

theorem loopRound_reject_like {lib : FloatLib F D} {c d c' : FlagCtx F D} (h : Like c d)
    {args : List Str} (hround : loopRound lib c args = .reject c') :
    ∃ d', loopRound lib d args = .reject d' ∧ Like c' d' ∧ SameReport c' d' := by
  obtain ⟨tok, rest, name, ignore, equals, m, rfl, htok, hhelp, hm, hcase⟩ :=
    loopRound_refused hround
  have hd : matchFlags lib name ignore equals d.flags rest = some m := by rw [h.flags, hm]
  rw [loopRound, htok]
  dsimp only
  rw [if_neg hhelp, hd]
  dsimp only
  rcases hcase with ⟨e, herr, rfl⟩ | ⟨herr, hfound, rfl⟩
  · rw [herr]
    exact ⟨_, rfl, ⟨rfl, h.programName, h.restArgc⟩, ⟨rfl, rfl⟩⟩
  · rw [herr]
    dsimp only
    rw [hfound]
    exact ⟨_, rfl, ⟨rfl, h.programName, h.restArgc⟩, ⟨rfl, rfl⟩⟩

/-- What the end of the arguments leaves of the error fields. -/
theorem parseEnd_like {c d : FlagCtx F D} (h : Like c d) :
    Like (parseEnd c).1 (parseEnd d).1 ∧ (parseEnd d).2 = (parseEnd c).2 ∧
      ((parseEnd c).2.2 = false → SameReport (parseEnd c).1 (parseEnd d).1) := by
  rw [parseEnd_eq, parseEnd_eq, h.flags]
  cases (missing c.flags).getLast? with
  | none => exact ⟨⟨rfl, h.programName, rfl⟩, rfl, fun hend => by cases hend⟩
  | some f => exact ⟨⟨rfl, h.programName, h.restArgc⟩, rfl, fun _ => ⟨rfl, rfl⟩⟩

/-- **A call in a context that runs alike.** -/
theorem flagParse_like (lib : FloatLib F D) {c d : FlagCtx F D} (h : Like c d) (argv : List Str) :
    (flagParse lib c argv = none → flagParse lib d argv = none) ∧
    ∀ c' out r, flagParse lib c argv = some (c', out, r) →
      ∃ d', flagParse lib d argv = some (d', out, r) ∧ Like c' d' ∧
        (r = false → SameReport c' d') := by
  by_cases hargv : argv ≠ [] ∨ c.programName ≠ none
  · obtain ⟨c₁, args₁, hreach, hlast⟩ := arrives_last lib (started c argv) (argsOf c argv)
    have hreach' := reaches_transfer hreach h.flags h.programName
    have hlike : Like c₁ { d with flags := c₁.flags, programName := c₁.programName } := by
      refine ⟨rfl, rfl, ?_⟩
      rw [reaches_frame hreach]
      exact h.restArgc
    have hargv' : argv ≠ [] ∨ d.programName ≠ none := by
      rw [h.programName]
      exact hargv
    obtain ⟨hhelp, hstop, hover⟩ := loopRound_other lib hlike.flags args₁
    rw [flagParse_of_reaches hargv hreach, flagParse_of_reaches hargv' hreach', loop_eq lib c₁,
      loop_eq]
    cases hround : loopRound lib c₁ args₁ with
    | next c₂ args₂ => exact absurd hround (hlast c₂ args₂)
    | reject c₂ =>
      obtain ⟨d₂, hround', hlike₂, hreport⟩ := loopRound_reject_like hlike hround
      rw [hround']
      refine ⟨fun hnone => (by cases hnone), fun c' out r heq => ?_⟩
      cases heq
      exact ⟨d₂, rfl, hlike₂, fun _ => hreport⟩
    | help =>
      rw [hhelp hround]
      refine ⟨fun hnone => (by cases hnone), fun c' out r heq => ?_⟩
      cases heq
      exact ⟨_, rfl, hlike, fun hr => by cases hr⟩
    | stop =>
      rw [hstop hround]
      refine ⟨fun hnone => (by cases hnone), fun c' out r heq => ?_⟩
      cases args₁ with
      | nil =>
        obtain ⟨hlike₂, hsame, hreport⟩ := parseEnd_like hlike
        have hend : parseEnd c₁ = (c', out, r) := Option.some.inj heq
        rw [hend] at hlike₂ hsame hreport
        exact ⟨_, congrArg some (Prod.ext rfl hsame), hlike₂, hreport⟩
      | cons tok args₁ =>
        cases heq
        exact ⟨_, rfl, ⟨rfl, rfl, rfl⟩, fun hr => by cases hr⟩
    | overrun =>
      rw [hover hround]
      exact ⟨fun _ => rfl, fun c' out r heq => by cases heq⟩
  · rw [not_or, not_not, not_not] at hargv
    obtain ⟨rfl, hprog⟩ := hargv
    rw [flagParse, flagParse, h.programName, hprog]
    exact ⟨fun _ => rfl, fun c' out r heq => by cases heq⟩

/-! ## The errors of a round -/

theorem flagStore_bool (lib : FloatLib F D) (text : Str) (b : Bool) :
    flagStore lib false text (.bool b : FlagVal F D) = some ((boolWord text).map .bool) := rfl

theorem boolWord_error {text : Str} {e : FlagError} (h : boolWord text = .error e) :
    e = .unknown := by
  unfold boolWord at h
  split at h
  · cases h
  · split at h
    · cases h
    · cases h
      rfl

/-- An error that is none of `FLAG_NO_ERROR`, `FLAG_ERROR_UNKNOWN` and
`FLAG_ERROR_INVALID_SIZE_SUFFIX`. -/
def FlagError.Plain (e : FlagError) : Prop :=
  e ≠ .noError ∧ e ≠ .unknown ∧ e ≠ .invalidSizeSuffix

instance (e : FlagError) : Decidable e.Plain := inferInstanceAs (Decidable (_ ∧ _ ∧ _))

theorem parseUint_error {max : ℕ} {text : Str} {e : FlagError}
    (h : parseUint max text = .error e) : e.Plain := by
  unfold parseUint at h
  dsimp only at h
  split at h
  · cases h
    decide
  · split at h
    · cases h
      decide
    · cases h

theorem parseInt_error {text : Str} {e : FlagError} (h : parseInt text = .error e) : e.Plain := by
  unfold parseInt at h
  dsimp only at h
  split at h
  · cases h
    decide
  · split at h
    · cases h
      decide
    · split at h
      · cases h
        decide
      · cases h

theorem parseFloat_error {lib : FloatLib F D} {text : Str} {e : FlagError}
    (h : parseFloat lib text = .error e) : e.Plain := by
  unfold parseFloat at h
  dsimp only at h
  split at h
  · cases h
    decide
  · split at h
    · cases h
      decide
    · cases h

theorem parseDouble_error {lib : FloatLib F D} {text : Str} {e : FlagError}
    (h : parseDouble lib text = .error e) : e.Plain := by
  unfold parseDouble at h
  dsimp only at h
  split at h
  · cases h
    decide
  · split at h
    · cases h
      decide
    · cases h

theorem parseSize_error {text : Str} {e : FlagError} (h : parseSize text = .error e) :
    e.Plain := by
  unfold parseSize at h
  dsimp only at h
  split at h
  · cases h
    decide
  · split at h
    · cases h
      decide
    · split at h
      · cases h
        decide
      · cases h

theorem map_eq_error {ε α β : Type} {r : Except ε α} {g : α → β} {e : ε}
    (h : r.map g = .error e) : r = .error e := by
  cases r with
  | error e' =>
    cases h
    rfl
  | ok a => cases h

theorem storeNumber_error {α β γ : Type} {ignore : Bool} {old : α} {r : Except FlagError β}
    {g : β → α} {mk : α → γ} {e : FlagError}
    (h : some ((storeNumber ignore old (r.map g)).map mk) = some (.error e)) : r = .error e :=
  map_eq_error (map_eq_error (map_eq_error (Option.some.inj h)))

/-- **The errors of the cases of the `switch`.**  The kind whose report prints a value
comes from a word that a `FLAG_BOOL` does not know. -/
theorem flagStore_error {lib : FloatLib F D} {ignore : Bool} {text : Str} {v : FlagVal F D}
    {e : FlagError} (h : flagStore lib ignore text v = some (.error e)) :
    e.Plain ∨
      (e = .unknown ∧ ignore = false ∧ v.type = .bool ∧ boolWord text = .error .unknown) := by
  cases v with
  | bool b =>
    cases ignore with
    | true => cases h
    | false =>
      rw [flagStore_bool] at h
      have hword := map_eq_error (Option.some.inj h)
      obtain rfl := boolWord_error hword
      exact Or.inr ⟨rfl, rfl, rfl, hword⟩
  | uint8 n => exact Or.inl (parseUint_error (storeNumber_error h))
  | uint16 n => exact Or.inl (parseUint_error (storeNumber_error h))
  | uint32 n => exact Or.inl (parseUint_error (storeNumber_error h))
  | uint64 n => exact Or.inl (parseUint_error (storeNumber_error h))
  | int n => exact Or.inl (parseInt_error (storeNumber_error h))
  | float x => exact Or.inl (parseFloat_error (map_eq_error (map_eq_error (Option.some.inj h))))
  | double x => exact Or.inl (parseDouble_error (map_eq_error (map_eq_error (Option.some.inj h))))
  | size n => exact Or.inl (parseSize_error (storeNumber_error h))
  | str s => cases h
  | list items =>
    have hnone := caseError_list lib ignore text items
    rw [caseError, h] at hnone
    cases hnone

/-- A flag of this name is a `FLAG_BOOL` whose argument is none of its words, and the
flags of the name before it take theirs. -/
inductive BadWord (lib : FloatLib F D) (name : Str) (equals : Option Str) :
    List (Flag F D) → List Str → Prop
  | here {f : Flag F D} {fs : List (Flag F D)} {args rest : List Str} {text : Str}
      (hname : f.name = name) (htype : f.val.type = .bool)
      (hfetch : fetchArg equals args = some (text, rest))
      (hword : boolWord text = .error .unknown) : BadWord lib name equals (f :: fs) args
  | other {f : Flag F D} {fs : List (Flag F D)} {args : List Str} (hname : f.name ≠ name)
      (hrest : BadWord lib name equals fs args) : BadWord lib name equals (f :: fs) args
  | behind {f : Flag F D} {fs : List (Flag F D)} {args rest : List Str} {text : Str}
      {v : FlagVal F D} (hname : f.name = name)
      (hfetch : fetchArg equals args = some (text, rest))
      (hstore : flagStore lib false text f.val = some (.ok v))
      (hrest : BadWord lib name equals fs rest) : BadWord lib name equals (f :: fs) args

theorem matchFlags_badWord {lib : FloatLib F D} {name : Str} {equals : Option Str}
    {flags : List (Flag F D)} {args : List Str} (h : BadWord lib name equals flags args) :
    ∃ m, matchFlags lib name false equals flags args = some m ∧ m.err = some .unknown := by
  induction h with
  | @here f fs args rest text hname htype hfetch hword =>
    have hstore : flagStore lib false text f.val = some (.error .unknown) := by
      cases hval : f.val with
      | bool b =>
        rw [flagStore_bool, hword]
        rfl
      | _ =>
        rw [hval] at htype
        cases htype
    rw [matchFlags, if_pos hname, hfetch]
    dsimp only
    rw [hstore]
    exact ⟨_, rfl, rfl⟩
  | other hname _ ih =>
    obtain ⟨m, hm, herr⟩ := ih
    rw [matchFlags, if_neg hname, hm]
    exact ⟨_, rfl, herr⟩
  | behind hname hfetch hstore _ ih =>
    obtain ⟨m, hm, herr⟩ := ih
    rw [matchFlags, if_pos hname, hfetch]
    dsimp only
    rw [hstore]
    dsimp only
    rw [hm]
    exact ⟨_, rfl, herr⟩

theorem matchFlags_error {lib : FloatLib F D} {name : Str} {ignore : Bool} {equals : Option Str}
    {flags : List (Flag F D)} {args : List Str} {m : Matched F D} {e : FlagError}
    (h : matchFlags lib name ignore equals flags args = some m) (herr : m.err = some e) :
    e.Plain ∨ (e = .unknown ∧ ignore = false ∧ BadWord lib name equals flags args) := by
  induction flags generalizing args m with
  | nil =>
    cases h
    cases herr
  | cons f fs ih =>
    cases matchFlags_cons h with
    | other hname hrest =>
      rcases ih hrest herr with hplain | ⟨he, hig, hbad⟩
      · exact Or.inl hplain
      · exact Or.inr ⟨he, hig, .other hname hbad⟩
    | missing =>
      cases herr
      exact Or.inl (by decide)
    | refused hname hfetch hstore =>
      cases herr
      rcases flagStore_error hstore with hplain | ⟨he, hig, htype, hword⟩
      · exact Or.inl hplain
      · exact Or.inr ⟨he, hig, .here hname htype hfetch hword⟩
    | stored hname hfetch hstore hrest =>
      rcases ih hrest herr with hplain | ⟨he, hig, hbad⟩
      · exact Or.inl hplain
      · subst hig
        exact Or.inr ⟨he, rfl, .behind hname hfetch hstore hbad⟩

/-! ## What a call has given -/

/-- Of two points that the loop comes to, it comes to one from the other. -/
theorem Arrives.linear {lib : FloatLib F D} {c c₁ c₂ : FlagCtx F D} {args args₁ args₂ : List Str}
    (h₁ : Arrives lib c args c₁ args₁) (h₂ : Arrives lib c args c₂ args₂) :
    Arrives lib c₁ args₁ c₂ args₂ ∨ Arrives lib c₂ args₂ c₁ args₁ := by
  induction h₁ with
  | refl c args => exact Or.inl h₂
  | round hround hrest ih =>
    cases h₂ with
    | refl => exact Or.inr (.round hround hrest)
    | round hround₂ hrest₂ =>
      rw [hround] at hround₂
      cases hround₂
      exact ih hrest₂

/-- A flag that is unmarked behind an option has another name and is as it was. -/
theorem matchFlags_unmarked {lib : FloatLib F D} {name : Str} {ignore : Bool}
    {equals : Option Str} {flags : List (Flag F D)} {args : List Str} {m : Matched F D}
    (h : matchFlags lib name ignore equals flags args = some m) (herr : m.err = none)
    {f : Flag F D} (hf : f ∈ m.flags) (hunchanged : f.hasChanged = false) :
    f ∈ flags ∧ f.name ≠ name := by
  induction flags generalizing args m with
  | nil =>
    cases h
    cases hf
  | cons g fs ih =>
    cases matchFlags_cons h with
    | other hname hrest =>
      rcases List.mem_cons.mp hf with rfl | hf
      · exact ⟨List.mem_cons_self, hname⟩
      · obtain ⟨hmem, hne⟩ := ih hrest herr hf
        exact ⟨List.mem_cons_of_mem _ hmem, hne⟩
    | missing => cases herr
    | refused => cases herr
    | stored hname _ _ hrest =>
      rcases List.mem_cons.mp hf with rfl | hf
      · cases hunchanged
      · obtain ⟨hmem, hne⟩ := ih hrest herr hf
        exact ⟨List.mem_cons_of_mem _ hmem, hne⟩

theorem Arrives.unmarked {lib : FloatLib F D} {c c' : FlagCtx F D} {args args' : List Str}
    (h : Arrives lib c args c' args') {f : Flag F D} (hf : f ∈ c'.flags)
    (hunchanged : f.hasChanged = false) : f ∈ c.flags := by
  induction h with
  | refl c args => exact hf
  | round hround _ ih =>
    obtain ⟨_, _, _, _, _, m, -, -, -, hm, herr, -, rfl, -⟩ := loopRound_next hround
    exact (matchFlags_unmarked hm herr (ih hf) hunchanged).1

/-- The call comes to an option of this name and goes on behind it. -/
def GivesOption (lib : FloatLib F D) (c : FlagCtx F D) (argv : List Str) (name : Str) : Prop :=
  ∃ c₁ c₂ tok suf ignore equals rest, Reaches lib c argv c₁ (tok :: suf) ∧
    readToken tok = some (name, ignore, equals) ∧ loopRound lib c₁ (tok :: suf) = .next c₂ rest

/-- The call comes to an option of this name and returns `false` there. -/
def RejectsOption (lib : FloatLib F D) (c : FlagCtx F D) (argv : List Str) (name : Str) : Prop :=
  ∃ c₁ c₂ tok suf ignore equals, Reaches lib c argv c₁ (tok :: suf) ∧
    readToken tok = some (name, ignore, equals) ∧ loopRound lib c₁ (tok :: suf) = .reject c₂

/-- A flag that is unmarked at the end of the arguments was not given. -/
theorem not_given {lib : FloatLib F D} {c c' : FlagCtx F D} {argv : List Str}
    (h : Reaches lib c argv c' []) {f : Flag F D} (hf : f ∈ c'.flags)
    (hunchanged : f.hasChanged = false) : f ∈ c.flags ∧ ¬ GivesOption lib c argv f.name := by
  refine ⟨started_flags c argv ▸ h.unmarked hf hunchanged, ?_⟩
  rintro ⟨c₁, c₂, tok, suf, ignore, equals, rest, hreach, htok, hround⟩
  -- the end lies behind the option
  rcases hreach.linear h with hafter | hbefore
  · cases hafter with
    | round hround' hrest =>
      rw [hround] at hround'
      cases hround'
      have hmem := hrest.unmarked hf hunchanged
      obtain ⟨_, _, _, _, _, m, heq, htok', -, hm, herr, -, rfl, -⟩ := loopRound_next hround
      cases heq
      rw [htok] at htok'
      cases htok'
      exact (matchFlags_unmarked hm herr hmem hunchanged).2 rfl
  · cases hbefore with
    | round hround' _ => cases hround'

/-! ## The report -/

/-- The text of `FlagPrintError` shows `flag_error_value`. -/
def PrintsValue (c : FlagCtx F D) : Prop :=
  ∃ w, flagPrintError { c with flagErrorValue := w } ≠ flagPrintError c

/-- The call itself sets `flag_error_value`, and not to null: whatever was there before,
it holds the same string afterwards. -/
def SetsErrorValue (lib : FloatLib F D) (c : FlagCtx F D) (argv : List Str) : Prop :=
  ∃ v, ∀ w, ∃ c' out r, flagParse lib { c with flagErrorValue := w } argv = some (c', out, r) ∧
    c'.flagErrorValue = some v

structure ReportRight (lib : FloatLib F D) (c : FlagCtx F D) (argv : List Str)
    (c' : FlagCtx F D) : Prop where
  error : c'.flagError ≠ .noError
  name : ∃ name, c'.flagErrorName = some name ∧
    (RejectsOption lib c argv name ∨
      ∃ f ∈ c.flags, f.name = name ∧ f.isMandatory = true ∧ ¬ GivesOption lib c argv name)
  value : PrintsValue c' → SetsErrorValue lib c argv

/-- The call comes to an option without `/` whose word a `FLAG_BOOL` refuses. -/
def AtBadWord (lib : FloatLib F D) (c : FlagCtx F D) (argv : List Str) : Prop :=
  ∃ c₁ tok suf name equals, Reaches lib c argv c₁ (tok :: suf) ∧
    readToken tok = some (name, false, equals) ∧ ¬ IsHelp name ∧
    BadWord lib name equals c₁.flags suf

theorem not_printsValue {c : FlagCtx F D} (h : c.flagError.Plain) : ¬ PrintsValue c := by
  obtain ⟨hnone, hunknown, hsuffix⟩ := h
  rintro ⟨w, hne⟩
  apply hne
  unfold flagPrintError
  cases he : c.flagError with
  | noError => exact absurd he hnone
  | unknown => exact absurd he hunknown
  | invalidSizeSuffix => exact absurd he hsuffix
  | _ => rfl

theorem printsValue_unknown {c : FlagCtx F D} (h : c.flagError = .unknown) : PrintsValue c := by
  refine ⟨some ('x' :: showStr c.flagErrorValue), fun heq => ?_⟩
  have hlen := congrArg List.length heq
  simp only [flagPrintError, h, showStr, Option.getD_some, List.length_append,
    List.length_cons] at hlen
  omega

/-- A refused word is reported as an unknown flag, and `flag_error_value` stays. -/
theorem flagParse_badWord {lib : FloatLib F D} {c : FlagCtx F D} {argv : List Str}
    (hargv : argv ≠ [] ∨ c.programName ≠ none) (h : AtBadWord lib c argv) :
    ∃ c', flagParse lib c argv = some (c', [], false) ∧ c'.flagError = .unknown ∧
      c'.flagErrorValue = c.flagErrorValue := by
  obtain ⟨c₁, tok, suf, name, equals, hreach, htok, hhelp, hbad⟩ := h
  obtain ⟨m, hm, herr⟩ := matchFlags_badWord hbad
  have hround : loopRound lib c₁ (tok :: suf) =
      .reject { c₁ with flags := m.flags, flagError := .unknown, flagErrorName := some name } := by
    rw [loopRound, htok]
    dsimp only
    rw [if_neg hhelp, hm]
    dsimp only
    rw [herr]
  refine ⟨{ c₁ with flags := m.flags, flagError := .unknown, flagErrorName := some name }, ?_,
    rfl, ?_⟩
  · rw [flagParse_of_reaches hargv hreach, loop_eq, hround]
  · change c₁.flagErrorValue = c.flagErrorValue
    rw [reaches_frame hreach]

theorem atBadWord_like {lib : FloatLib F D} {c d : FlagCtx F D} {argv : List Str}
    (h : AtBadWord lib c argv) (hlike : Like c d) : AtBadWord lib d argv := by
  obtain ⟨c₁, tok, suf, name, equals, hreach, htok, hhelp, hbad⟩ := h
  exact ⟨_, tok, suf, name, equals, reaches_transfer hreach hlike.flags hlike.programName, htok,
    hhelp, hbad⟩

/-- Without a refused word a report prints no value, or the name. -/
theorem flagParse_value {lib : FloatLib F D} {c c' : FlagCtx F D} {argv : List Str}
    {out : List FlagOut} (h : flagParse lib c argv = some (c', out, false))
    (hbad : ¬ AtBadWord lib c argv) :
    c'.flagError.Plain ∨
      (c'.flagError = .unknown ∧ ∃ name, c'.flagErrorName = some name ∧
        c'.flagErrorValue = some name) := by
  have hargv := argv_of_flagParse h
  rcases false_rejected hargv h with ⟨pre, tok, suf, rfl, c₁, c₂, hreach, hround⟩ | ⟨c₁, hreach⟩
  · rw [flagParse_of_reaches hargv hreach, loop_eq, hround] at h
    cases h
    obtain ⟨_, _, name, ignore, equals, m, heq, htok, hhelp, hm, hcase⟩ := loopRound_refused hround
    cases heq
    rcases hcase with ⟨e, herr, rfl⟩ | ⟨-, -, rfl⟩
    · refine Or.inl ((matchFlags_error hm herr).resolve_right ?_)
      rintro ⟨-, rfl, hword⟩
      exact hbad ⟨c₁, tok, suf, name, equals, hreach, htok, hhelp, hword⟩
    · exact Or.inr ⟨rfl, name, rfl, rfl⟩
  · rw [flagParse_of_reaches hargv hreach, loop_eq] at h
    have hend : parseEnd c₁ = (c', out, false) := Option.some.inj h
    obtain ⟨f, -, -, -, hctx⟩ := parseEnd_name (congrArg (fun r => r.2.2) hend)
    rw [hend] at hctx
    dsimp only at hctx
    subst hctx
    exact Or.inl (by decide : FlagError.noValue.Plain)

/-- The name in the report is that of a rejected option, or of a mandatory flag. -/
theorem flagParse_name {lib : FloatLib F D} {c c' : FlagCtx F D} {argv : List Str}
    {out : List FlagOut} (h : flagParse lib c argv = some (c', out, false)) :
    ∃ name, c'.flagErrorName = some name ∧
      (RejectsOption lib c argv name ∨
        ∃ f ∈ c.flags, f.name = name ∧ f.isMandatory = true ∧ ¬ GivesOption lib c argv name) := by
  have hargv := argv_of_flagParse h
  rcases false_rejected hargv h with ⟨pre, tok, suf, rfl, c₁, c₂, hreach, hround⟩ | ⟨c₁, hreach⟩
  · rw [flagParse_of_reaches hargv hreach, loop_eq, hround] at h
    cases h
    obtain ⟨_, _, name, ignore, equals, m, heq, htok, -, -, hcase⟩ := loopRound_refused hround
    cases heq
    refine ⟨name, ?_, Or.inl ⟨c₁, c', tok, suf, ignore, equals, hreach, htok, hround⟩⟩
    rcases hcase with ⟨e, -, rfl⟩ | ⟨-, -, rfl⟩
    · rfl
    · rfl
  · rw [flagParse_of_reaches hargv hreach, loop_eq] at h
    have hend : parseEnd c₁ = (c', out, false) := Option.some.inj h
    obtain ⟨f, hf, hmandatory, hunchanged, hctx⟩ := parseEnd_name (congrArg (fun r => r.2.2) hend)
    rw [hend] at hctx
    dsimp only at hctx
    subst hctx
    obtain ⟨hmem, hgiven⟩ := not_given hreach hf hunchanged
    exact ⟨f.name, rfl, Or.inr ⟨f, hmem, rfl, hmandatory, hgiven⟩⟩

/-- **When the error report belongs to the call.**  A call that returns `false` names the
option it has rejected, or a mandatory flag that was not given, and what its report
prints was set by it, if and only if no word of a `FLAG_BOOL` was refused. -/
theorem report_right_iff {lib : FloatLib F D} {c c' : FlagCtx F D} {argv : List Str}
    {out : List FlagOut} (h : flagParse lib c argv = some (c', out, false)) :
    ReportRight lib c argv c' ↔ ¬ AtBadWord lib c argv := by
  have hargv := argv_of_flagParse h
  constructor
  · intro hright hbad
    obtain ⟨c₂, hparse, hunknown, -⟩ := flagParse_badWord hargv hbad
    rw [hparse] at h
    cases h
    obtain ⟨v, hset⟩ := hright.value (printsValue_unknown hunknown)
    -- a null pointer stays one
    obtain ⟨c₃, out₃, r₃, hparse₃, hvalue₃⟩ := hset none
    have hbad₄ : AtBadWord lib { c with flagErrorValue := none } argv :=
      atBadWord_like hbad ⟨rfl, rfl, rfl⟩
    obtain ⟨c₄, hparse₄, -, hvalue₄⟩ := flagParse_badWord (by exact hargv) hbad₄
    rw [hparse₃] at hparse₄
    cases hparse₄
    rw [hvalue₃] at hvalue₄
    cases hvalue₄
  · intro hbad
    have hvalue := flagParse_value h hbad
    refine ⟨?_, flagParse_name h, fun hprints => ?_⟩
    · rcases hvalue with hplain | ⟨hunknown, -⟩
      · exact hplain.1
      · rw [hunknown]
        exact fun he => by cases he
    · obtain ⟨hunknown, name, hname, -⟩ := hvalue.resolve_left fun hplain =>
        not_printsValue hplain hprints
      refine ⟨name, fun w => ?_⟩
      -- whatever the value was, the call ends with the same kind of error
      have hlike : Like c { c with flagErrorValue := w } := ⟨rfl, rfl, rfl⟩
      obtain ⟨d', hparse, -, hreport⟩ := (flagParse_like lib hlike argv).2 c' out false h
      obtain ⟨herror, hname'⟩ := hreport rfl
      have hbad' : ¬ AtBadWord lib { c with flagErrorValue := w } argv := fun hw =>
        hbad (atBadWord_like hw ⟨rfl, rfl, rfl⟩)
      refine ⟨d', out, false, hparse, ?_⟩
      rcases flagParse_value hparse hbad' with hplain | ⟨-, name', hname₂, hvalue₂⟩
      · rw [herror] at hplain
        exact absurd hunknown hplain.2.1
      · rw [hvalue₂, ← hname₂, hname', hname]

def unknownResult : FlagCtx Unit Unit :=
  { threeFlags with
    flagError := .unknown, flagErrorName := some "zz".toList, flagErrorValue := some "zz".toList,
    programName := some "prog".toList }

theorem report_right_iff_unknown :
    ReportRight noFloat threeFlags ["prog".toList, "-zz".toList] unknownResult ↔
      ¬ AtBadWord noFloat threeFlags ["prog".toList, "-zz".toList] :=
  report_right_iff (by decide : flagParse noFloat threeFlags ["prog".toList, "-zz".toList] =
    some (unknownResult, [], false))

/-- `prog -v=maybe`. -/
def badWordResult : FlagCtx Unit Unit :=
  { threeFlags with
    flagError := .unknown, flagErrorName := some "v".toList, programName := some "prog".toList }

/-- A refused word prints a null pointer, or the option that an earlier call refused. -/
theorem refused_word_report :
    (flagParse noFloat threeFlags ["prog".toList, "-v=maybe".toList] =
        some (badWordResult, [], false) ∧
      ¬ ReportRight noFloat threeFlags ["prog".toList, "-v=maybe".toList] badWordResult ∧
      flagPrintError badWordResult =
        "ERROR: -v: unknown flag\n    (null) is not a valid flag\n".toList) ∧
    ∃ c₂, flagParse noFloat unknownResult ["-v=maybe".toList] = some (c₂, [], false) ∧
      flagPrintError c₂ = "ERROR: -v: unknown flag\n    zz is not a valid flag\n".toList := by
  have hparse : flagParse noFloat threeFlags ["prog".toList, "-v=maybe".toList] =
      some (badWordResult, [], false) := by decide
  refine ⟨⟨hparse, fun hright => ?_, by decide⟩, _, rfl, by decide⟩
  obtain ⟨v, hset⟩ := hright.value ⟨some "x".toList, by decide⟩
  obtain ⟨c', out, r, hparse', hvalue⟩ := hset none
  rw [show ({ threeFlags with flagErrorValue := none } : FlagCtx Unit Unit) = threeFlags from rfl,
    hparse] at hparse'
  cases hparse'
  cases hvalue

end DataCommons.Flags
