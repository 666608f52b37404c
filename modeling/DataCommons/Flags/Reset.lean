import DataCommons.Flags.Register
import DataCommons.Flags.Report

/-!
# What `context_reset` forgets

`context_reset` clears the flags, the program name and `rest_argc`, and leaves the
error fields.  Two contexts that differ in the error fields alone run alike, so a call
shows the fields of an earlier one where it sets none itself.

* `completes_iff`: when a call returns `true`, and that it leaves the error fields then;
* `reset_clean_iff`: when nothing of what was before the reset shows through.
-/

namespace DataCommons.Flags

variable {F D : Type}

/-! ## The calls that return `true` -/

/-- The call comes to a request for help, to an argument that is no option, or to the end
of the arguments with no mandatory flag missing. -/
def Completes (lib : FloatLib F D) (c : FlagCtx F D) (argv : List Str) : Prop :=
  ∃ c₁ args, Reaches lib c argv c₁ args ∧
    (loopRound lib c₁ args = .help ∨
      (loopRound lib c₁ args = .stop ∧ (args = [] → missing c₁.flags = [])))

/-- The text of `FlagPrintError` is that of the error fields. -/
theorem flagPrintError_congr {c d : FlagCtx F D} (herror : d.flagError = c.flagError)
    (hname : d.flagErrorName = c.flagErrorName)
    (hvalue : c.flagError.Plain ∨ d.flagErrorValue = c.flagErrorValue) :
    flagPrintError d = flagPrintError c := by
  unfold flagPrintError
  rw [herror, hname]
  rcases hvalue with ⟨-, hunknown, hsuffix⟩ | hvalue
  · cases he : c.flagError with
    | unknown => exact absurd he hunknown
    | invalidSizeSuffix => exact absurd he hsuffix
    | _ => rfl
  · rw [hvalue]

theorem completes_true {lib : FloatLib F D} {c : FlagCtx F D} {argv : List Str}
    (hargv : argv ≠ [] ∨ c.programName ≠ none) (h : Completes lib c argv) :
    ∃ c' out, flagParse lib c argv = some (c', out, true) ∧
      flagPrintError c' = flagPrintError c := by
  obtain ⟨c₁, args, hreach, hlast⟩ := h
  have hprint : flagPrintError c₁ = flagPrintError c := by
    rw [reaches_frame hreach]
    rfl
  rw [flagParse_of_reaches hargv hreach, loop_eq]
  rcases hlast with hhelp | ⟨hstop, hmissing⟩
  · rw [hhelp]
    exact ⟨c₁, _, rfl, hprint⟩
  · rw [hstop]
    cases args with
    | nil =>
      have hend := parseEnd_eq c₁
      rw [hmissing rfl] at hend
      exact ⟨_, _, congrArg some hend, hprint⟩
    | cons tok args => exact ⟨_, _, rfl, hprint⟩

theorem completes_of_true {lib : FloatLib F D} {c c' : FlagCtx F D} {argv : List Str}
    {out : List FlagOut} (h : flagParse lib c argv = some (c', out, true)) :
    Completes lib c argv := by
  obtain ⟨c₁, args, hreach, hlast⟩ := arrives_last lib (started c argv) (argsOf c argv)
  refine ⟨c₁, args, hreach, ?_⟩
  rw [flagParse_of_reaches (argv_of_flagParse h) hreach, loop_eq] at h
  cases hround : loopRound lib c₁ args with
  | next c₂ args₂ => exact absurd hround (hlast c₂ args₂)
  | help => exact Or.inl rfl
  | stop =>
    refine Or.inr ⟨rfl, ?_⟩
    rintro rfl
    rw [hround] at h
    have hend : parseEnd c₁ = (c', out, true) := Option.some.inj h
    rw [parseEnd_eq] at hend
    cases hmissing : (missing c₁.flags).getLast? with
    | none => exact List.getLast?_eq_none_iff.mp hmissing
    | some f =>
      rw [hmissing] at hend
      cases hend
  | _ =>
    rw [hround] at h
    cases h

/-! ## The reset -/

/-- What the caller sees of a call: the return value, the flags with their values and
marks, the program name, `rest_argc`, what the call prints and what `FlagPrintError`
prints behind it. -/
def shown (r : FlagCtx F D × List FlagOut × Bool) :
    Bool × List (Flag F D) × Option Str × ℕ × List FlagOut × Str :=
  (r.2.2, r.1.flags, r.1.programName, r.1.restArgc, r.2.1, flagPrintError r.1)

def registerAndParse (lib : FloatLib F D) (ctx : FlagCtx F D) (rs : List (Registration F D))
    (argv : List Str) : Option (FlagCtx F D × List FlagOut × Bool) :=
  (registerAll ctx rs).bind fun c => flagParse lib c argv

/-- Behind a reset of `c` the registrations and the call show what they show in a fresh
program. -/
def ResetClean (lib : FloatLib F D) (c : FlagCtx F D) (rs : List (Registration F D))
    (argv : List Str) : Prop :=
  (registerAndParse lib (contextReset c) rs argv).map shown =
    (registerAndParse lib flagCtxInit rs argv).map shown

theorem flagPrintError_noError_iff (c : FlagCtx F D) :
    flagPrintError c = flagPrintError (flagCtxInit : FlagCtx F D) ↔ c.flagError = .noError := by
  constructor
  · intro h
    have hhead := congrArg List.head? h
    unfold flagPrintError at hhead
    cases he : c.flagError with
    | noError => rfl
    | _ =>
      rw [he] at hhead
      cases hhead
  · intro h
    unfold flagPrintError
    rw [h]
    rfl

/-- A refused word shows the value that was there before. -/
theorem flagPrintError_unknown_iff {c d : FlagCtx F D} (hc : c.flagError = .unknown)
    (hd : d.flagError = .unknown) (hname : d.flagErrorName = c.flagErrorName) :
    flagPrintError d = flagPrintError c ↔ showStr d.flagErrorValue = showStr c.flagErrorValue := by
  unfold flagPrintError
  rw [hc, hd, hname]
  constructor
  · intro h
    exact List.append_cancel_left (List.append_cancel_right h)
  · intro h
    rw [h]

/-- A call that returns `true` leaves the report of an earlier call. -/
theorem shown_true {lib : FloatLib F D} {c d c' d' : FlagCtx F D} {argv : List Str}
    {out out' : List FlagOut} (hc : flagParse lib c argv = some (c', out, true))
    (hd : flagParse lib d argv = some (d', out', true)) :
    flagPrintError d' = flagPrintError c' ↔ flagPrintError d = flagPrintError c := by
  have hkept : ∀ {c c' : FlagCtx F D} {out : List FlagOut},
      flagParse lib c argv = some (c', out, true) → flagPrintError c' = flagPrintError c := by
    intro c c' out h
    obtain ⟨c₂, out₂, hparse, hprint⟩ := completes_true (argv_of_flagParse h) (completes_of_true h)
    rw [h] at hparse
    cases hparse
    exact hprint
  rw [hkept hc, hkept hd]

/-- A call that returns `false` shows what a call in a fresh program shows, unless it
refuses a word and a string was left in `flag_error_value`. -/
theorem shown_false {lib : FloatLib F D} {c d c' d' : FlagCtx F D} {argv : List Str}
    {out out' : List FlagOut} (h : Like c d) (hc : flagParse lib c argv = some (c', out, false))
    (hd : flagParse lib d argv = some (d', out', false)) (hreport : SameReport c' d') :
    flagPrintError d' = flagPrintError c' ↔
      (AtBadWord lib c argv → showStr d.flagErrorValue = showStr c.flagErrorValue) := by
  by_cases hbad : AtBadWord lib c argv
  · obtain ⟨c₂, hparse, hunknown, hvalue⟩ := flagParse_badWord (argv_of_flagParse hc) hbad
    obtain ⟨d₂, hparse', hunknown', hvalue'⟩ :=
      flagParse_badWord (argv_of_flagParse hd) (atBadWord_like hbad h)
    rw [hc] at hparse
    rw [hd] at hparse'
    cases hparse
    cases hparse'
    rw [flagPrintError_unknown_iff hunknown hunknown' hreport.name, hvalue, hvalue']
    exact ⟨fun heq _ => heq, fun heq => heq hbad⟩
  · have hlike' : Like d c := ⟨h.flags.symm, h.programName.symm, h.restArgc.symm⟩
    have hbad' : ¬ AtBadWord lib d argv := fun hd => hbad (atBadWord_like hd hlike')
    refine ⟨fun _ hat => absurd hat hbad, fun _ => ?_⟩
    refine flagPrintError_congr hreport.error hreport.name ?_
    rcases flagParse_value hc hbad with hplain | ⟨hunknown, name, hname, hvalue⟩
    · exact Or.inl hplain
    · rcases flagParse_value hd hbad' with hplain' | ⟨-, name', hname', hvalue'⟩
      · rw [hreport.error, hunknown] at hplain'
        exact absurd rfl hplain'.2.1
      · right
        rw [hvalue', hvalue, ← hname', ← hname, hreport.name]

/-- **When a reset forgets everything.**  Nothing of what was before shows through if and
only if, unless the registrations overflow the array, there was no error when the call
returns `true`, and `flag_error_value` printed as a null pointer when the call refuses
a word of a `FLAG_BOOL`. -/
theorem reset_clean_iff (lib : FloatLib F D) (c : FlagCtx F D) (rs : List (Registration F D))
    {argv : List Str} (hargv : argv ≠ []) :
    ResetClean lib c rs argv ↔
      (rs.length ≤ flagsCap →
        (Completes lib (registered rs) argv → c.flagError = .noError) ∧
        (AtBadWord lib (registered rs) argv → showStr c.flagErrorValue = "(null)".toList)) := by
  have hargv' : argv ≠ [] ∨ (registered rs).programName ≠ none := Or.inl hargv
  unfold ResetClean registerAndParse
  rw [registerAll_empty rfl, registerAll_empty rfl]
  by_cases hcap : rs.length ≤ flagsCap
  · rw [if_pos hcap, if_pos hcap, Option.bind_some, Option.bind_some]
    have hlike : Like (registered rs) { contextReset c with flags := rs.map Registration.flag } :=
      ⟨rfl, rfl, rfl⟩
    change (flagParse lib { contextReset c with flags := rs.map Registration.flag } argv).map shown =
      (flagParse lib (registered rs) argv).map shown ↔ _
    obtain ⟨hnone, hsome⟩ := flagParse_like lib hlike argv
    cases hparse : flagParse lib (registered rs) argv with
    | none =>
      rw [hnone hparse]
      refine ⟨fun _ _ => ⟨fun hcomp => ?_, fun hbad => ?_⟩, fun _ => rfl⟩
      · obtain ⟨c', out, htrue, -⟩ := completes_true hargv' hcomp
        rw [hparse] at htrue
        cases htrue
      · obtain ⟨c', hfalse, -⟩ := flagParse_badWord hargv' hbad
        rw [hparse] at hfalse
        cases hfalse
    | some res =>
      obtain ⟨f, out, r⟩ := res
      obtain ⟨d, hd, ⟨hflags, hprog, hargc⟩, hreport⟩ := hsome f out r hparse
      rw [hd, Option.map_some, Option.map_some, Option.some.injEq, shown, shown, hflags, hprog,
        hargc]
      simp only [Prod.mk.injEq, true_and]
      cases r with
      | true =>
        rw [shown_true hparse hd]
        have hprint := flagPrintError_noError_iff
          { contextReset c with flags := rs.map Registration.flag }
        refine hprint.trans ⟨fun herror _ => ⟨fun _ => herror, fun hbad => ?_⟩, fun hclean =>
          (hclean hcap).1 (completes_of_true hparse)⟩
        obtain ⟨c', hfalse, -⟩ := flagParse_badWord hargv' hbad
        rw [hparse] at hfalse
        cases hfalse
      | false =>
        rw [shown_false hlike hparse hd (hreport rfl)]
        refine ⟨fun hvalue _ => ⟨fun hcomp => ?_, hvalue⟩, fun hclean => (hclean hcap).2⟩
        obtain ⟨c', out', htrue, -⟩ := completes_true hargv' hcomp
        rw [hparse] at htrue
        cases htrue
  · rw [if_neg hcap, if_neg hcap]
    exact ⟨fun _ hle => absurd hle hcap, fun _ => rfl⟩

/-- The reset of a fresh program, a word, a number, and `prog -v=yes -n 7`. -/
theorem reset_clean_iff_fresh :
    ResetClean noFloat flagCtxInit
        [flagBool "v".toList false false none, flagInt "n".toList true 0 none]
        ["prog".toList, "-v=yes".toList, "-n".toList, "7".toList] ↔
      (2 ≤ flagsCap →
        (Completes noFloat (registered
            [flagBool "v".toList false false none, flagInt "n".toList true 0 none])
            ["prog".toList, "-v=yes".toList, "-n".toList, "7".toList] →
          (flagCtxInit : FlagCtx Unit Unit).flagError = .noError) ∧
        (AtBadWord noFloat (registered
            [flagBool "v".toList false false none, flagInt "n".toList true 0 none])
            ["prog".toList, "-v=yes".toList, "-n".toList, "7".toList] →
          showStr (flagCtxInit : FlagCtx Unit Unit).flagErrorValue = "(null)".toList)) :=
  reset_clean_iff noFloat flagCtxInit _ (List.cons_ne_nil _ _)

/-- Behind the registration of a word and `prog -zz`. -/
def refusedOnce : FlagCtx Unit Unit :=
  { (flagCtxInit : FlagCtx Unit Unit) with
    flags := [⟨"v".toList, .bool false, false, false⟩], flagError := .unknown,
    flagErrorName := some "zz".toList, flagErrorValue := some "zz".toList,
    programName := some "prog".toList }

/-- The error of `prog -zz` is printed behind a reset and a call that returns `true`. -/
theorem reset_keeps_error :
    registerAndParse noFloat flagCtxInit [flagBool "v".toList false false none]
        ["prog".toList, "-zz".toList] = some (refusedOnce, [], false) ∧
      ¬ ResetClean noFloat refusedOnce [flagBool "v".toList false false none] ["prog".toList] ∧
      ∃ c', registerAndParse noFloat (contextReset refusedOnce)
          [flagBool "v".toList false false none] ["prog".toList] = some (c', [], true) ∧
        flagPrintError c' = "ERROR: -zz: unknown flag\n    zz is not a valid flag\n".toList := by
  refine ⟨by decide, fun hclean => ?_, _, rfl, by decide⟩
  have hprint := congrArg (Option.map fun seen => seen.2.2.2.2.2) hclean
  exact absurd hprint (by decide)

end DataCommons.Flags
