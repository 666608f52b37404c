import Mathlib.Data.List.Nodup
import DataCommons.Flags.Model

/-!
# Reading the arguments

`readArgs` reads an argument vector once, from left to right, into options and a
rest, without knowing any flag.  `runOpts` applies options to the flags one after
the other.

**Theorem.**  `parseLoop_eq`: with pairwise distinct names, the loop of
`flag_parse` is `runOpts` on what `readArgs` has read.
-/

namespace DataCommons.Flags

variable {F D : Type}

/-! ## The reading -/

/-- An option; the value is missing when the arguments end before it. -/
structure Opt where
  name : Str
  ignore : Bool
  value : Option Str
  deriving DecidableEq

/-- The options up to the first token that is none, and the tokens from there on. -/
structure Reading where
  opts : List Opt
  rest : List Str
  deriving DecidableEq

/-- The optional prefix `/`. -/
def cutSlash : Str → Bool × Str
  | '/' :: flag => (true, flag)
  | flag => (false, flag)

/-- A token in option position: its name, whether it has the prefix `/`, and what
follows its first `=`. -/
def readToken : Str → Option (Str × Bool × Option Str)
  | '-' :: flag =>
    if flag = ['-'] then none
    else some ((cutEquals (cutSlash flag).2).1, (cutSlash flag).1, (cutEquals (cutSlash flag).2).2)
  | _ => none

def Reading.cons (o : Opt) (r : Reading) : Reading := { r with opts := o :: r.opts }

/-- An option takes its value from its own token or else the whole next token. -/
def readArgs : List Str → Reading
  | [] => ⟨[], []⟩
  | tok :: args =>
    match readToken tok with
    | none => ⟨[], tok :: args⟩
    | some (name, ignore, some v) => (readArgs args).cons ⟨name, ignore, some v⟩
    | some (name, ignore, none) =>
      match args with
      | [] => ⟨[⟨name, ignore, none⟩], []⟩
      | v :: args => (readArgs args).cons ⟨name, ignore, some v⟩

def IsHelp (name : Str) : Prop := name = "-h".toList ∨ name = "-help".toList

instance (name : Str) : Decidable (IsHelp name) := inferInstanceAs (Decidable (_ ∨ _))

/-! ## Applying options -/

inductive Verdict (F D : Type) where
  | ok (flags : List (Flag F D))
  | reject (err : FlagError)
  | help

/-- Give the flag of this name a value. -/
def setFlag (name : Str) (v : FlagVal F D) (flags : List (Flag F D)) : List (Flag F D) :=
  flags.map fun f => if f.name = name then { f with val := v, hasChanged := true } else f

def applyOpt (lib : FloatLib F D) (flags : List (Flag F D)) (o : Opt) : Option (Verdict F D) :=
  if IsHelp o.name then some .help
  else
    match flags.find? (·.name = o.name) with
    | none => some (.reject .unknown)
    | some f =>
      match o.value with
      | none => some (.reject .noValue)
      | some arg =>
        match flagStore lib o.ignore arg f.val with
        | none => none
        | some (.error e) => some (.reject e)
        | some (.ok v) => some (.ok (setFlag o.name v flags))

/-- The error fields after a rejected option. -/
def FlagCtx.reject (c : FlagCtx F D) (err : FlagError) (known : Bool) (name : Str) : FlagCtx F D :=
  if known then { c with flagError := err, flagErrorName := some name }
  else { c with flagError := err, flagErrorName := some name, flagErrorValue := some name }

/-- Apply the options in order, then stop at the rest or end. -/
def runOpts (lib : FloatLib F D) (rest : List Str) :
    FlagCtx F D → List Opt → Option (FlagCtx F D × List FlagOut × Bool)
  | c, [] =>
    if rest = [] then some (parseEnd c)
    else some ({ c with restArgc := rest.length, restArgv := rest }, [], true)
  | c, o :: os =>
    match applyOpt lib c.flags o with
    | none => none
    | some .help => some (c, [.help], true)
    | some (.reject e) =>
      some (c.reject e (c.flags.any (·.name = o.name)) o.name, [], false)
    | some (.ok flags) => runOpts lib rest { c with flags := flags } os

/-! ## The loop is the run -/

theorem readToken_eq_none {tok : Str} (h : tok.head? ≠ some '-' ∨ tok = "--".toList) :
    readToken tok = none := by
  rcases h with h | rfl
  · cases tok with
    | nil => rfl
    | cons c flag =>
      unfold readToken
      split
      · rename_i heq
        cases heq
        exact absurd rfl h
      · rfl
  · decide

theorem readToken_ne_none {tok : Str} (h : ¬ (tok.head? ≠ some '-' ∨ tok = "--".toList)) :
    readToken tok ≠ none := by
  rw [not_or, not_not] at h
  obtain ⟨flag, rfl⟩ := List.head?_eq_some_iff.mp h.1
  have hflag : flag ≠ ['-'] := by simpa using h.2
  rw [readToken, if_neg hflag]
  exact Option.some_ne_none _

/-- One round of the loop at a token that is an option. -/
theorem parseLoop_option (lib : FloatLib F D) (n : ℕ) (c : FlagCtx F D) {tok name : Str}
    {ignore : Bool} {equals : Option Str} (args : List Str)
    (h : readToken tok = some (name, ignore, equals)) :
    parseLoop lib (n + 1) c (tok :: args) =
      if IsHelp name then some (c, [.help], true)
      else
        match matchFlags lib name ignore equals c.flags args with
        | none => none
        | some m =>
          match m.err with
          | some e => some ({ c with flags := m.flags, flagError := e, flagErrorName := some name },
              [], false)
          | none =>
            if m.found then parseLoop lib n { c with flags := m.flags } m.args
            else some ({ c with flags := m.flags, flagError := .unknown, flagErrorName := some name,
                                flagErrorValue := some name }, [], false) := by
  have hstop : ¬ (tok.head? ≠ some '-' ∨ tok = "--".toList) := by
    intro hstop
    rw [readToken_eq_none hstop] at h
    cases h
  obtain ⟨flag, rfl⟩ := List.head?_eq_some_iff.mp (not_not.mp (not_or.mp hstop).1)
  have hflag : flag ≠ ['-'] := by simpa using (not_or.mp hstop).2
  rw [readToken, if_neg hflag] at h
  have hslash : cutSlash flag =
      (decide (flag.head? = some '/'), if flag.head? = some '/' then flag.drop 1 else flag) := by
    unfold cutSlash
    split
    · rfl
    · rename_i hne
      have hhead : ¬ flag.head? = some '/' := by
        intro heq
        obtain ⟨f, rfl⟩ := List.head?_eq_some_iff.mp heq
        exact hne f rfl
      simp [hhead]
  rw [hslash] at h
  rw [parseLoop, if_neg hstop]
  cases h
  simp only [List.drop_one, List.tail_cons, decide_eq_true_eq]
  rfl

theorem setFlag_cons_self {name : Str} {f : Flag F D} (h : f.name = name) (v : FlagVal F D)
    (fs : List (Flag F D)) :
    setFlag name v (f :: fs) = { f with val := v, hasChanged := true } :: setFlag name v fs := by
  rw [setFlag, List.map_cons, if_pos h, setFlag]

theorem setFlag_cons_of_ne {name : Str} {f : Flag F D} (h : f.name ≠ name) (v : FlagVal F D)
    (fs : List (Flag F D)) : setFlag name v (f :: fs) = f :: setFlag name v fs := by
  rw [setFlag, List.map_cons, if_neg h, setFlag]

/-- A name that no flag has is not found and changes nothing. -/
theorem find_of_not_mem {name : Str} {fs : List (Flag F D)} (h : name ∉ fs.map (·.name)) :
    fs.find? (·.name = name) = none ∧ ∀ v, setFlag name v fs = fs := by
  have hne : ∀ g ∈ fs, g.name ≠ name := fun g hg heq => h (List.mem_map.mpr ⟨g, hg, heq⟩)
  refine ⟨List.find?_eq_none.mpr fun g hg => by simpa using hne g hg, fun v => ?_⟩
  exact (List.map_congr_left fun g hg => if_neg (hne g hg)).trans (List.map_id fs)

/-- Behind the only flag of a name no flag has it. -/
theorem not_mem_of_count {name : Str} {f : Flag F D} {fs : List (Flag F D)}
    (hone : ((f :: fs).map (·.name)).count name ≤ 1) (hname : f.name = name) :
    name ∉ fs.map (·.name) := by
  rw [List.map_cons, hname, List.count_cons_self] at hone
  exact List.count_eq_zero.mp (Nat.le_zero.mp (Nat.le_of_succ_le_succ hone))

/-- When one flag at most has the name, the loop over the flags looks it up. -/
theorem matchFlags_eq (lib : FloatLib F D) (name : Str) (ignore : Bool) (equals : Option Str)
    {flags : List (Flag F D)} (hone : (flags.map (·.name)).count name ≤ 1) (args : List Str) :
    matchFlags lib name ignore equals flags args =
      match flags.find? (·.name = name) with
      | none => some ⟨flags, args, false, none⟩
      | some f =>
        match fetchArg equals args with
        | none => some ⟨flags, args, false, some .noValue⟩
        | some (arg, args) =>
          match flagStore lib ignore arg f.val with
          | none => none
          | some (.error e) => some ⟨flags, args, false, some e⟩
          | some (.ok v) => some ⟨setFlag name v flags, args, true, none⟩ := by
  induction flags generalizing args with
  | nil => rfl
  | cons f fs ih =>
    have ih := fun args => ih ((List.sublist_cons_self _ _).count_le name |>.trans hone) args
    rw [matchFlags]
    by_cases hname : f.name = name
    · obtain ⟨hnone, hset⟩ := find_of_not_mem (not_mem_of_count hone hname)
      rw [if_pos hname, List.find?_cons_of_pos (by simpa using hname)]
      dsimp only
      cases hfetch : fetchArg equals args with
      | none => rfl
      | some p =>
        obtain ⟨arg, args'⟩ := p
        dsimp only
        cases hstore : flagStore lib ignore arg f.val with
        | none => rfl
        | some r =>
          cases r with
          | error e => rfl
          | ok v =>
            dsimp only
            rw [ih, hnone, setFlag_cons_self hname, hset]
    · rw [if_neg hname, List.find?_cons_of_neg (by simpa using hname), ih]
      cases hfind : fs.find? (·.name = name) with
      | none => rfl
      | some g =>
        dsimp only
        cases hfetch : fetchArg equals args with
        | none => rfl
        | some p =>
          obtain ⟨arg, args'⟩ := p
          dsimp only
          cases hstore : flagStore lib ignore arg g.val with
          | none => rfl
          | some r =>
            cases r with
            | error e => rfl
            | ok v => simp only [setFlag_cons_of_ne hname]

theorem setFlag_names (name : Str) (v : FlagVal F D) (flags : List (Flag F D)) :
    (setFlag name v flags).map (·.name) = flags.map (·.name) := by
  rw [setFlag, List.map_map]
  refine List.map_congr_left fun f _ => ?_
  simp only [Function.comp]
  split
  · rfl
  · rfl

theorem any_name_of_find {flags : List (Flag F D)} {name : Str} {f : Flag F D}
    (h : flags.find? (·.name = name) = some f) : flags.any (·.name = name) = true := by
  have hf := List.find?_some h
  exact List.any_eq_true.mpr ⟨f, List.mem_of_find?_eq_some h, hf⟩

theorem any_name_of_find_none {flags : List (Flag F D)} {name : Str}
    (h : flags.find? (·.name = name) = none) : flags.any (·.name = name) = false := by
  rw [List.any_eq_false]
  exact List.find?_eq_none.mp h

/-- One option with its value, in the loop and in the run. -/
theorem parseLoop_step (lib : FloatLib F D) (n : ℕ) (c : FlagCtx F D)
    (hnames : (c.flags.map (·.name)).Nodup) {tok name : Str} {ignore : Bool} {equals : Option Str}
    {args args' : List Str} {v : Str} (htok : readToken tok = some (name, ignore, equals))
    (hfetch : fetchArg equals args = some (v, args')) (rest : List Str) (os : List Opt)
    (ih : ∀ flags : List (Flag F D), (flags.map (·.name)).Nodup →
      parseLoop lib n { c with flags := flags } args' =
        runOpts lib rest { c with flags := flags } os) :
    parseLoop lib (n + 1) c (tok :: args) = runOpts lib rest c (⟨name, ignore, some v⟩ :: os) := by
  have hone := List.nodup_iff_count_le_one.mp hnames name
  rw [parseLoop_option lib n c args htok, matchFlags_eq lib name ignore equals hone, runOpts,
    applyOpt]
  dsimp only
  by_cases hhelp : IsHelp name
  · rw [if_pos hhelp, if_pos hhelp]
  · rw [if_neg hhelp, if_neg hhelp, hfetch]
    cases hfind : c.flags.find? (·.name = name) with
    | none => simp [FlagCtx.reject, any_name_of_find_none hfind]
    | some f =>
      dsimp only
      cases hstore : flagStore lib ignore v f.val with
      | none => rfl
      | some r =>
        cases r with
        | error e => simp [FlagCtx.reject, any_name_of_find hfind]
        | ok w => exact ih _ (by rw [setFlag_names]; exact hnames)

/-- **The loop of `flag_parse` is the run over the reading.** -/
theorem parseLoop_eq (lib : FloatLib F D) {n : ℕ} (c : FlagCtx F D)
    (hnames : (c.flags.map (·.name)).Nodup) {args : List Str} (hn : args.length ≤ n) :
    parseLoop lib n c args = runOpts lib (readArgs args).rest c (readArgs args).opts := by
  induction n generalizing c args with
  | zero =>
    obtain rfl := List.eq_nil_of_length_eq_zero (Nat.le_zero.mp hn)
    rfl
  | succ n ih =>
    cases args with
    | nil => rfl
    | cons tok args =>
      rw [List.length_cons] at hn
      by_cases hstop : tok.head? ≠ some '-' ∨ tok = "--".toList
      · rw [parseLoop, if_pos hstop, readArgs, readToken_eq_none hstop]
        rfl
      · cases htok : readToken tok with
        | none => exact absurd htok (readToken_ne_none hstop)
        | some t =>
          obtain ⟨name, ignore, equals⟩ := t
          cases equals with
          | some v =>
            rw [readArgs, htok]
            exact parseLoop_step lib n c hnames htok rfl _ _
              fun flags hflags => ih { c with flags := flags } hflags (by omega)
          | none =>
            cases args with
            | cons v args =>
              rw [List.length_cons] at hn
              rw [readArgs, htok]
              exact parseLoop_step lib n c hnames htok rfl _ _
                fun flags hflags => ih { c with flags := flags } hflags (by omega)
            | nil =>
              have hone := List.nodup_iff_count_le_one.mp hnames name
              rw [readArgs, htok, parseLoop_option lib n c [] htok,
                matchFlags_eq lib name ignore none hone, runOpts, applyOpt]
              dsimp only
              by_cases hhelp : IsHelp name
              · rw [if_pos hhelp, if_pos hhelp]
              · rw [if_neg hhelp, if_neg hhelp]
                cases hfind : c.flags.find? (·.name = name) with
                | none => simp [FlagCtx.reject, any_name_of_find_none hfind]
                | some f => simp [FlagCtx.reject, any_name_of_find hfind, fetchArg]

end DataCommons.Flags
