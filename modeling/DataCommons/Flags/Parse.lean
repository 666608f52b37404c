import Mathlib.Data.List.Forall2
import DataCommons.Flags.Reading

/-!
# What `flag_parse` does

* `flagParse_reads`: when it returns `true` without help, the flags, the rest and
  the program name are those of the reading of the arguments;
* `mandatory_iff`: when a returned `true` means that every mandatory flag was
  given.
-/

namespace DataCommons.Flags

variable {F D : Type}

/-! ## What a stored value depends on -/

inductive FlagType where
  | bool | uint8 | uint16 | uint32 | uint64 | int | float | double | size | str | list
  deriving DecidableEq, Repr

def FlagVal.type : FlagVal F D → FlagType
  | .bool _ => .bool
  | .uint8 _ => .uint8
  | .uint16 _ => .uint16
  | .uint32 _ => .uint32
  | .uint64 _ => .uint64
  | .int _ => .int
  | .float _ => .float
  | .double _ => .double
  | .size _ => .size
  | .str _ => .str
  | .list _ => .list

/-- The error of a case of the `switch`. -/
def caseError (lib : FloatLib F D) (ignore : Bool) (arg : Str) (v : FlagVal F D) :
    Option FlagError :=
  match flagStore lib ignore arg v with
  | some (.error e) => some e
  | _ => none

theorem map_ok_iff {ε α β : Type} {r : Except ε α} {g : α → β} {b : β} :
    r.map g = .ok b ↔ ∃ a, r = .ok a ∧ b = g a := by
  constructor
  · intro h
    cases r with
    | error e => cases h
    | ok a =>
      cases h
      exact ⟨a, rfl, rfl⟩
  · rintro ⟨a, rfl, rfl⟩
    rfl

theorem flagStore_type {lib : FloatLib F D} {ignore : Bool} {arg : Str} {v w : FlagVal F D}
    (h : flagStore lib ignore arg v = some (.ok w)) : w.type = v.type := by
  cases v with
  | str s =>
    cases h
    rfl
  | list items =>
    rw [flagStore] at h
    split at h
    · cases h
      rfl
    · obtain ⟨l, -, hl⟩ := Option.map_eq_some_iff.mp h
      cases hl
      rfl
  | _ =>
    obtain ⟨a, -, rfl⟩ := map_ok_iff.mp (Option.some.inj h)
    rfl

/-- A scalar that is stored does not depend on the old one. -/
theorem flagStore_congr (lib : FloatLib F D) (arg : Str) {v w : FlagVal F D}
    (ht : v.type = w.type) (hlist : v.type ≠ .list) :
    flagStore lib false arg v = flagStore lib false arg w := by
  cases v <;> cases w <;> first | rfl | exact absurd rfl hlist | cases ht

theorem caseError_list (lib : FloatLib F D) (ignore : Bool) (arg : Str) (items : List Str) :
    caseError lib ignore arg (.list items) = none := by
  rw [caseError, flagStore]
  cases ignore with
  | true => rfl
  | false =>
    rw [if_neg Bool.false_ne_true]
    cases flagListAppend items arg with
    | none => rfl
    | some l => rfl

/-- Whether a value is refused depends on the type alone. -/
theorem caseError_congr (lib : FloatLib F D) (ignore : Bool) (arg : Str) {v w : FlagVal F D}
    (ht : v.type = w.type) : caseError lib ignore arg v = caseError lib ignore arg w := by
  have hnum : ∀ {α : Type} (old old' : α) (r : Except FlagError α) (g : α → FlagVal F D),
      (match some ((storeNumber ignore old r).map g) with
        | some (.error e) => some e
        | _ => none) =
      (match some ((storeNumber ignore old' r).map g) with
        | some (.error e) => some e
        | _ => none) := by
    intro α old old' r g
    cases r with
    | error e => rfl
    | ok a => rfl
  have hbool : ∀ b b' : Bool,
      caseError lib ignore arg (.bool b) = caseError lib ignore arg (.bool b') := by
    intro b b'
    cases ignore with
    | true => rfl
    | false => rfl
  have hlist : ∀ l l' : List Str,
      caseError lib ignore arg (.list l) = caseError lib ignore arg (.list l') := by
    intro l l'
    rw [caseError_list, caseError_list]
  cases v <;> cases w <;>
    first | rfl | exact hbool _ _ | exact hlist _ _ | exact hnum _ _ _ _ | cases ht

theorem flagStore_ignore {lib : FloatLib F D} {arg : Str} {v w : FlagVal F D}
    (h : flagStore lib true arg v = some (.ok w)) : w = v := by
  cases v with
  | bool b =>
    cases h
    rfl
  | str s =>
    cases h
    rfl
  | list items =>
    cases h
    rfl
  | _ =>
    obtain ⟨a, hr, rfl⟩ := map_ok_iff.mp (Option.some.inj h)
    obtain ⟨b, -, rfl⟩ := map_ok_iff.mp hr
    rfl

/-! ## The mandatory check -/

/-- The mandatory flags that have not been given. -/
def missing (fs : List (Flag F D)) : List (Flag F D) :=
  fs.filter fun f => f.isMandatory && !f.hasChanged

def missingText (f : Flag F D) : FlagOut :=
  .text ("ERROR: -".toList ++ f.name ++ ": no value provided\n".toList)

/-- **The loop over the mandatory flags**: a report for each that is missing, and the last
one stays in the error fields. -/
theorem checkMandatory_eq (c : FlagCtx F D) (fs : List (Flag F D)) :
    checkMandatory c fs =
      (match (missing fs).getLast? with
        | none => c
        | some f => { c with flagError := .noValue, flagErrorName := some f.name },
      (missing fs).map missingText, !(missing fs).isEmpty) := by
  induction fs generalizing c with
  | nil => rfl
  | cons f fs ih =>
    rw [checkMandatory]
    by_cases hf : (f.isMandatory && !f.hasChanged) = true
    · have hcons : missing (f :: fs) = f :: missing fs := List.filter_cons_of_pos hf
      rw [if_pos hf, hcons]
      dsimp only
      rw [ih, List.getLast?_cons, List.map_cons, List.isEmpty_cons]
      cases (missing fs).getLast? with
      | none => rfl
      | some g => rfl
    · have hcons : missing (f :: fs) = missing fs := List.filter_cons_of_neg hf
      rw [if_neg hf, hcons, ih]

theorem missing_eq_nil {fs : List (Flag F D)} :
    missing fs = [] ↔ (fs.any fun f => f.isMandatory && !f.hasChanged) = false := by
  rw [missing, List.filter_eq_nil_iff, List.any_eq_false]

/-- The end of the arguments: `true` if and only if no mandatory flag is missing. -/
theorem parseEnd_eq (c : FlagCtx F D) :
    parseEnd c =
      match (missing c.flags).getLast? with
      | none => ({ c with restArgc := 0, restArgv := [] }, [], true)
      | some f => ({ c with flagError := .noValue, flagErrorName := some f.name },
          (missing c.flags).map missingText, false) := by
  rw [parseEnd, checkMandatory_eq]
  cases hmissing : missing c.flags with
  | nil => rfl
  | cons f fs =>
    dsimp only
    rw [List.isEmpty_cons, List.getLast?_cons]
    rfl

theorem parseEnd_spec (c : FlagCtx F D) :
    ∃ c' out, parseEnd c =
        (c', out, !c.flags.any fun f => f.isMandatory && !f.hasChanged) ∧ .help ∉ out ∧
      c'.flags = c.flags ∧ c'.programName = c.programName ∧
      ((!c.flags.any fun f => f.isMandatory && !f.hasChanged) = true →
        c'.restArgc = 0 ∧ c'.restArgv = []) := by
  rw [parseEnd_eq]
  cases hlast : (missing c.flags).getLast? with
  | none =>
    rw [missing_eq_nil.mp (List.getLast?_eq_none_iff.mp hlast)]
    exact ⟨_, _, rfl, List.not_mem_nil, rfl, rfl, fun _ => ⟨rfl, rfl⟩⟩
  | some f =>
    have hany : (c.flags.any fun f => f.isMandatory && !f.hasChanged) = true := by
      by_contra hnot
      rw [missing_eq_nil.mpr (Bool.eq_false_iff.mpr hnot)] at hlast
      cases hlast
    rw [hany]
    refine ⟨_, _, rfl, fun hmem => ?_, rfl, rfl, fun h => by cases h⟩
    obtain ⟨g, -, hg⟩ := List.mem_map.mp hmem
    cases hg

/-! ## The flags after a run -/

/-- The values that options without `/` give to the flag of this name, in order. -/
def valuesFor (name : Str) (os : List Opt) : List Str :=
  os.filterMap fun o => if o.name = name ∧ o.ignore = false then o.value else none

theorem valuesFor_other {name : Str} {o : Opt} (os : List Opt) (ho : o.name ≠ name) :
    valuesFor name (o :: os) = valuesFor name os :=
  List.filterMap_cons_none (if_neg fun h => ho h.1)

theorem valuesFor_ignored {name : Str} {o : Opt} (os : List Opt) (hig : o.ignore = true) :
    valuesFor name (o :: os) = valuesFor name os :=
  List.filterMap_cons_none (if_neg fun h => by simp [hig] at h)

theorem valuesFor_stored {name arg : Str} {o : Opt} (os : List Opt) (ho : o.name = name)
    (hig : o.ignore = false) (hvalue : o.value = some arg) :
    valuesFor name (o :: os) = arg :: valuesFor name os :=
  List.filterMap_cons_some (by rw [if_pos ⟨ho, hig⟩, hvalue])

/-- What the options make of a flag: a scalar holds the conversion of its last
value, a list has all of them behind its old items. -/
structure FinalFlag (lib : FloatLib F D) (os : List Opt) (f f' : Flag F D) : Prop where
  name : f'.name = f.name
  isMandatory : f'.isMandatory = f.isMandatory
  hasChanged : f'.hasChanged = (f.hasChanged || os.any (·.name = f.name))
  list : ∀ items, f.val = .list items → f'.val = .list (items ++ valuesFor f.name os)
  kept : valuesFor f.name os = [] → f'.val = f.val
  converted : f.val.type ≠ .list → ∀ arg, (valuesFor f.name os).getLast? = some arg →
    flagStore lib false arg f.val = some (.ok f'.val)

theorem flagListAppend_eq_some {items l : List Str} {arg : Str}
    (h : flagListAppend items arg = some l) :
    items.length < flagListInitCap ∧ l = items ++ [arg] := by
  unfold flagListAppend at h
  split at h
  · rename_i hlt
    cases h
    exact ⟨hlt, rfl⟩
  · cases h

theorem FinalFlag.nil (lib : FloatLib F D) (f : Flag F D) : FinalFlag lib [] f f where
  name := rfl
  isMandatory := rfl
  hasChanged := by simp
  list := fun items h => by simp [valuesFor, h]
  kept := fun _ => rfl
  converted := fun _ arg h => by simp [valuesFor] at h

theorem FinalFlag.cons_other {lib : FloatLib F D} {os : List Opt} {f f' : Flag F D} {o : Opt}
    (h : FinalFlag lib os f f') (ho : o.name ≠ f.name) : FinalFlag lib (o :: os) f f' := by
  have hvalues := valuesFor_other os ho
  refine ⟨h.name, h.isMandatory, ?_, ?_, ?_, ?_⟩
  · rw [h.hasChanged, List.any_cons, decide_eq_false ho, Bool.false_or]
  · rw [hvalues]
    exact h.list
  · rw [hvalues]
    exact h.kept
  · rw [hvalues]
    exact h.converted

/-- Which options have changed the flag, this one being for it. -/
theorem FinalFlag.hasChanged_cons {lib : FloatLib F D} {os : List Opt} {f f' : Flag F D} {o : Opt}
    {v : FlagVal F D} (ho : o.name = f.name)
    (h : FinalFlag lib os { f with val := v, hasChanged := true } f') :
    f'.hasChanged = (f.hasChanged || (o :: os).any (·.name = f.name)) := by
  rw [h.hasChanged, List.any_cons, decide_eq_true ho]
  simp

/-- An ignored option for this flag leaves the value to the others. -/
theorem FinalFlag.cons_ignored {lib : FloatLib F D} {os : List Opt} {f f' : Flag F D} {o : Opt}
    (hig : o.ignore = true) (ho : o.name = f.name)
    (h : FinalFlag lib os { f with hasChanged := true } f') : FinalFlag lib (o :: os) f f' := by
  have hvalues : valuesFor f.name (o :: os) = valuesFor f.name os := valuesFor_ignored os hig
  refine ⟨h.name, h.isMandatory, h.hasChanged_cons ho, ?_, ?_, ?_⟩
  · rw [hvalues]
    exact h.list
  · rw [hvalues]
    exact h.kept
  · rw [hvalues]
    exact h.converted

theorem FinalFlag.cons_stored {lib : FloatLib F D} {os : List Opt} {f f' : Flag F D} {o : Opt}
    {arg : Str} {v : FlagVal F D} (hig : o.ignore = false)
    (hstore : flagStore lib false arg f.val = some (.ok v)) (hvalue : o.value = some arg)
    (ho : o.name = f.name) (h : FinalFlag lib os { f with val := v, hasChanged := true } f') :
    FinalFlag lib (o :: os) f f' := by
  have hvalues := valuesFor_stored os ho hig hvalue
  have hlist := h.list
  have hkept := h.kept
  have hconv := h.converted
  dsimp only at hlist hkept hconv
  refine ⟨h.name, h.isMandatory, h.hasChanged_cons ho, ?_, ?_, ?_⟩
  · intro items hitems
    rw [hitems, flagStore, if_neg Bool.false_ne_true] at hstore
    obtain ⟨l, happ, hl⟩ := Option.map_eq_some_iff.mp hstore
    cases hl
    rw [hlist l rfl, hvalues, (flagListAppend_eq_some happ).2, List.append_assoc]
    rfl
  · rw [hvalues]
    exact fun hnil => absurd hnil (List.cons_ne_nil _ _)
  · intro htype a ha
    have hv := flagStore_type hstore
    rw [hvalues, List.getLast?_cons] at ha
    cases hlast : (valuesFor f.name os).getLast? with
    | none =>
      rw [hlast] at ha
      obtain rfl : arg = a := by simpa using ha
      rw [hkept (List.getLast?_eq_none_iff.mp hlast)]
      exact hstore
    | some b =>
      rw [hlast] at ha
      obtain rfl : b = a := by simpa using ha
      rw [flagStore_congr lib b hv.symm htype]
      exact hconv (by rw [hv]; exact htype) b hlast

theorem FinalFlag.cons_self {lib : FloatLib F D} {os : List Opt} {f f' : Flag F D} {o : Opt}
    {arg : Str} {v : FlagVal F D} (hstore : flagStore lib o.ignore arg f.val = some (.ok v))
    (hvalue : o.value = some arg) (ho : o.name = f.name)
    (h : FinalFlag lib os { f with val := v, hasChanged := true } f') :
    FinalFlag lib (o :: os) f f' := by
  cases hig : o.ignore with
  | true =>
    rw [hig] at hstore
    obtain rfl := flagStore_ignore hstore
    exact h.cons_ignored hig ho
  | false =>
    rw [hig] at hstore
    exact h.cons_stored hig hstore hvalue ho

/-! ## The run and the whole call -/

theorem applyOpt_ok {lib : FloatLib F D} {flags flags' : List (Flag F D)} {o : Opt}
    (h : applyOpt lib flags o = some (.ok flags')) :
    ∃ f ∈ flags, f.name = o.name ∧ ∃ arg v, o.value = some arg ∧
      flagStore lib o.ignore arg f.val = some (.ok v) ∧ flags' = setFlag o.name v flags := by
  unfold applyOpt at h
  split at h
  · cases h
  · split at h
    · cases h
    · rename_i f hfind
      split at h
      · cases h
      · rename_i arg hvalue
        split at h
        · cases h
        · cases h
        · rename_i v hstore
          cases h
          have hname := List.find?_some hfind
          exact ⟨f, List.mem_of_find?_eq_some hfind, by simpa using hname, arg, v, hvalue, hstore, rfl⟩

theorem isHelp_of_applyOpt {lib : FloatLib F D} {flags : List (Flag F D)} {o : Opt}
    (h : applyOpt lib flags o = some .help) : IsHelp o.name := by
  unfold applyOpt at h
  split at h
  · assumption
  · exfalso
    split at h
    · cases h
    · split at h
      · cases h
      · split at h
        · cases h
        · cases h
        · cases h

/-- **A run that returns `true`.** -/
theorem runOpts_true {lib : FloatLib F D} {rest : List Str} {c c' : FlagCtx F D}
    {os : List Opt} {out : List FlagOut} (hnames : (c.flags.map (·.name)).Nodup)
    (hrun : runOpts lib rest c os = some (c', out, true)) (hhelp : .help ∉ out) :
    List.Forall₂ (FinalFlag lib os) c.flags c'.flags ∧ c'.programName = c.programName ∧
      c'.restArgc = rest.length ∧ c'.restArgv = rest ∧
      (rest = [] → ∀ f ∈ c'.flags, f.isMandatory = true → f.hasChanged = true) := by
  induction os generalizing c with
  | nil =>
    rw [runOpts] at hrun
    by_cases hrest : rest = []
    · obtain ⟨c'', out', hend, -, hflags, hprog, hargs⟩ := parseEnd_spec c
      rw [if_pos hrest, hend] at hrun
      simp only [Option.some.injEq, Prod.mk.injEq] at hrun
      obtain ⟨rfl, rfl, hok⟩ := hrun
      obtain ⟨hargc, hargv⟩ := hargs hok
      refine ⟨?_, hprog, by rw [hargc, hrest, List.length_nil], by rw [hargv, hrest], ?_⟩
      · rw [hflags]
        exact List.forall₂_same.mpr fun f _ => FinalFlag.nil lib f
      · intro _ f hf hm
        rw [hflags] at hf
        rw [Bool.not_eq_true', List.any_eq_false] at hok
        have := hok f hf
        simpa [hm] using this
    · rw [if_neg hrest] at hrun
      cases hrun
      exact ⟨List.forall₂_same.mpr fun f _ => FinalFlag.nil lib f, rfl, rfl, rfl,
        fun h => absurd h hrest⟩
  | cons o os ih =>
    rw [runOpts] at hrun
    split at hrun
    · cases hrun
    · cases hrun
      exact absurd List.mem_cons_self hhelp
    · cases hrun
    · rename_i flags happly
      obtain ⟨f, hf, hname, arg, v, hvalue, hstore, rfl⟩ := applyOpt_ok happly
      obtain ⟨hfinal, hprog, hargc, hargv, hmand⟩ := ih (by rw [setFlag_names]; exact hnames) hrun
      refine ⟨?_, hprog, hargc, hargv, hmand⟩
      rw [setFlag, List.forall₂_map_left_iff] at hfinal
      have hmem := (List.forall₂_and_left c.flags c'.flags).mpr ⟨fun g hg => hg, hfinal⟩
      apply hmem.imp
      rintro g g' ⟨hg, hg'⟩
      by_cases hgo : g.name = o.name
      · obtain rfl : f = g := List.inj_on_of_nodup_map hnames hf hg (hname.trans hgo.symm)
        rw [if_pos hgo] at hg'
        exact FinalFlag.cons_self hstore hvalue hgo.symm hg'
      · rw [if_neg hgo] at hg'
        exact FinalFlag.cons_other hg' (Ne.symm hgo)

/-- The arguments that are read as options. -/
def argsOf (c : FlagCtx F D) (argv : List Str) : List Str :=
  match c.programName with
  | none => argv.tail
  | some _ => argv

/-- The context once the program name is taken. -/
def started (c : FlagCtx F D) (argv : List Str) : FlagCtx F D :=
  match c.programName with
  | none => { c with programName := argv.head? }
  | some _ => c

theorem started_flags (c : FlagCtx F D) (argv : List Str) : (started c argv).flags = c.flags := by
  unfold started
  split
  · rfl
  · rfl

theorem flagParse_eq (lib : FloatLib F D) {c : FlagCtx F D} {argv : List Str}
    (hnames : (c.flags.map (·.name)).Nodup) (hargv : argv ≠ []) :
    flagParse lib c argv = runOpts lib (readArgs (argsOf c argv)).rest (started c argv)
      (readArgs (argsOf c argv)).opts := by
  unfold flagParse argsOf started
  cases c.programName with
  | some name => exact parseLoop_eq lib c hnames (Nat.le_refl _)
  | none =>
    cases argv with
    | nil => exact absurd rfl hargv
    | cons prog args =>
      exact parseLoop_eq lib { c with programName := some prog } hnames (Nat.le_refl _)

/-- **`flag_parse` and the reading of the arguments.**  When it returns `true`
without serving help, every flag is what the options that were read make of it, and
the rest is where the reading stopped. -/
theorem flagParse_reads (lib : FloatLib F D) {c c' : FlagCtx F D} {argv : List Str}
    {out : List FlagOut} (hnames : (c.flags.map (·.name)).Nodup) (hprog : c.programName = none)
    (hargv : argv ≠ []) (hparse : flagParse lib c argv = some (c', out, true))
    (hhelp : .help ∉ out) :
    c'.programName = argv.head? ∧
      List.Forall₂ (FinalFlag lib (readArgs argv.tail).opts) c.flags c'.flags ∧
      c'.restArgc = (readArgs argv.tail).rest.length ∧ c'.restArgv = (readArgs argv.tail).rest := by
  have hargs : argsOf c argv = argv.tail := by rw [argsOf, hprog]
  have hstart : (started c argv).programName = argv.head? := by rw [started, hprog]
  rw [flagParse_eq lib hnames hargv, hargs] at hparse
  obtain ⟨hfinal, hprog', hargc, hargv', -⟩ :=
    runOpts_true (by rw [started_flags]; exact hnames) hparse hhelp
  rw [started_flags] at hfinal
  exact ⟨hprog'.trans hstart, hfinal, hargc, hargv'⟩

/-! A context with a word, a mandatory number and a list. -/

def noFloat : FloatLib Unit Unit where
  strtof := fun s => ⟨(), s, false⟩
  strtod := fun s => ⟨(), s, false⟩
  isFltMax := fun _ => false
  isDblMax := fun _ => false

def threeFlags : FlagCtx Unit Unit where
  flags := [⟨"v".toList, .bool false, false, false⟩, ⟨"n".toList, .uint8 1, true, false⟩,
    ⟨"I".toList, .list [], false, false⟩]
  flagError := .noError
  flagErrorName := none
  flagErrorValue := none
  programName := none
  restArgc := 0
  restArgv := []

def goodArgv : List Str :=
  ["prog", "-I=a", "-v", "yes", "-/I", "b", "-n=7", "-I", "-c", "--", "-x"].map String.toList

def goodResult : FlagCtx Unit Unit where
  flags := [⟨"v".toList, .bool true, false, true⟩, ⟨"n".toList, .uint8 7, true, true⟩,
    ⟨"I".toList, .list ["a".toList, "-c".toList], false, true⟩]
  flagError := .noError
  flagErrorName := none
  flagErrorValue := none
  programName := some "prog".toList
  restArgc := 2
  restArgv := ["--".toList, "-x".toList]

theorem flagParse_reads_good :
    goodResult.programName = goodArgv.head? ∧
      List.Forall₂ (FinalFlag noFloat (readArgs goodArgv.tail).opts) threeFlags.flags
        goodResult.flags ∧
      goodResult.restArgc = (readArgs goodArgv.tail).rest.length ∧
      goodResult.restArgv = (readArgs goodArgv.tail).rest :=
  flagParse_reads noFloat (by decide) rfl (by decide) (by decide : flagParse noFloat threeFlags
    goodArgv = some (goodResult, [], true)) List.not_mem_nil

/-! ## When `true` means that every mandatory flag was given -/

def MandatoryGiven (flags : List (Flag F D)) (os : List Opt) : Prop :=
  ∀ f ∈ flags, f.isMandatory = true → ∃ o ∈ os, o.name = f.name

/-- A flag has this name and takes the option's value. -/
def Known (lib : FloatLib F D) (flags : List (Flag F D)) (o : Opt) : Prop :=
  ∃ f ∈ flags, f.name = o.name ∧ ∃ arg, o.value = some arg ∧
    caseError lib o.ignore arg f.val = none

/-- The items of a list flag fit. -/
def RoomFor (os : List Opt) (f : Flag F D) : Prop :=
  ∀ items, f.val = .list items → valuesFor f.name os = [] ∨
    items.length + (valuesFor f.name os).length ≤ flagListInitCap

structure Accepts (lib : FloatLib F D) (flags : List (Flag F D)) (os : List Opt) : Prop where
  known : ∀ o ∈ os, Known lib flags o
  room : ∀ f ∈ flags, RoomFor os f

section Store

variable {lib : FloatLib F D} {flags : List (Flag F D)} {f : Flag F D} {o : Opt} {arg : Str}
  {v : FlagVal F D}

theorem mem_setFlag {name : Str} {g : Flag F D} (hnames : (flags.map (·.name)).Nodup)
    (hf : f ∈ flags) (hname : f.name = name) :
    g ∈ setFlag name v flags ↔
      g = { f with val := v, hasChanged := true } ∨ (g ∈ flags ∧ g.name ≠ name) := by
  rw [setFlag, List.mem_map]
  constructor
  · rintro ⟨g', hg', rfl⟩
    by_cases hg : g'.name = name
    · obtain rfl : g' = f := List.inj_on_of_nodup_map hnames hg' hf (hg.trans hname.symm)
      exact Or.inl (if_pos hg)
    · rw [if_neg hg]
      exact Or.inr ⟨hg', hg⟩
  · rintro (rfl | ⟨hg, hne⟩)
    · exact ⟨f, hf, if_pos hname⟩
    · exact ⟨g, hg, if_neg hne⟩

/-- A stored value changes no type, so it changes nothing about what is known. -/
theorem known_setFlag (hnames : (flags.map (·.name)).Nodup) (hf : f ∈ flags)
    (hname : f.name = o.name) (hstore : flagStore lib o.ignore arg f.val = some (.ok v))
    (o' : Opt) : Known lib (setFlag o.name v flags) o' ↔ Known lib flags o' := by
  have htype := flagStore_type hstore
  constructor
  · rintro ⟨g, hg, hgo, arg', hvalue, herr⟩
    rcases (mem_setFlag hnames hf hname).mp hg with rfl | ⟨hg, -⟩
    · exact ⟨f, hf, hgo, arg', hvalue, by rw [← caseError_congr lib _ _ htype]; exact herr⟩
    · exact ⟨g, hg, hgo, arg', hvalue, herr⟩
  · rintro ⟨g, hg, hgo, arg', hvalue, herr⟩
    by_cases hgn : g.name = o.name
    · obtain rfl : g = f := List.inj_on_of_nodup_map hnames hg hf (hgn.trans hname.symm)
      exact ⟨_, (mem_setFlag hnames hg hname).mpr (Or.inl rfl), hgo, arg', hvalue,
        by rw [caseError_congr lib _ _ htype]; exact herr⟩
    · exact ⟨g, (mem_setFlag hnames hf hname).mpr (Or.inr ⟨hg, hgn⟩), hgo, arg', hvalue, herr⟩

theorem roomFor_self (hname : f.name = o.name) (hvalue : o.value = some arg)
    (hstore : flagStore lib o.ignore arg f.val = some (.ok v)) (os : List Opt) :
    RoomFor os { f with val := v, hasChanged := true } ↔ RoomFor (o :: os) f := by
  have htype := flagStore_type hstore
  unfold RoomFor
  dsimp only
  cases hval : f.val with
  | list items =>
    rw [hval, flagStore] at hstore
    cases hig : o.ignore with
    | true =>
      rw [hig, if_pos rfl] at hstore
      cases hstore
      rw [valuesFor_ignored os hig]
    | false =>
      rw [hig, if_neg Bool.false_ne_true] at hstore
      obtain ⟨l, happ, hl⟩ := Option.map_eq_some_iff.mp hstore
      cases hl
      obtain ⟨hlt, rfl⟩ := flagListAppend_eq_some happ
      rw [valuesFor_stored os hname.symm hig hvalue]
      have hnil : arg :: valuesFor f.name os ≠ [] := List.cons_ne_nil _ _
      simp only [FlagVal.list.injEq, forall_eq', List.length_append, List.length_cons,
        List.length_nil, hnil, false_or]
      constructor
      · rintro (hnone | hle)
        · rw [hnone, List.length_nil]
          omega
        · omega
      · intro hle
        exact Or.inr (by omega)
  | _ =>
    rw [hval] at htype
    constructor
    · intro _ items hitems
      cases hitems
    · intro _ items hitems
      rw [hitems] at htype
      cases htype

theorem room_setFlag (hnames : (flags.map (·.name)).Nodup) (hf : f ∈ flags)
    (hname : f.name = o.name) (hvalue : o.value = some arg)
    (hstore : flagStore lib o.ignore arg f.val = some (.ok v)) (os : List Opt) :
    (∀ g ∈ setFlag o.name v flags, RoomFor os g) ↔ ∀ g ∈ flags, RoomFor (o :: os) g := by
  have hother : ∀ g : Flag F D, g.name ≠ o.name → (RoomFor os g ↔ RoomFor (o :: os) g) := by
    intro g hg
    unfold RoomFor
    rw [valuesFor_other os (Ne.symm hg)]
  constructor
  · intro h g hg
    by_cases hgn : g.name = o.name
    · obtain rfl : g = f := List.inj_on_of_nodup_map hnames hg hf (hgn.trans hname.symm)
      exact (roomFor_self hname hvalue hstore os).mp
        (h _ ((mem_setFlag hnames hg hname).mpr (Or.inl rfl)))
    · exact (hother g hgn).mp (h g ((mem_setFlag hnames hf hname).mpr (Or.inr ⟨hg, hgn⟩)))
  · intro h g hg
    rcases (mem_setFlag hnames hf hname).mp hg with rfl | ⟨hg, hgn⟩
    · exact (roomFor_self hname hvalue hstore os).mpr (h f hf)
    · exact (hother g hgn).mpr (h g hg)

end Store

theorem find_of_mem {flags : List (Flag F D)} {f : Flag F D} {name : Str}
    (hone : (flags.map (·.name)).count name ≤ 1) (hf : f ∈ flags) (hname : f.name = name) :
    flags.find? (·.name = name) = some f := by
  induction flags with
  | nil => cases hf
  | cons g fs ih =>
    by_cases hg : g.name = name
    · have hmem := not_mem_of_count hone hg
      rw [List.find?_cons_of_pos (by simpa using hg)]
      rcases List.mem_cons.mp hf with rfl | hf
      · rfl
      · exact absurd (List.mem_map.mpr ⟨f, hf, hname⟩) hmem
    · rw [List.find?_cons_of_neg (by simpa using hg)]
      refine ih ((List.sublist_cons_self _ _).count_le name |>.trans hone) ?_
      exact (List.mem_cons.mp hf).resolve_left fun heq => hg (heq ▸ hname)

/-- An option that is known and has room is applied. -/
theorem applyOpt_of_known {lib : FloatLib F D} {flags : List (Flag F D)} {o : Opt} {os : List Opt}
    (hnames : (flags.map (·.name)).Nodup) (hhelp : ¬ IsHelp o.name) {f : Flag F D} {arg : Str}
    (hf : f ∈ flags) (hname : f.name = o.name) (hvalue : o.value = some arg)
    (herr : caseError lib o.ignore arg f.val = none) (hroom : RoomFor (o :: os) f) :
    ∃ v, flagStore lib o.ignore arg f.val = some (.ok v) ∧
      applyOpt lib flags o = some (.ok (setFlag o.name v flags)) := by
  rw [applyOpt, if_neg hhelp, find_of_mem (List.nodup_iff_count_le_one.mp hnames _) hf hname]
  dsimp only
  rw [hvalue]
  dsimp only
  cases hstore : flagStore lib o.ignore arg f.val with
  | none =>
    -- only a full list is not stored
    exfalso
    cases hval : f.val with
    | list items =>
      rw [hval, flagStore] at hstore
      cases hig : o.ignore with
      | true =>
        rw [hig, if_pos rfl] at hstore
        cases hstore
      | false =>
        rw [hig, if_neg Bool.false_ne_true, Option.map_eq_none_iff, flagListAppend] at hstore
        have hle := (hroom items hval).resolve_left (by
          rw [valuesFor_stored os hname.symm hig hvalue]
          exact List.cons_ne_nil _ _)
        rw [valuesFor_stored os hname.symm hig hvalue, List.length_cons] at hle
        rw [if_pos (by omega)] at hstore
        cases hstore
    | _ =>
      rw [hval] at hstore
      cases hstore
  | some r =>
    cases r with
    | error e =>
      rw [caseError, hstore] at herr
      cases herr
    | ok v => exact ⟨v, rfl, rfl⟩

/-- **When a run with a rest returns `true`.** -/
theorem runOpts_true_iff {lib : FloatLib F D} {rest : List Str} {c : FlagCtx F D} {os : List Opt}
    (hnames : (c.flags.map (·.name)).Nodup) (hrest : rest ≠ [])
    (hhelp : ∀ o ∈ os, ¬ IsHelp o.name) :
    (∃ c' out, runOpts lib rest c os = some (c', out, true) ∧ .help ∉ out) ↔
      Accepts lib c.flags os := by
  induction os generalizing c with
  | nil =>
    rw [runOpts, if_neg hrest]
    exact ⟨fun _ => ⟨by simp, fun _ _ _ _ => Or.inl rfl⟩, fun _ => ⟨_, _, rfl, List.not_mem_nil⟩⟩
  | cons o os ih =>
    have hhelp' := fun o ho => hhelp o (List.mem_cons_of_mem _ ho)
    rw [runOpts]
    constructor
    · rintro ⟨c', out, hrun, hout⟩
      split at hrun
      · cases hrun
      · cases hrun
        exact absurd List.mem_cons_self hout
      · cases hrun
      · rename_i flags happly
        obtain ⟨f, hf, hname, arg, v, hvalue, hstore, rfl⟩ := applyOpt_ok happly
        obtain ⟨hknown, hroom⟩ := (ih (by rw [setFlag_names]; exact hnames) hhelp').mp
          ⟨c', out, hrun, hout⟩
        refine ⟨fun o' ho' => ?_, (room_setFlag hnames hf hname hvalue hstore os).mp hroom⟩
        rcases List.mem_cons.mp ho' with rfl | ho'
        · exact ⟨f, hf, hname, arg, hvalue, by rw [caseError, hstore]⟩
        · exact (known_setFlag hnames hf hname hstore o').mp (hknown o' ho')
    · rintro ⟨hknown, hroom⟩
      obtain ⟨f, hf, hname, arg, hvalue, herr⟩ := hknown o List.mem_cons_self
      obtain ⟨v, hstore, happly⟩ := applyOpt_of_known hnames (hhelp o List.mem_cons_self) hf hname
        hvalue herr (hroom f hf)
      rw [happly]
      refine (ih (by rw [setFlag_names]; exact hnames) hhelp').mpr ⟨fun o' ho' => ?_, ?_⟩
      · exact (known_setFlag hnames hf hname hstore o').mpr
          (hknown o' (List.mem_cons_of_mem _ ho'))
      · exact (room_setFlag hnames hf hname hvalue hstore os).mpr hroom

theorem runOpts_no_help {lib : FloatLib F D} {rest : List Str} {c c' : FlagCtx F D}
    {os : List Opt} {out : List FlagOut} {r : Bool} (hhelp : ∀ o ∈ os, ¬ IsHelp o.name)
    (hrun : runOpts lib rest c os = some (c', out, r)) : .help ∉ out := by
  induction os generalizing c with
  | nil =>
    rw [runOpts] at hrun
    split at hrun
    · obtain ⟨c'', out', hend, hout, -⟩ := parseEnd_spec c
      rw [hend] at hrun
      cases hrun
      exact hout
    · cases hrun
      exact List.not_mem_nil
  | cons o os ih =>
    rw [runOpts] at hrun
    split at hrun
    · cases hrun
    · rename_i happly
      exact absurd (isHelp_of_applyOpt happly) (hhelp o List.mem_cons_self)
    · cases hrun
      exact List.not_mem_nil
    · exact ih (fun o ho => hhelp o (List.mem_cons_of_mem _ ho)) hrun

theorem exists_of_forall₂ {α β : Type*} {R : α → β → Prop} {l : List α} {l' : List β}
    (h : List.Forall₂ R l l') {a : α} (ha : a ∈ l) : ∃ b ∈ l', R a b := by
  induction h with
  | nil => cases ha
  | cons hab _ ih =>
    rcases List.mem_cons.mp ha with rfl | ha
    · exact ⟨_, List.mem_cons_self, hab⟩
    · obtain ⟨b, hb, hr⟩ := ih ha
      exact ⟨b, List.mem_cons_of_mem _ hb, hr⟩

/-- **When `true` means that every mandatory flag was given.**  It does when the
options reach the end of the arguments, where the mandatory flags are checked; when
an option is rejected before; or when the options that were read happen to name
every mandatory flag.  A positional argument or `--` skips the check. -/
theorem mandatory_iff (lib : FloatLib F D) {c : FlagCtx F D} {argv : List Str}
    (hnames : (c.flags.map (·.name)).Nodup) (hfresh : ∀ f ∈ c.flags, f.hasChanged = false)
    (hargv : argv ≠ []) (hhelp : ∀ o ∈ (readArgs (argsOf c argv)).opts, ¬ IsHelp o.name) :
    (∀ c' out, flagParse lib c argv = some (c', out, true) →
      MandatoryGiven c.flags (readArgs (argsOf c argv)).opts) ↔
    (readArgs (argsOf c argv)).rest = [] ∨
      ¬ Accepts lib c.flags (readArgs (argsOf c argv)).opts ∨
      MandatoryGiven c.flags (readArgs (argsOf c argv)).opts := by
  have hnames' : ((started c argv).flags.map (·.name)).Nodup := by
    rw [started_flags]
    exact hnames
  constructor
  · intro hgiven
    by_contra hnot
    rw [not_or, not_or, not_not] at hnot
    obtain ⟨hrest, hacc, hmissing⟩ := hnot
    rw [← started_flags c argv] at hacc
    obtain ⟨c', out, hrun, -⟩ := (runOpts_true_iff hnames' hrest hhelp).mpr hacc
    exact hmissing (hgiven c' out ((flagParse_eq lib hnames hargv).trans hrun))
  · rintro hcond c' out hparse
    rw [flagParse_eq lib hnames hargv] at hparse
    have hout := runOpts_no_help hhelp hparse
    by_cases hrest : (readArgs (argsOf c argv)).rest = []
    · obtain ⟨hfinal, -, -, -, hmand⟩ := runOpts_true hnames' hparse hout
      rw [started_flags] at hfinal
      intro f hf hm
      obtain ⟨f', hf', hff'⟩ := exists_of_forall₂ hfinal hf
      have hchanged := hmand hrest f' hf' (hff'.isMandatory.trans hm)
      rw [hff'.hasChanged, hfresh f hf, Bool.false_or, List.any_eq_true] at hchanged
      obtain ⟨o, ho, hname⟩ := hchanged
      exact ⟨o, ho, by simpa using hname⟩
    · have hacc := (runOpts_true_iff hnames' hrest hhelp).mp ⟨c', out, hparse, hout⟩
      rw [started_flags] at hacc
      exact (hcond.resolve_left hrest).resolve_left (not_not.mpr hacc)

def oneMandatory : FlagCtx Unit Unit where
  flags := [⟨"n".toList, .int 5, true, false⟩]
  flagError := .noError
  flagErrorName := none
  flagErrorValue := none
  programName := none
  restArgc := 0
  restArgv := []

theorem mandatory_iff_given :
    (readArgs (argsOf oneMandatory ["prog".toList, "-n=3".toList])).rest = [] ∧
    ∀ c' out, flagParse noFloat oneMandatory ["prog".toList, "-n=3".toList] = some (c', out, true) →
      MandatoryGiven oneMandatory.flags
        (readArgs (argsOf oneMandatory ["prog".toList, "-n=3".toList])).opts :=
  ⟨by decide,
    (mandatory_iff noFloat (by decide) (by decide) (by decide) (by decide)).mpr (Or.inl (by decide))⟩

/-- `prog file` is accepted without the mandatory flag. -/
theorem mandatory_not_checked :
    ¬ ∀ (c : FlagCtx Unit Unit) (argv : List Str), (c.flags.map (·.name)).Nodup →
      (∀ f ∈ c.flags, f.hasChanged = false) → argv ≠ [] →
      (∀ o ∈ (readArgs (argsOf c argv)).opts, ¬ IsHelp o.name) →
      ∀ c' out, flagParse noFloat c argv = some (c', out, true) →
        MandatoryGiven c.flags (readArgs (argsOf c argv)).opts := by
  intro hgiven
  have hparse : flagParse noFloat oneMandatory ["prog".toList, "file".toList] =
      some ({ oneMandatory with programName := some "prog".toList, restArgc := 1,
                                restArgv := ["file".toList] }, [], true) := by decide
  obtain ⟨o, ho, -⟩ := hgiven oneMandatory ["prog".toList, "file".toList] (by decide) (by decide)
    (by decide) (by decide) _ _ hparse _ List.mem_cons_self rfl
  exact absurd ho (by decide +revert)

end DataCommons.Flags
