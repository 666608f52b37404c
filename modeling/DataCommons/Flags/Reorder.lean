import DataCommons.Lib.Commuting
import DataCommons.Flags.TwoRuns

/-!
# Reordering the options

* `applied_commute`: options of different flags commute;
* `runOpts_valid`: a run of valid options is a fold;
* `reorder_options`: the order of options of different flags does not matter.
-/

namespace DataCommons.Flags

open Commuting

variable {F D : Type}

/-! ## Options commute -/

/-- The value that an option stores in its flag. -/
def optValue (lib : FloatLib F D) (flags : List (Flag F D)) (o : Opt) : Option (FlagVal F D) :=
  if IsHelp o.name then none
  else
    match flags.find? (·.name = o.name), o.value with
    | some f, some arg =>
      match flagStore lib o.ignore arg f.val with
      | some (.ok v) => some v
      | _ => none
    | _, _ => none

/-- The flags behind an option that is applied. -/
def applied (lib : FloatLib F D) (flags : List (Flag F D)) (o : Opt) : Option (List (Flag F D)) :=
  (optValue lib flags o).map fun v => setFlag o.name v flags

theorem find_setFlag {name name' : Str} (hne : name ≠ name') (v : FlagVal F D)
    (flags : List (Flag F D)) :
    (setFlag name v flags).find? (·.name = name') = flags.find? (·.name = name') := by
  induction flags with
  | nil => rfl
  | cons f fs ih =>
    by_cases hname : f.name = name
    · have hf : ¬ f.name = name' := fun h => hne (hname.symm.trans h)
      rw [setFlag_cons_self hname, List.find?_cons_of_neg (by simpa using hf),
        List.find?_cons_of_neg (by simpa using hf), ih]
    · rw [setFlag_cons_of_ne hname, List.find?_cons, List.find?_cons, ih]

theorem setFlag_comm {name name' : Str} (hne : name ≠ name') (v w : FlagVal F D)
    (flags : List (Flag F D)) :
    setFlag name' w (setFlag name v flags) = setFlag name v (setFlag name' w flags) := by
  induction flags with
  | nil => rfl
  | cons f fs ih =>
    by_cases hname : f.name = name
    · have hf : f.name ≠ name' := fun h => hne (hname.symm.trans h)
      rw [setFlag_cons_self hname, setFlag_cons_of_ne hf, setFlag_cons_self hname,
        setFlag_cons_of_ne (f := { f with val := v, hasChanged := true }) hf, ih]
    · by_cases hname' : f.name = name'
      · rw [setFlag_cons_of_ne hname, setFlag_cons_self hname', setFlag_cons_self hname',
          setFlag_cons_of_ne (f := { f with val := w, hasChanged := true }) hname, ih]
      · rw [setFlag_cons_of_ne hname, setFlag_cons_of_ne hname', setFlag_cons_of_ne hname',
          setFlag_cons_of_ne hname, ih]

/-- **Options of different flags commute.** -/
theorem applied_commute (lib : FloatLib F D) : Commute (·.name) (applied lib) := by
  have hother : ∀ (flags : List (Flag F D)) (a b : Opt) (v : FlagVal F D), a.name ≠ b.name →
      optValue lib (setFlag a.name v flags) b = optValue lib flags b := by
    intro flags a b v hne
    rw [optValue, optValue, find_setFlag hne]
  intro flags a b hne
  unfold applied
  cases ha : optValue lib flags a with
  | none =>
    cases hb : optValue lib flags b with
    | none => rfl
    | some w => simp only [Option.map_none, Option.bind_none, Option.map_some, Option.bind_some,
        hother flags b a w (Ne.symm hne), ha]
  | some v =>
    cases hb : optValue lib flags b with
    | none => simp only [Option.map_none, Option.bind_none, Option.map_some, Option.bind_some,
        hother flags a b v hne, hb]
    | some w => simp only [Option.map_some, Option.bind_some, hother flags a b v hne,
        hother flags b a w (Ne.symm hne), ha, hb, setFlag_comm hne]

/-! ## Valid options -/

/-- An option of a flag of the context, with a value that its type takes, and no request
for help. -/
def Valid (lib : FloatLib F D) (flags : List (Flag F D)) (o : Opt) : Prop :=
  ¬ IsHelp o.name ∧ Known lib flags o

/-- A valid option is applied, unless its list is full. -/
theorem applyOpt_valid {lib : FloatLib F D} {flags : List (Flag F D)} {o : Opt}
    (hnames : (flags.map (·.name)).Nodup) (h : Valid lib flags o) :
    (applied lib flags o = none ∧ applyOpt lib flags o = none) ∨
      ∃ f ∈ flags, ∃ arg v, f.name = o.name ∧
        flagStore lib o.ignore arg f.val = some (.ok v) ∧
        applied lib flags o = some (setFlag o.name v flags) ∧
        applyOpt lib flags o = some (.ok (setFlag o.name v flags)) := by
  obtain ⟨hhelp, f, hf, hname, arg, hvalue, herr⟩ := h
  have hfind := find_of_mem (List.nodup_iff_count_le_one.mp hnames _) hf hname
  rw [applied, optValue, applyOpt, if_neg hhelp, if_neg hhelp, hfind, hvalue]
  dsimp only
  cases hstore : flagStore lib o.ignore arg f.val with
  | none => exact Or.inl ⟨rfl, rfl⟩
  | some r =>
    cases r with
    | error e =>
      rw [caseError, hstore] at herr
      cases herr
    | ok v => exact Or.inr ⟨f, hf, arg, v, hname, hstore, rfl, rfl⟩

/-- **A run of valid options is a fold.** -/
theorem runOpts_valid {lib : FloatLib F D} (rest : List Str) {c : FlagCtx F D} {os : List Opt}
    (hnames : (c.flags.map (·.name)).Nodup) (hvalid : ∀ o ∈ os, Valid lib c.flags o) :
    runOpts lib rest c os =
      (os.foldlM (applied lib) c.flags).bind fun flags =>
        runOpts lib rest { c with flags := flags } [] := by
  induction os generalizing c with
  | nil => rfl
  | cons o os ih =>
    have ho := hvalid o List.mem_cons_self
    rw [runOpts, List.foldlM_cons]
    rcases applyOpt_valid hnames ho with ⟨hfold, hrun⟩ | ⟨f, hf, arg, v, hname, hstore, hfold, hrun⟩
    · rw [hfold, hrun]
      rfl
    · rw [hfold, hrun]
      refine ih (by rw [setFlag_names]; exact hnames) fun o' ho' => ?_
      obtain ⟨hhelp, hknown⟩ := hvalid o' (List.mem_cons_of_mem _ ho')
      exact ⟨hhelp, (known_setFlag hnames hf hname hstore o').mpr hknown⟩

/-! ## Options with their tokens -/

/-- The ways to write an option. -/
inductive Spells : Opt → List Str → Prop
  | joined {tok name v : Str} {ignore : Bool} (htok : readToken tok = some (name, ignore, some v)) :
      Spells ⟨name, ignore, some v⟩ [tok]
  | separate {tok name : Str} {ignore : Bool} (htok : readToken tok = some (name, ignore, none))
      (v : Str) : Spells ⟨name, ignore, some v⟩ [tok, v]

/-- A complete option: its own token, with the next one when that is its value. -/
structure Item where
  opt : Opt
  tokens : List Str
  spells : Spells opt tokens

def tokensOf (items : List Item) : List Str := items.flatMap (·.tokens)

theorem readArgs_items (items : List Item) :
    readArgs (tokensOf items) = ⟨items.map (·.opt), []⟩ := by
  induction items with
  | nil => rfl
  | cons i items ih =>
    obtain ⟨opt, tokens, hspells⟩ := i
    have hcons : tokensOf (⟨opt, tokens, hspells⟩ :: items) = tokens ++ tokensOf items := rfl
    rw [hcons]
    cases hspells with
    | joined htok =>
      rw [List.singleton_append, readArgs, htok]
      dsimp only
      rw [ih]
      rfl
    | separate htok v =>
      rw [List.cons_append, List.singleton_append, readArgs, htok]
      dsimp only
      rw [ih]
      rfl

/-- An argument vector with these arguments: the program name is the first of them when
none is taken yet. -/
def callArgs (c : FlagCtx F D) (prog : Str) (args : List Str) : List Str :=
  match c.programName with
  | none => prog :: args
  | some _ => args

theorem flagParse_callArgs (lib : FloatLib F D) (c : FlagCtx F D) (prog : Str) (args : List Str) :
    flagParse lib c (callArgs c prog args) =
      loop lib (started c (callArgs c prog args)) args := by
  unfold flagParse callArgs started
  cases c.programName with
  | none => rfl
  | some name => rfl

theorem started_callArgs (c : FlagCtx F D) (prog : Str) (args args' : List Str) :
    started c (callArgs c prog args) = started c (callArgs c prog args') := by
  unfold started callArgs
  cases c.programName with
  | none => rfl
  | some name => rfl

/-- **The order of options of different flags does not matter.**  Two lists of complete,
valid options with the same options of every name in the same order give the same
call: its return value, every value and every mark. -/
theorem reorder_options (lib : FloatLib F D) {c : FlagCtx F D}
    (hnames : (c.flags.map (·.name)).Nodup) (prog : Str) {items items' : List Item}
    (hvalid : ∀ i ∈ items, Valid lib c.flags i.opt)
    (horder : Reordering (·.opt.name) items items') :
    flagParse lib c (callArgs c prog (tokensOf items)) =
      flagParse lib c (callArgs c prog (tokensOf items')) := by
  have hrun : ∀ is : List Item, (∀ i ∈ is, Valid lib c.flags i.opt) →
      flagParse lib c (callArgs c prog (tokensOf is)) =
        ((is.map (·.opt)).foldlM (applied lib) c.flags).bind fun flags =>
          runOpts lib [] { started c (callArgs c prog []) with flags := flags } [] := by
    intro is his
    have hflags := started_flags c (callArgs c prog [])
    rw [flagParse_callArgs, started_callArgs c prog _ [], loop,
      parseLoop_eq lib _ (by rw [hflags]; exact hnames) (Nat.le_refl _), readArgs_items,
      runOpts_valid [] (by rw [hflags]; exact hnames), hflags]
    intro o ho
    obtain ⟨i, hi, rfl⟩ := List.mem_map.mp ho
    rw [hflags]
    exact his i hi
  have horder' : Reordering (·.name) (items.map (·.opt)) (items'.map (·.opt)) := by
    intro name
    rw [List.filter_map, List.filter_map]
    exact congrArg (List.map (·.opt)) (horder name)
  rw [hrun items hvalid, hrun items' fun i hi => hvalid i (horder.mem_iff.mpr hi),
    foldlM_reorder (applied_commute lib) horder']

def listA : Item := ⟨⟨"I".toList, false, some "a".toList⟩, ["-I=a".toList], .joined rfl⟩

def listN : Item := ⟨⟨"I".toList, false, some "-n".toList⟩, ["-I".toList, "-n".toList],
  .separate rfl _⟩

def seven : Item := ⟨⟨"n".toList, false, some "7".toList⟩, ["-n".toList, "7".toList],
  .separate rfl _⟩

/-- `prog -I=a -n 7 -I -n` and `prog -n 7 -I=a -I -n`. -/
theorem reorder_options_three :
    flagParse noFloat threeFlags
        (callArgs threeFlags "prog".toList (tokensOf [listA, seven, listN])) =
      flagParse noFloat threeFlags
        (callArgs threeFlags "prog".toList (tokensOf [seven, listA, listN])) := by
  refine reorder_options noFloat (by decide) "prog".toList ?_ fun name => ?_
  · intro i hi
    simp only [List.mem_cons, List.not_mem_nil, or_false] at hi
    rcases hi with rfl | rfl | rfl
    · exact ⟨by decide, _, List.mem_of_getElem? (i := 2) rfl, rfl, _, rfl, rfl⟩
    · exact ⟨by decide, _, List.mem_of_getElem? (i := 1) rfl, rfl, _, rfl, by decide⟩
    · exact ⟨by decide, _, List.mem_of_getElem? (i := 2) rfl, rfl, _, rfl, rfl⟩
  · by_cases hn : seven.opt.name = name
    · subst hn
      rfl
    · simp only [List.filter_cons, hn, decide_false, Bool.false_eq_true, if_false]

end DataCommons.Flags
