import DataCommons.Flags.Spelling

/-!
# Comparing two calls

Two properties of pairs of calls, for flags with pairwise distinct names.

* `rejected_option_keeps`: a call that rejects an option leaves the flags that a
  call on the arguments before the option leaves;
* `ignored_no_influence`: options with the prefix `/` can be left out.
-/

namespace DataCommons.Flags

variable {F D : Type}

/-! ## One round -/

/-- When one flag at most has the name, a round applies an option. -/
theorem loopRound_apply (lib : FloatLib F D) {c : FlagCtx F D} {tok name arg : Str}
    {ignore : Bool} {equals : Option Str} {args args' : List Str}
    (hone : (c.flags.map (·.name)).count name ≤ 1)
    (htok : readToken tok = some (name, ignore, equals))
    (hfetch : fetchArg equals args = some (arg, args')) :
    loopRound lib c (tok :: args) =
      match applyOpt lib c.flags ⟨name, ignore, some arg⟩ with
      | none => .overrun
      | some .help => .help
      | some (.reject e) => .reject (c.reject e (c.flags.any (·.name = name)) name)
      | some (.ok flags) => .next { c with flags := flags } args' := by
  rw [loopRound, htok, applyOpt]
  dsimp only
  by_cases hhelp : IsHelp name
  · rw [if_pos hhelp, if_pos hhelp]
  · rw [if_neg hhelp, if_neg hhelp, matchFlags_eq lib name ignore equals hone, hfetch]
    cases hfind : c.flags.find? (·.name = name) with
    | none => simp [FlagCtx.reject, any_name_of_find_none hfind]
    | some f =>
      dsimp only
      cases hstore : flagStore lib ignore arg f.val with
      | none => rfl
      | some r =>
        cases r with
        | error e => simp [FlagCtx.reject, any_name_of_find hfind]
        | ok v => rfl

/-- An option that is refused or unknown leaves the flags. -/
theorem matchFlags_kept {lib : FloatLib F D} {name : Str} {ignore : Bool} {equals : Option Str}
    {flags : List (Flag F D)} (hone : (flags.map (·.name)).count name ≤ 1) {args : List Str}
    {m : Matched F D} (hm : matchFlags lib name ignore equals flags args = some m)
    (hbad : m.err ≠ none ∨ m.found = false) : m.flags = flags := by
  rw [matchFlags_eq lib name ignore equals hone] at hm
  split at hm
  · cases hm
    rfl
  · split at hm
    · cases hm
      rfl
    · split at hm
      · cases hm
      · cases hm
        rfl
      · cases hm
        rcases hbad with hbad | hbad
        · exact absurd rfl hbad
        · cases hbad

theorem loopRound_reject {lib : FloatLib F D} {c c' : FlagCtx F D}
    (hnames : (c.flags.map (·.name)).Nodup) {args : List Str}
    (h : loopRound lib c args = .reject c') : c'.flags = c.flags := by
  obtain ⟨_, _, name, _, _, m, -, -, -, hm, hcase⟩ := loopRound_refused h
  have hone := List.nodup_iff_count_le_one.mp hnames name
  rcases hcase with ⟨e, herr, rfl⟩ | ⟨-, hfound, rfl⟩
  · exact matchFlags_kept hone hm (Or.inl (by rw [herr]; exact Option.some_ne_none e))
  · exact matchFlags_kept hone hm (Or.inr hfound)

/-- The loop comes to a round that is the last one. -/
theorem arrives_last (lib : FloatLib F D) (c : FlagCtx F D) (args : List Str) :
    ∃ c₁ args₁, Arrives lib c args c₁ args₁ ∧ ∀ c' args', loopRound lib c₁ args₁ ≠ .next c' args' := by
  induction hn : args.length using Nat.strong_induction_on generalizing c args with
  | _ n ih =>
    cases hround : loopRound lib c args with
    | next c' args' =>
      obtain ⟨tok, rest, rfl, hsuf⟩ := loopRound_suffix hround
      have hlt : args'.length < n := by
        rw [← hn, List.length_cons]
        exact Nat.lt_succ_of_le hsuf.length_le
      obtain ⟨c₁, args₁, harr, hlast⟩ := ih _ hlt c' args' rfl
      exact ⟨c₁, args₁, .round hround harr, hlast⟩
    | _ => exact ⟨c, args, .refl c args, fun c' args' h => by rw [hround] at h; cases h⟩

/-! ## A rejected option -/

/-- The call comes to the token `tok`, behind `pre`, and rejects it. -/
def RejectedAt (lib : FloatLib F D) (c : FlagCtx F D) (pre : List Str) (tok : Str)
    (suf : List Str) : Prop :=
  ∃ c₁ c', Reaches lib c (pre ++ tok :: suf) c₁ (tok :: suf) ∧
    loopRound lib c₁ (tok :: suf) = .reject c'

theorem argsOf_suffix (c : FlagCtx F D) (argv : List Str) : argsOf c argv <:+ argv := by
  unfold argsOf
  split
  · exact List.tail_suffix argv
  · exact List.suffix_refl argv

/-- A call that returns `false` has rejected an option or read all arguments. -/
theorem false_rejected {lib : FloatLib F D} {c c' : FlagCtx F D} {argv : List Str}
    {out : List FlagOut} (hargv : argv ≠ [] ∨ c.programName ≠ none)
    (h : flagParse lib c argv = some (c', out, false)) :
    (∃ pre tok suf, argv = pre ++ tok :: suf ∧ RejectedAt lib c pre tok suf) ∨
      ∃ c₁, Reaches lib c argv c₁ [] := by
  obtain ⟨c₁, args₁, harr, hlast⟩ := arrives_last lib (started c argv) (argsOf c argv)
  rw [flagParse_of_reaches hargv harr, loop_eq] at h
  cases hround : loopRound lib c₁ args₁ with
  | next c₂ args₂ => exact absurd hround (hlast c₂ args₂)
  | reject c₂ =>
    obtain ⟨pre, rfl⟩ := harr.suffix.trans (argsOf_suffix c argv)
    cases args₁ with
    | nil => cases hround
    | cons tok suf => exact Or.inl ⟨pre, tok, suf, rfl, c₁, c₂, harr, hround⟩
  | stop =>
    cases args₁ with
    | nil => exact Or.inr ⟨c₁, harr⟩
    | cons tok suf =>
      rw [hround] at h
      cases h
  | _ =>
    rw [hround] at h
    cases h

/-- **A rejected option changes no flag.**  A call that returns `false` has
rejected an option or read all its arguments; one that rejects an option leaves
every flag, value and mark, as the call on the arguments before the option does. -/
theorem rejected_option_keeps (lib : FloatLib F D) {c : FlagCtx F D}
    (hnames : (c.flags.map (·.name)).Nodup) :
    (∀ argv c' out, flagParse lib c argv = some (c', out, false) →
      (∃ pre tok suf, argv = pre ++ tok :: suf ∧ RejectedAt lib c pre tok suf) ∨
        ∃ c₁, Reaches lib c argv c₁ []) ∧
    ∀ pre tok suf, RejectedAt lib c pre tok suf →
      ∃ c' c₂ out r, flagParse lib c (pre ++ tok :: suf) = some (c', [], false) ∧
        flagParse lib c pre = some (c₂, out, r) ∧ c'.flags = c₂.flags := by
  refine ⟨fun argv c' out h => false_rejected (argv_of_flagParse h) h, ?_⟩
  · rintro pre tok suf ⟨c₁, c', hreach, hround⟩
    have hX : tok :: suf ≠ [] := List.cons_ne_nil _ _
    have hpre := reaches_cons hX hreach
    have hbefore := reaches_change hX hreach []
    rw [List.append_nil] at hbefore
    have hnames₁ : (c₁.flags.map (·.name)).Nodup := by
      rw [hreach.names, started_flags]
      exact hnames
    refine ⟨c', (parseEnd c₁).1, (parseEnd c₁).2.1, (parseEnd c₁).2.2, ?_, ?_, ?_⟩
    · rw [flagParse_of_reaches (Or.inl (List.append_ne_nil_of_right_ne_nil _ hX)) hreach, loop_eq,
        hround]
    · rw [flagParse_of_reaches hpre hbefore, loop_eq]
      rfl
    · obtain ⟨c₂, out, hend, -, hflags, -⟩ := parseEnd_spec c₁
      rw [loopRound_reject hnames₁ hround, hend, hflags]

/-- `prog -n=1 -m=x -n=2`, which rejects `-m=x`. -/
theorem rejected_option_keeps_ints :
    ∃ c' c₂ out r,
      flagParse noFloat (intFlags ["n".toList, "m".toList])
        ["prog".toList, "-n=1".toList, "-m=x".toList, "-n=2".toList] = some (c', [], false) ∧
      flagParse noFloat (intFlags ["n".toList, "m".toList]) ["prog".toList, "-n=1".toList] =
        some (c₂, out, r) ∧ c'.flags = c₂.flags :=
  (rejected_option_keeps noFloat (by decide)).2 ["prog".toList, "-n=1".toList] "-m=x".toList
    ["-n=2".toList] ⟨_, _, .round rfl (.refl _ _), rfl⟩

/-! ## Ignored options -/

/-- `args'` is `args` without some of its options with the prefix `/`; neither goes
on behind the first token that is no option. -/
inductive WithoutIgnored : List Str → List Str → Prop
  | nil : WithoutIgnored [] []
  | stop {tok : Str} {args : List Str} (htok : readToken tok = none) :
      WithoutIgnored (tok :: args) (tok :: args)
  | keep {tok name v : Str} {ignore : Bool} {args args' : List Str}
      (htok : readToken tok = some (name, ignore, some v)) (h : WithoutIgnored args args') :
      WithoutIgnored (tok :: args) (tok :: args')
  | keepValue {tok name v : Str} {ignore : Bool} {args args' : List Str}
      (htok : readToken tok = some (name, ignore, none)) (h : WithoutIgnored args args') :
      WithoutIgnored (tok :: v :: args) (tok :: v :: args')
  | drop {tok name v : Str} {args args' : List Str}
      (htok : readToken tok = some (name, true, some v)) (h : WithoutIgnored args args') :
      WithoutIgnored (tok :: args) args'
  | dropValue {tok name v : Str} {args args' : List Str}
      (htok : readToken tok = some (name, true, none)) (h : WithoutIgnored args args') :
      WithoutIgnored (tok :: v :: args) args'

/-- No option is rejected and none asks for help. -/
def Clean (lib : FloatLib F D) (c : FlagCtx F D) (args : List Str) : Prop :=
  ∀ c₁ args₁, Arrives lib c args c₁ args₁ →
    (∀ c', loopRound lib c₁ args₁ ≠ .reject c') ∧ loopRound lib c₁ args₁ ≠ .help

theorem Clean.next {lib : FloatLib F D} {c c₁ : FlagCtx F D} {args args₁ : List Str}
    (h : Clean lib c args) (hround : loopRound lib c args = .next c₁ args₁) :
    Clean lib c₁ args₁ :=
  fun c₂ args₂ harr => h c₂ args₂ (.round hround harr)

theorem Clean.round {lib : FloatLib F D} {c c₁ : FlagCtx F D} {args args₁ : List Str}
    (h : loopRound lib c args = .next c₁ args₁) (h₁ : Clean lib c₁ args₁) : Clean lib c args := by
  intro c₂ args₂ harr
  cases harr with
  | refl =>
    rw [h]
    exact ⟨fun c' hc => (by cases hc), fun hc => (by cases hc)⟩
  | round hround hrest =>
    rw [h] at hround
    cases hround
    exact h₁ c₂ args₂ hrest

theorem Clean.stop {lib : FloatLib F D} {c : FlagCtx F D} {args : List Str}
    (h : loopRound lib c args = .stop) : Clean lib c args := by
  intro c₂ args₂ harr
  cases harr with
  | refl =>
    rw [h]
    exact ⟨fun c' hc => (by cases hc), fun hc => (by cases hc)⟩
  | round hround _ =>
    rw [h] at hround
    cases hround

/-- The same flags with the same values; the marks may differ. -/
def SameVals (fs gs : List (Flag F D)) : Prop :=
  List.Forall₂ (fun f g => f.name = g.name ∧ f.val = g.val) fs gs

namespace SameVals

variable {fs gs : List (Flag F D)}

theorem refl (fs : List (Flag F D)) : SameVals fs fs :=
  List.forall₂_same.mpr fun _ _ => ⟨rfl, rfl⟩

theorem trans {hs : List (Flag F D)} (h : SameVals fs gs) (h' : SameVals gs hs) :
    SameVals fs hs := by
  induction h generalizing hs with
  | nil =>
    cases h'
    exact .nil
  | cons hfg _ ih =>
    cases h' with
    | cons hgh hrest => exact .cons ⟨hfg.1.trans hgh.1, hfg.2.trans hgh.2⟩ (ih hrest)

theorem symm (h : SameVals fs gs) : SameVals gs fs := by
  induction h with
  | nil => exact .nil
  | cons hfg _ ih => exact .cons ⟨hfg.1.symm, hfg.2.symm⟩ ih

theorem names (h : SameVals fs gs) : fs.map (·.name) = gs.map (·.name) := by
  induction h with
  | nil => rfl
  | cons hfg _ ih => rw [List.map_cons, List.map_cons, hfg.1, ih]

theorem vals (h : SameVals fs gs) : fs.map (·.val) = gs.map (·.val) := by
  induction h with
  | nil => rfl
  | cons hfg _ ih => rw [List.map_cons, List.map_cons, hfg.2, ih]

theorem find (h : SameVals fs gs) (name : Str) :
    (fs.find? (·.name = name)).map (·.val) = (gs.find? (·.name = name)).map (·.val) := by
  induction h with
  | nil => rfl
  | @cons f g fs gs hfg _ ih =>
    rw [List.find?_cons, List.find?_cons, hfg.1]
    cases decide (g.name = name) with
    | true => exact congrArg some hfg.2
    | false => exact ih

theorem set (h : SameVals fs gs) (name : Str) (v : FlagVal F D) :
    SameVals (setFlag name v fs) (setFlag name v gs) := by
  induction h with
  | nil => exact .nil
  | @cons f g fs gs hfg _ ih =>
    by_cases hname : f.name = name
    · rw [setFlag_cons_self hname, setFlag_cons_self (hfg.1.symm.trans hname)]
      exact .cons ⟨hfg.1, rfl⟩ ih
    · rw [setFlag_cons_of_ne hname, setFlag_cons_of_ne fun h => hname (hfg.1.trans h)]
      exact .cons hfg ih

/-- Whether an option applies, and what it stores, depends on the values alone. -/
theorem apply (h : SameVals fs gs) (lib : FloatLib F D) (o : Opt) :
    (applyOpt lib fs o = none → applyOpt lib gs o = none) ∧
    ∀ fs', applyOpt lib fs o = some (.ok fs') →
      ∃ gs', applyOpt lib gs o = some (.ok gs') ∧ SameVals fs' gs' := by
  have hfind := h.find o.name
  unfold applyOpt
  by_cases hhelp : IsHelp o.name
  · rw [if_pos hhelp]
    exact ⟨fun h => (by cases h), fun fs' h => (by cases h)⟩
  · rw [if_neg hhelp, if_neg hhelp]
    cases hf : fs.find? (·.name = o.name) with
    | none => exact ⟨fun h => (by cases h), fun fs' h => (by cases h)⟩
    | some f =>
      rw [hf] at hfind
      obtain ⟨g, hg, hval⟩ := Option.map_eq_some_iff.mp hfind.symm
      rw [hg]
      cases o.value with
      | none => exact ⟨fun h => (by cases h), fun fs' h => (by cases h)⟩
      | some arg =>
        dsimp only
        rw [hval]
        cases flagStore lib o.ignore arg f.val with
        | none => exact ⟨fun _ => rfl, fun fs' h => (by cases h)⟩
        | some r =>
          cases r with
          | error e => exact ⟨fun h => (by cases h), fun fs' h => (by cases h)⟩
          | ok v =>
            refine ⟨fun h => (by cases h), fun fs' hok => ?_⟩
            cases hok
            exact ⟨_, rfl, h.set o.name v⟩

end SameVals

theorem applyOpt_ignored {lib : FloatLib F D} {flags flags' : List (Flag F D)}
    (hnames : (flags.map (·.name)).Nodup) {name arg : Str}
    (h : applyOpt lib flags ⟨name, true, some arg⟩ = some (.ok flags')) : SameVals flags flags' := by
  obtain ⟨f, hf, hname, arg', v, hvalue, hstore, rfl⟩ := applyOpt_ok h
  obtain rfl := flagStore_ignore hstore
  unfold SameVals setFlag
  rw [List.forall₂_map_right_iff]
  refine List.forall₂_same.mpr fun g hg => ?_
  by_cases hgn : g.name = name
  · obtain rfl : f = g := List.inj_on_of_nodup_map hnames hf hg (hname.trans hgn.symm)
    rw [if_pos hgn]
    exact ⟨rfl, rfl⟩
  · rw [if_neg hgn]
    exact ⟨rfl, rfl⟩

/-- An ignored option stores nothing, so it never overruns a list. -/
theorem applyOpt_ignored_ne_none (lib : FloatLib F D) (flags : List (Flag F D)) (name arg : Str) :
    applyOpt lib flags ⟨name, true, some arg⟩ ≠ none := by
  have hstore : ∀ v : FlagVal F D, flagStore lib true arg v ≠ none := by
    intro v
    cases v <;> exact Option.some_ne_none _
  unfold applyOpt
  intro h
  split at h
  · cases h
  · split at h
    · cases h
    · rename_i f _
      dsimp only at h
      split at h
      · rename_i hnone
        exact hstore f.val hnone
      · cases h
      · cases h

/-- Two results with the same values, and the same rest when both calls return
`true`; or both write past a list. -/
def SameOutcome : Option (FlagCtx F D × List FlagOut × Bool) →
    Option (FlagCtx F D × List FlagOut × Bool) → Prop
  | some (c, _, r), some (c', _, r') =>
    c.flags.map (·.val) = c'.flags.map (·.val) ∧
      (r = true → r' = true → c.restArgc = c'.restArgc ∧ c.restArgv = c'.restArgv)
  | none, none => True
  | _, _ => False

theorem stopAt_same {c c' : FlagCtx F D} (h : SameVals c.flags c'.flags) (args : List Str) :
    SameOutcome (some (stopAt c args)) (some (stopAt c' args)) := by
  cases args with
  | nil =>
    obtain ⟨c₁, out, hend, -, hflags, -, hrest⟩ := parseEnd_spec c
    obtain ⟨c₁', out', hend', -, hflags', -, hrest'⟩ := parseEnd_spec c'
    rw [stopAt, stopAt, hend, hend']
    refine ⟨by rw [hflags, hflags', h.vals], fun hr hr' => ?_⟩
    rw [(hrest hr).1, (hrest' hr').1, (hrest hr).2, (hrest' hr').2]
    exact ⟨rfl, rfl⟩
  | cons tok args => exact ⟨h.vals, fun _ _ => ⟨rfl, rfl⟩⟩

/-- One option that both runs apply. -/
theorem loop_keep {lib : FloatLib F D} {c c' : FlagCtx F D} {tok name arg : Str} {ignore : Bool}
    {equals : Option Str} {args args₁ args' args₁' : List Str}
    (htok : readToken tok = some (name, ignore, equals))
    (hfetch : fetchArg equals args = some (arg, args₁))
    (hfetch' : fetchArg equals args' = some (arg, args₁'))
    (hnames : (c.flags.map (·.name)).Nodup) (hsame : SameVals c.flags c'.flags)
    (hclean : Clean lib c (tok :: args))
    (ih : ∀ c₁ c₁' : FlagCtx F D, (c₁.flags.map (·.name)).Nodup → SameVals c₁.flags c₁'.flags →
      Clean lib c₁ args₁ → SameOutcome (loop lib c₁ args₁) (loop lib c₁' args₁')) :
    SameOutcome (loop lib c (tok :: args)) (loop lib c' (tok :: args')) := by
  have hnames' : (c'.flags.map (·.name)).Nodup := hsame.names ▸ hnames
  have hround := loopRound_apply lib (List.nodup_iff_count_le_one.mp hnames name) htok hfetch
  have hround' := loopRound_apply lib (List.nodup_iff_count_le_one.mp hnames' name) htok hfetch'
  obtain ⟨hover, hok⟩ := hsame.apply lib ⟨name, ignore, some arg⟩
  obtain ⟨hreject, hhelp⟩ := hclean c (tok :: args) (.refl _ _)
  rw [loop_eq, loop_eq lib c']
  cases happly : applyOpt lib c.flags ⟨name, ignore, some arg⟩ with
  | none =>
    rw [happly] at hround
    rw [hover happly] at hround'
    rw [hround, hround']
    trivial
  | some verdict =>
    rw [happly] at hround
    cases verdict with
    | reject e => exact absurd hround (hreject _)
    | help => exact absurd hround hhelp
    | ok flags =>
      obtain ⟨gs, hgs, hsame'⟩ := hok flags happly
      rw [hgs] at hround'
      rw [hround, hround']
      dsimp only at hround ⊢
      obtain ⟨f, -, -, -, v, -, -, rfl⟩ := applyOpt_ok happly
      exact ih _ _ (by rw [setFlag_names]; exact hnames) hsame' (hclean.next hround)

theorem loop_drop {lib : FloatLib F D} {c c' : FlagCtx F D} {tok name arg : Str}
    {equals : Option Str} {args args₁ args' : List Str}
    (htok : readToken tok = some (name, true, equals))
    (hfetch : fetchArg equals args = some (arg, args₁))
    (hnames : (c.flags.map (·.name)).Nodup) (hsame : SameVals c.flags c'.flags)
    (hclean : Clean lib c (tok :: args))
    (ih : ∀ c₁ c₁' : FlagCtx F D, (c₁.flags.map (·.name)).Nodup → SameVals c₁.flags c₁'.flags →
      Clean lib c₁ args₁ → SameOutcome (loop lib c₁ args₁) (loop lib c₁' args')) :
    SameOutcome (loop lib c (tok :: args)) (loop lib c' args') := by
  have hround := loopRound_apply lib (List.nodup_iff_count_le_one.mp hnames name) htok hfetch
  obtain ⟨hreject, hhelp⟩ := hclean c (tok :: args) (.refl _ _)
  rw [loop_eq]
  cases happly : applyOpt lib c.flags ⟨name, true, some arg⟩ with
  | none => exact absurd happly (applyOpt_ignored_ne_none lib c.flags name arg)
  | some verdict =>
    rw [happly] at hround
    cases verdict with
    | reject e => exact absurd hround (hreject _)
    | help => exact absurd hround hhelp
    | ok flags =>
      have hvals := applyOpt_ignored hnames happly
      rw [hround]
      dsimp only at hround ⊢
      exact ih _ c' (hvals.names ▸ hnames) (hvals.symm.trans hsame) (hclean.next hround)

/-- Two runs of the loop, the second without some ignored options. -/
theorem loop_withoutIgnored {lib : FloatLib F D} {args args' : List Str}
    (h : WithoutIgnored args args') {c c' : FlagCtx F D} (hnames : (c.flags.map (·.name)).Nodup)
    (hsame : SameVals c.flags c'.flags) (hclean : Clean lib c args) :
    SameOutcome (loop lib c args) (loop lib c' args') := by
  induction h generalizing c c' with
  | nil => exact stopAt_same hsame []
  | @stop tok args htok =>
    have hround : ∀ c : FlagCtx F D, loopRound lib c (tok :: args) = .stop := fun c => by
      rw [loopRound, htok]
    rw [loop_eq, loop_eq lib c', hround, hround]
    exact stopAt_same hsame _
  | keep htok _ ih => exact loop_keep htok rfl rfl hnames hsame hclean fun _ _ => ih
  | keepValue htok _ ih => exact loop_keep htok rfl rfl hnames hsame hclean fun _ _ => ih
  | drop htok _ ih => exact loop_drop htok rfl hnames hsame hclean fun _ _ => ih
  | dropValue htok _ ih => exact loop_drop htok rfl hnames hsame hclean fun _ _ => ih

/-- The arguments of a call without some ignored options. -/
def ArgvWithoutIgnored (c : FlagCtx F D) (argv argv' : List Str) : Prop :=
  match c.programName with
  | none => ∃ prog args args', argv = prog :: args ∧ argv' = prog :: args' ∧
      WithoutIgnored args args'
  | some _ => WithoutIgnored argv argv'

/-- **Ignored options influence no value.**  When a call rejects no option and
prints no help, leaving out options with the prefix `/` (each with its value)
changes no value of a flag and, when both calls return `true`, no rest
argument. -/
theorem ignored_no_influence (lib : FloatLib F D) {c : FlagCtx F D}
    (hnames : (c.flags.map (·.name)).Nodup) {argv argv' : List Str}
    (hclean : Clean lib (started c argv) (argsOf c argv))
    (hargs : ArgvWithoutIgnored c argv argv') :
    SameOutcome (flagParse lib c argv) (flagParse lib c argv') := by
  unfold ArgvWithoutIgnored at hargs
  unfold started argsOf at hclean
  cases hprog : c.programName with
  | none =>
    rw [hprog] at hargs hclean
    obtain ⟨prog, args, args', rfl, rfl, hargs⟩ := hargs
    rw [flagParse_eq_loop lib (Or.inl (List.cons_ne_nil _ _)),
      flagParse_eq_loop lib (Or.inl (List.cons_ne_nil _ _)), started, started, argsOf, argsOf, hprog]
    exact loop_withoutIgnored hargs hnames (.refl _) hclean
  | some name =>
    have hset : c.programName ≠ none := by
      rw [hprog]
      exact Option.some_ne_none name
    rw [hprog] at hargs hclean
    rw [flagParse_eq_loop lib (Or.inr hset), flagParse_eq_loop lib (Or.inr hset), started, started,
      argsOf, argsOf, hprog]
    exact loop_withoutIgnored hargs hnames (.refl _) hclean

/-- Two ignored options, one of each spelling, between an option and the rest. -/
theorem ignored_no_influence_ints :
    SameOutcome
      (flagParse noFloat (intFlags ["n".toList, "m".toList])
        ["prog".toList, "-n=1".toList, "-/n=7".toList, "-/m".toList, "3".toList, "file".toList])
      (flagParse noFloat (intFlags ["n".toList, "m".toList])
        ["prog".toList, "-n=1".toList, "file".toList]) :=
  ignored_no_influence noFloat (by decide)
    (.round rfl (.round rfl (.round rfl (.stop rfl))))
    ⟨_, _, _, rfl, rfl, .keep rfl (.drop rfl (.dropValue rfl (.stop rfl)))⟩

end DataCommons.Flags
