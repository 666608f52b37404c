import DataCommons.Flags.Register
import DataCommons.Flags.TwoRuns

/-!
# The help text and the parser

`FlagPrintHelp` offers spellings to the user, the default flags among them.

* `spelling_in_help`: the text shows every offered spelling;
* `understood_iff`: which of them `flag_parse` understands.
-/

namespace DataCommons.Flags

open CString

variable {F D : Type}

/-! ## The text -/

/-- `%.4f` and `%.8f`. -/
structure HelpFormat (F D : Type) where
  showFloat : F → Str
  showDouble : D → Str

/-- The cases of `FlagPrintHelp`, which differ in the type and the default. -/
def helpEntry (name : Str) (desc : Option Str) (isMandatory : Bool) (type : String)
    (defText : Str) : Str :=
  "    -".toList ++ (name ++ (" <".toList ++ type.toList ++ ">\n".toList ++
    "        ".toList ++ showStr desc ++ "\n".toList ++
    if isMandatory then "        MANDATORY\n".toList
    else "        Default: ".toList ++ defText ++ "\n".toList))

/-- The case `FLAG_LIST`, which shows the name twice and no default. -/
def helpList (name : Str) (desc : Option Str) : Str :=
  "    -".toList ++ (name ++ (" <str> ... ".toList ++ name ++ " <str> ...\n".toList ++
    "        ".toList ++ showStr desc ++ "\n".toList))

def helpFlag (fmt : HelpFormat F D) (r : Registration F D) : Str :=
  match r.defVal with
  | .bool v =>
    helpEntry r.name r.desc r.isMandatory "bool" (if v then "true".toList else "false".toList)
  | .uint8 v => helpEntry r.name r.desc r.isMandatory "uint8" (showNat v.toNat)
  | .uint16 v => helpEntry r.name r.desc r.isMandatory "uint16" (showNat v.toNat)
  | .uint32 v => helpEntry r.name r.desc r.isMandatory "uint32" (showNat v.toNat)
  | .uint64 v => helpEntry r.name r.desc r.isMandatory "uint64" (showNat v.toNat)
  | .int v => helpEntry r.name r.desc r.isMandatory "int" (showInt v.toInt)
  | .float v => helpEntry r.name r.desc r.isMandatory "float" (fmt.showFloat v)
  | .double v => helpEntry r.name r.desc r.isMandatory "double" (fmt.showDouble v)
  | .size v => helpEntry r.name r.desc r.isMandatory "size" (showNat v.toNat)
  | .str v => helpEntry r.name r.desc r.isMandatory "str" (showStr v)
  | .list _ => helpList r.name r.desc

/-- `def_usage` behind the program name, line by line. -/
def defUsage : List String :=
  [" [OPTIONS]\n", "\n", "OPTIONS:\n", "\n", "    DEFAULT FLAGS:\n", "    -f, -file <str>\n",
    "        File name to be parsed\n", "        Default: NONE\n", "    -h, -help <bool>\n",
    "        Show this message\n", "        Default: false\n", "    CUSTOM FLAGS:\n"]

def flagPrintHelp (fmt : HelpFormat F D) (programName : Option Str)
    (rs : List (Registration F D)) : Str :=
  "Usage: ".toList ++ showStr programName ++ defUsage.flatMap String.toList ++
    rs.flatMap (helpFlag fmt)

/-- What the text offers: to show the help, or an option with a value. -/
inductive Offer where
  | help (name : Str)
  | option (name : Str)
  deriving DecidableEq

def Offer.name : Offer → Str
  | help name => name
  | option name => name

def Offer.spelling (o : Offer) : Str := '-' :: o.name

/-- The offers of the text: the default flags and the registered ones. -/
def offered (rs : List (Registration F D)) : List Offer :=
  [.option "f".toList, .option "file".toList, .help "h".toList, .help "help".toList] ++
    rs.map fun r => .option r.name

theorem helpFlag_shows (fmt : HelpFormat F D) (r : Registration F D) :
    '-' :: r.name <:+: helpFlag fmt r := by
  have hshows : ∀ rest : Str, '-' :: r.name <:+: "    -".toList ++ (r.name ++ rest) := fun rest =>
    ⟨"    ".toList, rest, rfl⟩
  unfold helpFlag
  cases r.defVal with
  | _ => exact hshows _

theorem flatMap_shows {α : Type} {l : List α} {a : α} (ha : a ∈ l) (g : α → Str) :
    g a <:+: l.flatMap g := by
  obtain ⟨p, q, rfl⟩ := List.append_of_mem ha
  rw [List.flatMap_append, List.flatMap_cons, ← List.append_assoc]
  exact ⟨_, _, rfl⟩

/-- The default flags stand in two lines of `def_usage`. -/
theorem defUsage_shows {o : Offer}
    (ho : o ∈ [.option "f".toList, .option "file".toList, .help "h".toList, .help "help".toList]) :
    ∃ line ∈ defUsage, o.spelling <:+: line.toList := by
  simp only [List.mem_cons, List.not_mem_nil, or_false] at ho
  rcases ho with rfl | rfl | rfl | rfl
  · exact ⟨"    -f, -file <str>\n", by simp [defUsage], "    ".toList, ", -file <str>\n".toList, rfl⟩
  · exact ⟨"    -f, -file <str>\n", by simp [defUsage], "    -f, ".toList, " <str>\n".toList, rfl⟩
  · exact ⟨"    -h, -help <bool>\n", by simp [defUsage], "    ".toList, ", -help <bool>\n".toList, rfl⟩
  · exact ⟨"    -h, -help <bool>\n", by simp [defUsage], "    -h, ".toList, " <bool>\n".toList, rfl⟩

/-- **The text shows every offered spelling.** -/
theorem spelling_in_help (fmt : HelpFormat F D) (programName : Option Str)
    {rs : List (Registration F D)} {o : Offer} (ho : o ∈ offered rs) :
    o.spelling <:+: flagPrintHelp fmt programName rs := by
  rcases List.mem_append.mp ho with hdefault | hflag
  · obtain ⟨line, hline, hshows⟩ := defUsage_shows hdefault
    exact (hshows.trans (flatMap_shows hline String.toList)).trans ⟨_, _, rfl⟩
  · obtain ⟨r, hr, rfl⟩ := List.mem_map.mp hflag
    have hshows := (helpFlag_shows fmt r).trans (flatMap_shows hr (helpFlag fmt))
    exact hshows.trans (List.suffix_append _ _).isInfix

/-! ## What the parser understands -/

/-- These flags are registered, with any values and marks. -/
def ContextOf (rs : List (Registration F D)) (c : FlagCtx F D) : Prop :=
  c.flags.map (·.name) = rs.map (·.name)

/-- Every flag of this name takes the value. -/
def TakesValue (lib : FloatLib F D) (flags : List (Flag F D)) (name value : Str) : Prop :=
  ∀ f ∈ flags, f.name = name → ∃ v, flagStore lib false value f.val = some (.ok v)

/-- The round accepts an option of this name: it goes on at `rest`, and the flag holds
the value. -/
def AcceptsOption (lib : FloatLib F D) (c : FlagCtx F D) (name value : Str)
    (args rest : List Str) : Prop :=
  ∃ c', loopRound lib c args = .next c' rest ∧
    ∀ f ∈ c.flags, f.name = name → ∃ v, flagStore lib false value f.val = some (.ok v) ∧
      { f with val := v, hasChanged := true } ∈ c'.flags

/-- In option position, behind any options that the call comes past, an offered spelling
does what the text says. -/
def Understood (lib : FloatLib F D) (rs : List (Registration F D)) : Offer → Prop
  | .help name => ∀ c, ContextOf rs c → ∀ (pre suf : List Str) (c₁ : FlagCtx F D),
      Reaches lib c (pre ++ ('-' :: name) :: suf) c₁ (('-' :: name) :: suf) →
        ∃ c', flagParse lib c (pre ++ ('-' :: name) :: suf) = some (c', [.help], true)
  | .option name => ∀ c, ContextOf rs c → ∀ (pre : List Str) (value : Str) (suf : List Str)
      (c₁ : FlagCtx F D),
      Reaches lib c (pre ++ ('-' :: name) :: value :: suf) c₁ (('-' :: name) :: value :: suf) →
        TakesValue lib c₁.flags name value →
          AcceptsOption lib c₁ name value (('-' :: name) :: value :: suf) suf

/-- The token of the name is read as an option of the name. -/
structure Spellable (name : Str) : Prop where
  equals : '=' ∉ name
  slash : name.head? ≠ some '/'
  dash : name ≠ ['-']
  notHelp : ¬ IsHelp name

/-- The offers that the parser understands. -/
def UnderstoodWhen (rs : List (Registration F D)) : Offer → Prop
  | .help _ => False
  | .option name => (rs.map (·.name)).count name = 1 ∧ Spellable name

theorem cutEquals_length (x : Str) : (cutEquals x).1.length ≤ x.length := by
  unfold cutEquals
  split
  · exact Nat.le_refl _
  · exact (List.takeWhile_sublist _).length_le

theorem cutSlash_of_head {name : Str} (h : name.head? ≠ some '/') :
    cutSlash name = (false, name) := by
  unfold cutSlash
  split
  · exact absurd rfl h
  · rfl

theorem readToken_spellable {name : Str} (h : Spellable name) :
    readToken ('-' :: name) = some (name, false, none) := by
  have hcut : cutEquals name = (name, none) := by
    have hdrop : name.dropWhile (· ≠ '=') = [] := List.dropWhile_eq_nil_iff.mpr fun c hc =>
      decide_eq_true fun heq => h.equals (by rwa [heq] at hc)
    rw [cutEquals, hdrop]
  rw [readToken, if_neg h.dash, cutSlash_of_head h.slash, hcut]

/-- A token that is read as an option of its own name. -/
theorem spellable_of_readToken {name : Str} {ignore : Bool} (hhelp : ¬ IsHelp name)
    (h : readToken ('-' :: name) = some (name, ignore, none)) : Spellable name := by
  unfold readToken at h
  split at h
  · rename_i flag heq
    cases heq
    split at h
    · cases h
    · rename_i hdash
      simp only [Option.some.injEq, Prod.mk.injEq] at h
      obtain ⟨hname, -, hnone⟩ := h
      have hslash : name.head? ≠ some '/' := by
        intro hhead
        obtain ⟨rest, rfl⟩ := List.head?_eq_some_iff.mp hhead
        -- the name that is read is shorter
        have hlen := cutEquals_length rest
        have hcut : cutSlash ('/' :: rest) = (true, rest) := rfl
        rw [hcut] at hname
        rw [hname, List.length_cons] at hlen
        omega
      rw [cutSlash_of_head hslash] at hname hnone
      exact ⟨(cutEquals_eq_none (Prod.ext hname hnone)).1, hslash, hdash, hhelp⟩
  · rename_i hne
    exact absurd rfl (hne name)

theorem matchFlags_joined_args {lib : FloatLib F D} {name v : Str} {ignore : Bool}
    {flags : List (Flag F D)} {args : List Str} {m : Matched F D}
    (h : matchFlags lib name ignore (some v) flags args = some m) : m.args = args := by
  induction flags generalizing m with
  | nil =>
    cases h
    rfl
  | cons f fs ih =>
    cases matchFlags_cons h with
    | other _ hrest =>
      have hargs := ih hrest
      exact hargs
    | missing _ hfetch => cases hfetch
    | refused _ hfetch _ =>
      cases hfetch
      rfl
    | stored _ hfetch _ hrest =>
      cases hfetch
      have hargs := ih hrest
      exact hargs

theorem matchFlags_other {lib : FloatLib F D} {name : Str} {ignore : Bool} {equals : Option Str}
    {flags : List (Flag F D)} {args : List Str} {m : Matched F D}
    (h : matchFlags lib name ignore equals flags args = some m) {g : Flag F D} (hg : g ∈ m.flags)
    (hname : g.name ≠ name) : g ∈ flags := by
  induction flags generalizing args m with
  | nil =>
    cases h
    exact hg
  | cons f fs ih =>
    cases matchFlags_cons h with
    | other _ hrest =>
      rcases List.mem_cons.mp hg with rfl | hg
      · exact List.mem_cons_self
      · exact List.mem_cons_of_mem _ (ih hrest hg)
    | missing => exact hg
    | refused => exact hg
    | stored hf _ _ hrest =>
      rcases List.mem_cons.mp hg with rfl | hg
      · exact absurd hf hname
      · exact List.mem_cons_of_mem _ (ih hrest hg)

/-- An option whose value is accepted, with nothing behind it, has a name that its token
spells. -/
theorem spellable_of_accepted {lib : FloatLib F D} {c : FlagCtx F D} {name value : Str}
    (hmem : name ∈ c.flags.map (·.name)) (hunchanged : ∀ f ∈ c.flags, f.hasChanged = false)
    (h : AcceptsOption lib c name value ['-' :: name, value] []) : Spellable name := by
  obtain ⟨c', hround, hstored⟩ := h
  obtain ⟨_, _, read, ignore, equals, m, heq, htok, hhelp, hm, -, -, rfl, hargs⟩ :=
    loopRound_next hround
  cases heq
  obtain rfl : equals = none := by
    cases equals with
    | none => rfl
    | some v =>
      rw [matchFlags_joined_args hm] at hargs
      cases hargs
  obtain rfl : read = name := by
    by_contra hne
    obtain ⟨f, hf, hname⟩ := List.mem_map.mp hmem
    obtain ⟨v, -, hg⟩ := hstored f hf hname
    have hbefore := matchFlags_other hm hg fun heq => hne (heq.symm.trans hname)
    cases hunchanged _ hbefore
  exact spellable_of_readToken hhelp htok

/-- Such an option is the only one of its name. -/
theorem count_of_accepted {lib : FloatLib F D} {c : FlagCtx F D} {name value : Str}
    (hspell : Spellable name)
    (hok : ∀ f ∈ c.flags, ∃ w, flagStore lib false value f.val = some (.ok w))
    (h : AcceptsOption lib c name value ['-' :: name, value] []) :
    (c.flags.map (·.name)).count name = 1 := by
  obtain ⟨c', hround, -⟩ := h
  obtain ⟨_, _, _, _, _, m, heq, htok, -, hm, herr, hfound, -, -⟩ := loopRound_next hround
  cases heq
  rw [readToken_spellable hspell] at htok
  cases htok
  have hpos : (c.flags.map (·.name)).count name ≠ 0 := by
    intro hzero
    rw [matchFlags_absent lib false none (List.count_eq_zero.mp hzero)] at hm
    cases hm
    cases hfound
  have htwo : ¬ 2 ≤ (c.flags.map (·.name)).count name := by
    intro htwo
    obtain ⟨m', hm', herr'⟩ := @matchFlags_short F D lib name value false c.flags htwo hok
    rw [hm] at hm'
    cases hm'
    rw [herr] at herr'
    cases herr'
  omega

/-- The offers with a value name a default flag or a registered one. -/
theorem option_of_offered {rs : List (Registration F D)} {name : Str}
    (ho : .option name ∈ offered rs) :
    (name = "f".toList ∨ name = "file".toList) ∨ name ∈ rs.map (·.name) := by
  rcases List.mem_append.mp ho with hdefault | hflag
  · simp only [List.mem_cons, List.not_mem_nil, or_false, Offer.option.injEq, reduceCtorEq] at hdefault
    exact Or.inl hdefault
  · obtain ⟨r, hr, heq⟩ := List.mem_map.mp hflag
    cases heq
    exact Or.inr (List.mem_map_of_mem hr)

/-- `-h` and `-help` ask for no help: without a value behind them they are refused. -/
theorem help_refused (lib : FloatLib F D) (c : FlagCtx F D) {name : Str} (hspell : Spellable name) :
    ∃ c', loopRound lib c ['-' :: name] = .reject c' := by
  rw [loopRound, readToken_spellable hspell]
  dsimp only
  rw [if_neg hspell.notHelp]
  by_cases hmem : name ∈ c.flags.map (·.name)
  · rw [matchFlags_no_arg lib false hmem]
    exact ⟨_, rfl⟩
  · rw [matchFlags_absent lib false none hmem]
    exact ⟨_, rfl⟩

/-- A call on a program name and these arguments begins with them. -/
theorem registered_reaches (lib : FloatLib F D) (rs : List (Registration F D)) (args : List Str) :
    ∃ c₁, Reaches lib (registered rs) ([[]] ++ args) c₁ args ∧
      c₁.flags = (registered rs).flags :=
  ⟨_, .refl _ _, rfl⟩

/-- **What the parser understands of the help text.**  An offered option is understood if
and only if one flag has its name, and the name has no `=`, does not begin with `/`, and
is none of `-`, `-h` and `-help`.  The offered requests for help never are. -/
theorem understood_iff (lib : FloatLib F D) (hlib : lib.ReadsOne) (rs : List (Registration F D))
    {o : Offer} (ho : o ∈ offered rs) : Understood lib rs o ↔ UnderstoodWhen rs o := by
  have hnames : (registered rs).flags.map (·.name) = rs.map (·.name) := by
    rw [registered, List.map_map]
    rfl
  have hreg := registered_context rs
  cases o with
  | help name =>
    refine ⟨fun h => ?_, fun h => h.elim⟩
    have hspell : Spellable name := by
      rcases List.mem_append.mp ho with hdefault | hflag
      · simp only [List.mem_cons, List.not_mem_nil, or_false, Offer.help.injEq, reduceCtorEq,
          false_or] at hdefault
        rcases hdefault with rfl | rfl
        · exact ⟨by decide, by decide, by decide, by decide⟩
        · exact ⟨by decide, by decide, by decide, by decide⟩
      · obtain ⟨r, -, heq⟩ := List.mem_map.mp hflag
        cases heq
    obtain ⟨c₁, hreach, -⟩ := registered_reaches lib rs ['-' :: name]
    obtain ⟨c', hhelp⟩ := h (registered rs) hnames [[]] [] c₁ hreach
    obtain ⟨c₂, hround⟩ := help_refused lib c₁ hspell
    have hcall := flagParse_of_reaches (Or.inl (List.cons_ne_nil _ _)) hreach
    rw [loop_eq, hround] at hcall
    cases hcall.symm.trans hhelp
  | option name =>
    constructor
    · intro h
      obtain ⟨c₁, hreach, hflags⟩ := registered_reaches lib rs ['-' :: name, "1".toList]
      have hnames₁ : c₁.flags.map (·.name) = rs.map (·.name) := by rw [hflags, hnames]
      have hok : ∀ f ∈ c₁.flags, ∃ w, flagStore lib false "1".toList f.val = some (.ok w) :=
        fun f hf => flagStore_one hlib false (hreg.lists f (hflags ▸ hf))
      have haccept := h (registered rs) hnames [[]] "1".toList [] c₁ hreach
        fun f hf _ => hok f hf
      have hspell : Spellable name := by
        rcases option_of_offered ho with (rfl | rfl) | hmem
        · exact ⟨by decide, by decide, by decide, by decide⟩
        · exact ⟨by decide, by decide, by decide, by decide⟩
        · rw [← hnames₁] at hmem
          exact spellable_of_accepted hmem (hflags ▸ hreg.unchanged) haccept
      have hcount := count_of_accepted hspell hok haccept
      exact ⟨hnames₁ ▸ hcount, hspell⟩
    · rintro ⟨hcount, hspell⟩ c hc pre value suf c₁ hreach htakes
      have hone : (c₁.flags.map (·.name)).count name = 1 := by
        rw [hreach.names, started_flags, hc, hcount]
      have hmem : name ∈ c₁.flags.map (·.name) := List.count_pos_iff.mp (by omega)
      obtain ⟨f, hf, hname⟩ := List.mem_map.mp hmem
      obtain ⟨v, hv⟩ := htakes f hf hname
      have hfind := find_of_mem hone.le hf hname
      have hround := loopRound_apply lib hone.le (readToken_spellable hspell)
        (rfl : fetchArg none (value :: suf) = some (value, suf))
      rw [applyOpt, if_neg hspell.notHelp, hfind] at hround
      dsimp only at hround
      rw [hv] at hround
      refine ⟨_, hround, fun g hg hgn => ?_⟩
      obtain rfl : f = g := Option.some.inj (hfind.symm.trans (find_of_mem hone.le hg hgn))
      exact ⟨v, hv, List.mem_map.mpr ⟨f, hf, if_pos hgn⟩⟩

theorem understood_iff_n :
    Understood onlyOne [flagBool "v".toList false false none, flagInt "n".toList true 0 none]
        (.option "n".toList) ↔
      UnderstoodWhen [(flagBool "v".toList false false none : Registration Unit Unit),
        flagInt "n".toList true 0 none] (.option "n".toList) :=
  understood_iff onlyOne ⟨by decide, by decide⟩ _ (by decide)

theorem help_unknown :
    .help "h".toList ∈ offered [(flagInt "n".toList true 0 none : Registration Unit Unit)] ∧
      ¬ Understood onlyOne [flagInt "n".toList true 0 none] (.help "h".toList) ∧
      ∃ c', flagParse onlyOne (registered [flagInt "n".toList true 0 none])
          ["prog".toList, "-h".toList] = some (c', [], false) ∧
        flagPrintError c' = "ERROR: -h: unknown flag\n    h is not a valid flag\n".toList := by
  refine ⟨by decide, fun h => ?_, _, rfl, by decide⟩
  obtain ⟨c', hhelp⟩ := h (registered [flagInt "n".toList true 0 none]) rfl ["prog".toList] []
    { registered [flagInt "n".toList true 0 none] with programName := some "prog".toList }
    (.refl _ _)
  have hfalse : (flagParse onlyOne (registered [flagInt "n".toList true 0 none])
      ["prog".toList, "-h".toList]).map (fun r => r.2.2) = some false := by decide
  have htrue := congrArg (Option.map fun r => r.2.2) hhelp
  cases hfalse.symm.trans htrue

end DataCommons.Flags
