import DataCommons.Flags.Help
import DataCommons.Flags.Numbers
import DataCommons.Flags.Reorder
import DataCommons.Flags.Sizes

/-!
# Typing a setting

A value is typed as `FlagPrintHelp` shows it, as `-name=text` or as `-name text`; the
items of a list are typed one option each.

* `flagStore_shown`: a shown value is read as that value;
* `runOpts_accepted`: options that are all accepted reach the end;
* `typed_settings`: what is typed is what the flags hold.
-/

namespace DataCommons.Flags

open CString

variable {F D : Type}

/-! ## Values and their texts -/

/-- A value as `FlagPrintHelp` shows it. -/
def FlagVal.shown (fmt : HelpFormat F D) : FlagVal F D → Str
  | .bool v => if v then "true".toList else "false".toList
  | .uint8 v => showNat v.toNat
  | .uint16 v => showNat v.toNat
  | .uint32 v => showNat v.toNat
  | .uint64 v => showNat v.toNat
  | .int v => showInt v.toInt
  | .float v => fmt.showFloat v
  | .double v => fmt.showDouble v
  | .size v => showNat v.toNat
  | .str v => showStr v
  | .list _ => []

/-- The help text shows the default in this way, unless the flag is mandatory or a list. -/
theorem helpFlag_shown (fmt : HelpFormat F D) {r : Registration F D} (hm : r.isMandatory = false)
    (hlist : r.defVal.type ≠ .list) :
    "        Default: ".toList ++ r.defVal.shown fmt ++ "\n".toList <:+ helpFlag fmt r := by
  have hentry : ∀ (type : String) (text : Str), "        Default: ".toList ++ text ++ "\n".toList <:+
      helpEntry r.name r.desc r.isMandatory type text := by
    intro type text
    rw [helpEntry, hm, if_neg Bool.false_ne_true]
    exact ⟨"    -".toList ++ (r.name ++ (" <".toList ++ type.toList ++ ">\n".toList ++
      "        ".toList ++ showStr r.desc ++ "\n".toList)), by simp only [List.append_assoc]⟩
  unfold helpFlag
  cases hval : r.defVal with
  | list items =>
    rw [hval] at hlist
    exact absurd rfl hlist
  | _ => exact hentry _ _

/-- The value is read back from its text.  A null string is shown as a string is, and a
floating point number may be shown with too few digits. -/
def Readable (lib : FloatLib F D) (fmt : HelpFormat F D) : FlagVal F D → Prop
  | .float v => parseFloat lib (fmt.showFloat v) = .ok v
  | .double v => parseDouble lib (fmt.showDouble v) = .ok v
  | .str v => v ≠ none
  | _ => True

theorem showInt_natCast (n : ℕ) : showInt n = showNat n := by
  rw [showInt, if_neg (by omega), Int.natAbs_natCast]

theorem parseUint_showNat {max n : ℕ} (hn : n ≤ max) (hmax : max ≤ uint64Max) :
    parseUint max (showNat n) = .ok n := by
  have hmod : ((n : ℤ) % 2 ^ 64).toNat = n := by
    rw [uint64Max] at hmax
    omega
  rw [← showInt_natCast, parseUint_of_denotes max (denotes_showInt n), hmod,
    if_pos ⟨by rw [Int.natAbs_natCast]; exact hn.trans hmax, hn⟩]

theorem parseSize_showNat {n : ℕ} (hn : n ≤ uint64Max) : parseSize (showNat n) = .ok n := by
  have hval : ofDigits (showNat n) = n := Nat.ofDigitChars_ten_toDigits
  have hsize := @parseSize_digits (showNat n) [] (showNat_ne_nil n)
    (fun _ => isDigit_of_mem_showNat) (by simp)
  have hmax : ¬ n > ullongMax := Nat.not_lt.mpr hn
  have hmult : suffixMult [] = some 1 := rfl
  rw [List.append_nil, hval, if_neg hmax, hmult] at hsize
  dsimp only at hsize
  rw [hsize, Nat.mul_one, if_neg (Nat.not_lt.mpr hn)]

theorem parseInt_showInt (v : Int32) : parseInt (showInt v.toInt) = .ok v.toInt := by
  have hlo := v.le_toInt
  have hhi := v.toInt_lt
  rw [parseInt_of_denotes (denotes_showInt _), if_pos ⟨by omega, by omega⟩]

theorem stored_of_parsed {α β : Type} {r : Except FlagError β} {n : β} (hr : r = .ok n) (old : α)
    {g : β → α} {a : α} (hg : g n = a) (mk : α → FlagVal F D) :
    some ((storeNumber false old (r.map g)).map mk) = some (.ok (mk a)) := by
  rw [hr, ← hg]
  rfl

/-- **A shown value is read as that value.** -/
theorem flagStore_shown {lib : FloatLib F D} {fmt : HelpFormat F D} {v w : FlagVal F D}
    (htype : v.type = w.type) (hlist : v.type ≠ .list) (hread : Readable lib fmt w) :
    flagStore lib false (w.shown fmt) v = some (.ok w) := by
  rw [flagStore_congr lib _ htype hlist]
  cases w with
  | bool b => cases b <;> rfl
  | uint8 n =>
    have hle := Nat.le_of_lt_succ n.toNat_lt
    exact stored_of_parsed (parseUint_showNat hle (by decide)) n UInt8.ofNat_toNat .uint8
  | uint16 n =>
    have hle := Nat.le_of_lt_succ n.toNat_lt
    exact stored_of_parsed (parseUint_showNat hle (by decide)) n UInt16.ofNat_toNat .uint16
  | uint32 n =>
    have hle := Nat.le_of_lt_succ n.toNat_lt
    exact stored_of_parsed (parseUint_showNat hle (by decide)) n UInt32.ofNat_toNat .uint32
  | uint64 n =>
    have hle := Nat.le_of_lt_succ n.toNat_lt
    exact stored_of_parsed (parseUint_showNat hle (by decide)) n UInt64.ofNat_toNat .uint64
  | int n => exact stored_of_parsed (parseInt_showInt n) n n.ofInt_toInt .int
  | float x =>
    rw [flagStore, FlagVal.shown, hread]
    rfl
  | double x =>
    rw [flagStore, FlagVal.shown, hread]
    rfl
  | size n =>
    have hle := Nat.le_of_lt_succ n.toNat_lt
    exact stored_of_parsed (parseSize_showNat hle) n UInt64.ofNat_toNat .size
  | str s =>
    obtain ⟨text, rfl⟩ := Option.ne_none_iff_exists'.mp hread
    rfl
  | list items => exact absurd htype hlist

/-! ## Options that are accepted -/

/-- **Options that are all accepted reach the end**, and every flag is what they make of
it. -/
theorem runOpts_accepted {lib : FloatLib F D} (rest : List Str) {c : FlagCtx F D} {os : List Opt}
    (hnames : (c.flags.map (·.name)).Nodup) (hhelp : ∀ o ∈ os, ¬ IsHelp o.name)
    (hacc : Accepts lib c.flags os) :
    ∃ flags, List.Forall₂ (FinalFlag lib os) c.flags flags ∧
      runOpts lib rest c os = runOpts lib rest { c with flags := flags } [] := by
  induction os generalizing c with
  | nil => exact ⟨c.flags, List.forall₂_same.mpr fun f _ => FinalFlag.nil lib f, rfl⟩
  | cons o os ih =>
    obtain ⟨hknown, hroom⟩ := hacc
    obtain ⟨f, hf, hname, arg, hvalue, herr⟩ := hknown o List.mem_cons_self
    obtain ⟨v, hstore, happly⟩ := applyOpt_of_known hnames (hhelp o List.mem_cons_self) hf hname
      hvalue herr (hroom f hf)
    have hknown' : ∀ o' ∈ os, Known lib (setFlag o.name v c.flags) o' := fun o' ho' =>
      (known_setFlag hnames hf hname hstore o').mpr (hknown o' (List.mem_cons_of_mem _ ho'))
    have hroom' := (room_setFlag hnames hf hname hvalue hstore os).mpr hroom
    obtain ⟨flags, hfinal, hrun⟩ := @ih { c with flags := setFlag o.name v c.flags }
      (by rw [setFlag_names]; exact hnames) (fun o ho => hhelp o (List.mem_cons_of_mem _ ho))
      ⟨hknown', hroom'⟩
    have hstep : runOpts lib rest c (o :: os) =
        runOpts lib rest { c with flags := setFlag o.name v c.flags } os := by
      rw [runOpts, happly]
    refine ⟨flags, ?_, hstep.trans hrun⟩
    rw [setFlag, List.forall₂_map_left_iff] at hfinal
    refine ((List.forall₂_and_left c.flags flags).mpr ⟨fun g hg => hg, hfinal⟩).imp ?_
    rintro g g' ⟨hg, hg'⟩
    by_cases hgo : g.name = o.name
    · obtain rfl : f = g := List.inj_on_of_nodup_map hnames hf hg (hname.trans hgo.symm)
      rw [if_pos hgo] at hg'
      exact FinalFlag.cons_self hstore hvalue hgo.symm hg'
    · rw [if_neg hgo] at hg'
      exact FinalFlag.cons_other hg' (Ne.symm hgo)

/-! ## What the user types -/

/-- An option as it is typed: a name, a text, and whether they stand in one argument. -/
structure Typed where
  name : Str
  text : Str
  joined : Bool

def Typed.opt (t : Typed) : Opt := ⟨t.name, false, some t.text⟩

def Typed.tokens (t : Typed) : List Str :=
  if t.joined then [('-' :: t.name) ++ '=' :: t.text] else ['-' :: t.name, t.text]

theorem Typed.spells {t : Typed} (h : Spellable t.name) : Spells t.opt t.tokens := by
  have htok := readToken_spellable h
  unfold Typed.tokens
  cases t.joined with
  | true => exact .joined (readToken_joined htok t.text)
  | false => exact .separate htok t.text

theorem readArgs_typed {ts : List Typed} (hspell : ∀ t ∈ ts, Spellable t.name) :
    readArgs (ts.flatMap Typed.tokens) = ⟨ts.map Typed.opt, []⟩ := by
  have h := readArgs_items (ts.attach.map fun t => ⟨t.1.opt, t.1.tokens, Typed.spells (hspell t.1 t.2)⟩)
  rw [tokensOf, List.flatMap_map, List.map_map] at h
  rw [← List.attach_map_subtype_val ts, List.flatMap_map, List.map_map]
  exact h

/-- The texts typed for a flag, in order. -/
def textsFor (name : Str) (ts : List Typed) : List Str :=
  (ts.filter (·.name = name)).map (·.text)

theorem valuesFor_typed (name : Str) (ts : List Typed) :
    valuesFor name (ts.map Typed.opt) = textsFor name ts := by
  induction ts with
  | nil => rfl
  | cons t ts ih =>
    by_cases h : t.name = name
    · rw [List.map_cons, valuesFor_stored _ h rfl rfl, ih, textsFor, textsFor,
        List.filter_cons_of_pos (by simpa using h)]
      rfl
    · rw [List.map_cons, valuesFor_other _ h, ih, textsFor, textsFor,
        List.filter_cons_of_neg (by simpa using h)]

theorem typed_any (name : Str) (ts : List Typed) :
    (ts.map Typed.opt).any (·.name = name) = decide (textsFor name ts ≠ []) := by
  rw [Bool.eq_iff_iff, decide_eq_true_eq, List.any_map, List.any_eq_true, textsFor, ne_eq,
    List.map_eq_nil_iff, List.filter_eq_nil_iff]
  simp only [not_forall, not_not, exists_prop]
  exact Iff.rfl

/-- A value as it is typed: the items of a list one by one. -/
def FlagVal.texts (fmt : HelpFormat F D) : FlagVal F D → List Str
  | .list items => items
  | v => [v.shown fmt]

/-- The value can be typed for the flag: it is of its type and read back from its text; a
list is empty before, and its items fit. -/
structure Settable (lib : FloatLib F D) (fmt : HelpFormat F D) (v w : FlagVal F D) : Prop where
  type : v.type = w.type
  readable : Readable lib fmt w
  list : ∀ items, w = .list items → v = .list [] ∧ items.length ≤ flagListInitCap

/-- A flag behind the call: one that was typed has the wanted value. -/
def typedFlag (want : Str → FlagVal F D) (ts : List Typed) (f : Flag F D) : Flag F D :=
  if textsFor f.name ts = [] then f else { f with val := want f.name, hasChanged := true }

/-- What is typed for each flag is nothing or the wanted value. -/
structure Says (lib : FloatLib F D) (fmt : HelpFormat F D) (flags : List (Flag F D))
    (want : Str → FlagVal F D) (ts : List Typed) : Prop where
  spell : ∀ t ∈ ts, Spellable t.name
  known : ∀ t ∈ ts, ∃ f ∈ flags, f.name = t.name
  said : ∀ f ∈ flags, textsFor f.name ts = [] ∨
    textsFor f.name ts = (want f.name).texts fmt ∧ Settable lib fmt f.val (want f.name)
  mandatory : ∀ f ∈ flags, f.isMandatory = true → f.hasChanged = true ∨ textsFor f.name ts ≠ []

section Says

variable {lib : FloatLib F D} {fmt : HelpFormat F D} {flags : List (Flag F D)}
  {want : Str → FlagVal F D} {ts : List Typed}

theorem FlagVal.texts_scalar {w : FlagVal F D} (hw : w.type ≠ .list) :
    w.texts fmt = [w.shown fmt] := by
  cases w with
  | list items => exact absurd rfl hw
  | _ => rfl

theorem exists_list {w : FlagVal F D} (hw : w.type = .list) : ∃ items, w = .list items := by
  cases w with
  | list items => exact ⟨items, rfl⟩
  | _ => cases hw

theorem Says.accepts (h : Says lib fmt flags want ts) : Accepts lib flags (ts.map Typed.opt) where
  known := by
    intro o ho
    obtain ⟨t, ht, rfl⟩ := List.mem_map.mp ho
    obtain ⟨f, hf, hname⟩ := h.known t ht
    refine ⟨f, hf, hname, t.text, rfl, ?_⟩
    have hmem : t.text ∈ textsFor f.name ts :=
      List.mem_map.mpr ⟨t, List.mem_filter.mpr ⟨ht, by simp [hname]⟩, rfl⟩
    rcases h.said f hf with hnone | ⟨htexts, hset⟩
    · rw [hnone] at hmem
      cases hmem
    · by_cases hlist : (want f.name).type = .list
      · obtain ⟨items, hitems⟩ := exists_list hlist
        rw [(hset.list items hitems).1]
        exact caseError_list lib _ _ _
      · rw [htexts, FlagVal.texts_scalar hlist, List.mem_singleton] at hmem
        rw [hmem, caseError, Typed.opt, flagStore_shown hset.type (hset.type ▸ hlist) hset.readable]
  room := by
    intro f hf items hitems
    rw [valuesFor_typed]
    rcases h.said f hf with hnone | ⟨htexts, hset⟩
    · exact Or.inl hnone
    · have htype := hset.type
      rw [hitems] at htype
      obtain ⟨items', hwant⟩ := exists_list htype.symm
      obtain ⟨hempty, hlen⟩ := hset.list items' hwant
      obtain rfl : items = [] := by
        rw [hitems] at hempty
        exact FlagVal.list.inj hempty
      rw [htexts, hwant, List.length_nil, Nat.zero_add]
      exact Or.inr hlen

theorem Says.final (h : Says lib fmt flags want ts) {f f' : Flag F D} (hf : f ∈ flags)
    (hfinal : FinalFlag lib (ts.map Typed.opt) f f') : f' = typedFlag want ts f := by
  have hchanged := hfinal.hasChanged
  rw [typed_any] at hchanged
  have hval : f'.val = (typedFlag want ts f).val := by
    rw [typedFlag]
    split
    · rename_i hnone
      exact hfinal.kept (by rw [valuesFor_typed, hnone])
    · rename_i hsome
      obtain ⟨htexts, hset⟩ := (h.said f hf).resolve_left hsome
      by_cases hlist : (want f.name).type = .list
      · obtain ⟨items, hitems⟩ := exists_list hlist
        rw [hfinal.list [] (hset.list items hitems).1, valuesFor_typed, htexts, hitems]
        rfl
      · have hlast : (valuesFor f.name (ts.map Typed.opt)).getLast? = some ((want f.name).shown fmt) := by
          rw [valuesFor_typed, htexts, FlagVal.texts_scalar hlist]
          rfl
        have htype : f.val.type ≠ .list := hset.type ▸ hlist
        have hstored := hfinal.converted htype _ hlast
        rw [flagStore_shown hset.type htype hset.readable] at hstored
        exact (Except.ok.inj (Option.some.inj hstored)).symm
  have hmark : f'.hasChanged = (typedFlag want ts f).hasChanged := by
    rw [hchanged, typedFlag]
    split
    · rename_i hnone
      simp [hnone]
    · rename_i hsome
      simp [hsome]
  have hname : f'.name = (typedFlag want ts f).name := by
    rw [hfinal.name, typedFlag]
    split <;> rfl
  have hmand : f'.isMandatory = (typedFlag want ts f).isMandatory := by
    rw [hfinal.isMandatory, typedFlag]
    split <;> rfl
  obtain ⟨name, val, mand, mark⟩ := f'
  exact congr (congr (congr (congrArg Flag.mk hname) hval) hmand) hmark

theorem Says.none_missing (h : Says lib fmt flags want ts) :
    missing (flags.map (typedFlag want ts)) = [] := by
  rw [missing, List.filter_eq_nil_iff]
  intro g hg
  obtain ⟨f, hf, rfl⟩ := List.mem_map.mp hg
  rw [typedFlag]
  split
  · rename_i hnone
    by_cases hm : f.isMandatory = true
    · rw [(h.mandatory f hf hm).resolve_right (not_not.mpr hnone)]
      simp
    · simp [hm]
  · simp

end Says

/-- **What is typed is what the flags hold.**  In any order of the options, with either
spelling of each, `flag_parse` returns `true`, the flags that were typed hold the wanted
values, and the others keep theirs. -/
theorem typed_settings {lib : FloatLib F D} {fmt : HelpFormat F D} {c : FlagCtx F D}
    (hnames : (c.flags.map (·.name)).Nodup) (want : Str → FlagVal F D) {ts : List Typed}
    (htyped : Says lib fmt c.flags want ts) (prog : Str) :
    flagParse lib c (callArgs c prog (ts.flatMap Typed.tokens)) =
      some ({ c with flags := c.flags.map (typedFlag want ts),
                     programName := some (c.programName.getD prog),
                     restArgc := 0, restArgv := [] }, [], true) := by
  have hflags := started_flags c (callArgs c prog [])
  have hhelp : ∀ o ∈ ts.map Typed.opt, ¬ IsHelp o.name := by
    intro o ho
    obtain ⟨t, ht, rfl⟩ := List.mem_map.mp ho
    exact (htyped.spell t ht).notHelp
  obtain ⟨flags, hfinal, hrun⟩ := @runOpts_accepted _ _ lib [] (started c (callArgs c prog [])) _
    (by rw [hflags]; exact hnames) hhelp (by rw [hflags]; exact htyped.accepts)
  have hmap : flags = c.flags.map (typedFlag want ts) := by
    rw [hflags] at hfinal
    have hsame : List.Forall₂ (· = ·) (c.flags.map (typedFlag want ts)) flags :=
      List.forall₂_map_left_iff.mpr <|
        ((List.forall₂_and_left c.flags flags).mpr ⟨fun f hf => hf, hfinal⟩).imp
          fun _ _ h => (htyped.final h.1 h.2).symm
    rw [List.forall₂_eq_eq_eq] at hsame
    exact hsame.symm
  rw [flagParse_callArgs, started_callArgs c prog _ [], loop,
    parseLoop_eq lib _ (by rw [hflags]; exact hnames) (Nat.le_refl _), readArgs_typed htyped.spell,
    hrun, runOpts, if_pos rfl, parseEnd_eq]
  dsimp only
  rw [hmap, htyped.none_missing, started, callArgs]
  cases hprog : c.programName with
  | none => rfl
  | some name => simp [hprog]

/-! `prog -I=a -n 7 -I -n`, with `v` not typed. -/

def noFormat : HelpFormat Unit Unit where
  showFloat := fun _ => []
  showDouble := fun _ => []

def threeWant (name : Str) : FlagVal Unit Unit :=
  if name = "n".toList then .uint8 7 else .list ["a".toList, "-n".toList]

def threeTyped : List Typed :=
  [⟨"I".toList, "a".toList, true⟩, ⟨"n".toList, "7".toList, false⟩,
    ⟨"I".toList, "-n".toList, false⟩]

theorem typed_settings_three :
    flagParse noFloat threeFlags
        (callArgs threeFlags "prog".toList (threeTyped.flatMap Typed.tokens)) =
      some ({ threeFlags with flags := threeFlags.flags.map (typedFlag threeWant threeTyped),
                              programName := some "prog".toList }, [], true) := by
  have htyped : Says noFloat noFormat threeFlags.flags threeWant threeTyped := by
    refine ⟨fun t ht => ?_, by decide, fun f hf => ?_, by decide⟩
    · simp only [threeTyped, List.mem_cons, List.not_mem_nil, or_false] at ht
      rcases ht with rfl | rfl | rfl <;> exact ⟨by decide, by decide, by decide, by decide⟩
    · simp only [threeFlags, List.mem_cons, List.not_mem_nil, or_false] at hf
      rcases hf with rfl | rfl | rfl
      · exact Or.inl rfl
      · exact Or.inr ⟨rfl, rfl, trivial, nofun⟩
      · exact Or.inr ⟨rfl, rfl, trivial, fun items h => by cases h; exact ⟨rfl, by decide⟩⟩
  exact typed_settings (by decide) threeWant htyped "prog".toList

/-- Every value in turn, as `FlagPrintHelp` shows it. -/
def typeAll (fmt : HelpFormat F D) (flags : List (Flag F D)) (want : Str → FlagVal F D)
    (joined : Bool) : List Typed :=
  flags.flatMap fun f => ((want f.name).texts fmt).map (⟨f.name, ·, joined⟩)

theorem textsFor_same (name : Str) (texts : List Str) (joined : Bool) :
    textsFor name (texts.map (⟨name, ·, joined⟩)) = texts := by
  induction texts with
  | nil => rfl
  | cons text texts ih =>
    rw [textsFor, List.map_cons, List.filter_cons_of_pos (by simp), List.map_cons, ← textsFor, ih]

theorem textsFor_other {name : Str} {ts : List Typed} (h : ∀ t ∈ ts, t.name ≠ name) :
    textsFor name ts = [] := by
  have hnone : ts.filter (·.name = name) = [] :=
    List.filter_eq_nil_iff.mpr fun t ht => by simpa using h t ht
  rw [textsFor, hnone, List.map_nil]

theorem textsFor_append (name : Str) (ts ts' : List Typed) :
    textsFor name (ts ++ ts') = textsFor name ts ++ textsFor name ts' := by
  rw [textsFor, List.filter_append, List.map_append]
  rfl

theorem name_of_mem_typeAll {fmt : HelpFormat F D} {flags : List (Flag F D)}
    {want : Str → FlagVal F D} {joined : Bool} {t : Typed} (ht : t ∈ typeAll fmt flags want joined) :
    ∃ f ∈ flags, f.name = t.name := by
  obtain ⟨f, hf, ht⟩ := List.mem_flatMap.mp ht
  obtain ⟨text, -, rfl⟩ := List.mem_map.mp ht
  exact ⟨f, hf, rfl⟩

theorem textsFor_typeAll (fmt : HelpFormat F D) {flags : List (Flag F D)}
    (hnames : (flags.map (·.name)).Nodup) (want : Str → FlagVal F D) (joined : Bool) {f : Flag F D}
    (hf : f ∈ flags) : textsFor f.name (typeAll fmt flags want joined) = (want f.name).texts fmt := by
  induction flags with
  | nil => cases hf
  | cons g fs ih =>
    rw [List.map_cons, List.nodup_cons] at hnames
    rw [typeAll, List.flatMap_cons, ← typeAll, textsFor_append]
    rcases List.mem_cons.mp hf with rfl | hf
    · have hnone : textsFor f.name (typeAll fmt fs want joined) = [] := textsFor_other fun t ht heq => by
        obtain ⟨f', hf', hname⟩ := name_of_mem_typeAll ht
        exact hnames.1 (List.mem_map.mpr ⟨f', hf', hname.trans heq⟩)
      rw [textsFor_same, hnone, List.append_nil]
    · have hne : g.name ≠ f.name := fun heq =>
        hnames.1 (heq ▸ List.mem_map.mpr ⟨f, hf, rfl⟩)
      have hnone : textsFor f.name (((want g.name).texts fmt).map (⟨g.name, ·, joined⟩)) = [] := by
        refine textsFor_other fun t ht => ?_
        obtain ⟨text, -, rfl⟩ := List.mem_map.mp ht
        exact hne
      rw [hnone, List.nil_append, ih hnames.2 hf]

/-- **Every setting can be typed**, if the parser can read the names. -/
theorem says_typeAll {lib : FloatLib F D} {fmt : HelpFormat F D} {flags : List (Flag F D)}
    (hnames : (flags.map (·.name)).Nodup) (hspell : ∀ f ∈ flags, Spellable f.name)
    {want : Str → FlagVal F D} (hset : ∀ f ∈ flags, Settable lib fmt f.val (want f.name))
    (hmand : ∀ f ∈ flags, f.isMandatory = true → want f.name ≠ .list []) (joined : Bool) :
    Says lib fmt flags want (typeAll fmt flags want joined) where
  spell := by
    intro t ht
    obtain ⟨f, hf, hname⟩ := name_of_mem_typeAll ht
    exact hname ▸ hspell f hf
  known := fun t ht => name_of_mem_typeAll ht
  said := fun f hf => Or.inr ⟨textsFor_typeAll fmt hnames want joined hf, hset f hf⟩
  mandatory := by
    intro f hf hm
    rw [textsFor_typeAll fmt hnames want joined hf]
    refine Or.inr fun hnil => hmand f hf hm ?_
    cases hwant : want f.name with
    | list items =>
      rw [hwant] at hnil
      exact congrArg FlagVal.list hnil
    | _ =>
      rw [hwant] at hnil
      cases hnil

end DataCommons.Flags
