import Mathlib.Data.List.Pairwise
import DataCommons.Lib.Assignments
import DataCommons.Params.Binary
import DataCommons.Params.Lists

/-!
# What a parameter file means

A file of written lines and comments, in any order, is a sequence of assignments:
`param_parse_txt` leaves every parameter with the value of the last line that has its
name, and the others as they were.

* `Written.givesBack`: the line of a parameter of any type gives its value back;
* `paramLoop_setting`: one line is one assignment;
* `parse_entries`: the whole file is the sequence of its assignments;
* `restores_entries`: a saved context comes back from its lines in any order, with
  comments between them.
-/

namespace DataCommons.Params

open CString Assignments

variable {F : Type}

/-- The values that are printed so that the parser reads them back. -/
def Var.Printed (env : Env F) : Var F → Prop
  | .bool _ => True
  | .uint _ => True
  | .int _ => True
  | .float x => env.showFloat x ≠ [] ∧ (∀ c ∈ env.showFloat x, c ≠ ' ' ∧ c ≠ '\n') ∧
      (env.strtof (env.showFloat x)).rest = [] ∧ (env.strtof (env.showFloat x)).value = x
  | .str s => '"' ∉ s ∧ '\n' ∉ s
  | .list l => l.Numeric ∧ 1 ≤ l.count ∧ l.count ≤ listCap ∧ l.Unsigned
  | .binary bytes => bytes = [] ∨ hexVal env.tempByte = none

/-- The parameters whose line can be read back. -/
structure Written (env : Env F) (p : Param F) : Prop where
  name_ne : p.name ≠ []
  name_chars : ∀ c ∈ p.name, c ≠ '=' ∧ c ≠ ' ' ∧ c ≠ '\n'
  name_head : p.name.head? ≠ some '#'
  desc : '\n' ∉ p.desc
  value : p.var.Printed env
  short : (saveLine env p).length ≤ 255

/-! ## One value -/

section Value

variable {env : Env F} {p q : Param F}

theorem Written.readable (hp : Written env p) : Readable p.name := ⟨hp.name_chars, hp.name_head⟩

/-- The types that the results on saving whole contexts cover already. -/
theorem Written.saveable (hp : Written env p)
    (hv : match p.var with | .float _ => False | .list _ => False | .binary _ => False | _ => True) :
    Saveable env p := by
  refine ⟨hp.name_ne, hp.name_chars, hp.name_head, hp.desc, ?_, hp.short⟩
  have hvalue := hp.value
  cases hpv : p.var with
  | str s =>
    rw [hpv] at hvalue
    exact hvalue
  | float _ => rw [hpv] at hv; exact hv
  | list _ => rw [hpv] at hv; exact hv
  | binary _ => rw [hpv] at hv; exact hv
  | _ => trivial

/-- What stands between `=` and the end of the line gives the parameter its value. -/
def GivesBack (env : Env F) (q p : Param F) : Prop :=
  ∃ text e, valueOf q.var ((saveValue env p ++ ['\n']).dropWhile (· = ' ')) = .value text e ∧
    assignVar env q.var text = (p.var, .done, true)

theorem Saveable.givesBack (hq : Registered q p) (hp : Saveable env p) : GivesBack env q p := by
  obtain ⟨e, hv⟩ := valueOf_saveValue hq hp
  exact ⟨_, e, hv, assignVar_savedText hq hp⟩

theorem givesBack_float {x : F} (hv : p.var = .float x) (hx : (Var.float x).Printed env)
    (hq : Registered q p) : GivesBack env q p := by
  obtain ⟨hne, hchars, hrest, hval⟩ := hx
  have hqt := hq.type
  cases hqv : q.var with
  | float y =>
    have hblank : ' ' ∉ env.showFloat x := fun h => (hchars _ h).1 rfl
    have hline : saveValue env p ++ ['\n']
        = env.showFloat x ++ ' ' :: ('#' :: p.desc ++ ['\n']) := by
      rw [saveValue, hv]
      simp only [List.append_assoc]
      rfl
    refine ⟨env.showFloat x, ' ' :: ('#' :: p.desc ++ ['\n']), ?_, ?_⟩
    · rw [hline, dropWhile_blank hne hblank, hqv]
      simp only [valueOf, cutAt_append hblank]
    · simp only [hqv, assignVar, hrest, hval, hv, ne_eq, not_true_eq_false, if_false]
  | _ =>
    rw [hqv, hv] at hqt
    cases hqt

theorem givesBack_list {l : ListVar F} (hv : p.var = .list l) (hl : (Var.list l).Printed env)
    (hq : Registered q p) : GivesBack env q p := by
  obtain ⟨hnum, hpos, hcap, hu⟩ := hl
  have hqt := hq.type
  cases hqv : q.var with
  | list l' =>
    rw [hqv, hv] at hqt
    have hsave : saveValue env p = '[' :: saveList env l := by rw [saveValue, hv]
    refine ⟨_, _, by rw [hsave, hqv]; exact valueOf_list hnum hpos, ?_⟩
    simp only [hqv, assignVar, parseListParam_join, hv,
      tokenLoop_ok hnum (VarType.list.inj hqt) hpos hcap hu]
  | _ =>
    rw [hqv, hv] at hqt
    cases hqt

theorem givesBack_binary {bytes : List UInt8} (hv : p.var = .binary bytes)
    (ht : (Var.binary bytes).Printed env) (hlen : (saveLine env p).length ≤ 255)
    (hq : Registered q p) : GivesBack env q p := by
  have hqt := hq.type
  cases hqv : q.var with
  | binary old =>
    rw [hqv, hv] at hqt
    have hshort : ¬ (bytes.flatMap showByte).length / 2 > maxBin := by
      rw [saveLine_binary_length env hv] at hlen
      rw [flatMap_showByte_length, maxBin]
      omega
    have hsave : saveValue env p = "0x".toList ++ bytes.flatMap showByte := by rw [saveValue, hv]
    refine ⟨_, _, by rw [hsave, hqv]; exact valueOf_binary, ?_⟩
    rw [hqv, assignVar, binDigits_saved, if_neg hshort,
      binLoop_hex env (VarType.binary.inj hqt) ht, hv]
    rfl
  | _ =>
    rw [hqv, hv] at hqt
    cases hqt

/-- **The line of a parameter gives its value back**, of whatever type it is. -/
theorem Written.givesBack (hp : Written env p) (hq : Registered q p) : GivesBack env q p := by
  have hvalue := hp.value
  cases hv : p.var with
  | float x => exact givesBack_float hv (hv ▸ hvalue) hq
  | list l => exact givesBack_list hv (hv ▸ hvalue) hq
  | binary bytes => exact givesBack_binary hv (hv ▸ hvalue) hp.short hq
  | _ => exact (hp.saveable (by simp only [hv])).givesBack hq

theorem Written.newline_not_mem (hp : Written env p) : '\n' ∉ saveValue env p := by
  have hvalue := hp.value
  cases hv : p.var with
  | float x =>
    rw [hv] at hvalue
    have hx : '\n' ∉ env.showFloat x := fun h => (hvalue.2.1 _ h).2 rfl
    simpa [saveValue, hv, hx] using hp.desc
  | list l =>
    rw [hv] at hvalue
    rw [saveValue, hv]
    exact fun h => (listText_chars hvalue.1 h).2 rfl
  | binary bytes =>
    rw [saveValue, hv]
    exact fun h => (binaryText_chars h).2.1 rfl
  | _ => exact newline_not_mem_saveValue (hp.saveable (by simp only [hv]))

theorem Written.not_refused (hp : Written env p) : refusesSave p = false := by
  have hvalue := hp.value
  rw [refusesSave]
  split
  · next heq =>
    rw [heq] at hvalue
    exact hvalue.1.elim
  · rfl

end Value

/-! ## One line -/

/-- What someone writes into a file. -/
inductive Entry (F : Type) where
  | comment (text : Str)
  | setting (p : Param F)

namespace Entry

def body (env : Env F) : Entry F → Str
  | comment text => text
  | setting p => p.name ++ '=' :: saveValue env p

def line (env : Env F) (e : Entry F) : Str := e.body env ++ ['\n']

/-- The name and the value that are set. -/
def assignment? : Entry F → Option (Str × Var F)
  | comment _ => none
  | setting p => some (p.name, p.var)

def setting? : Entry F → Option (Param F)
  | comment _ => none
  | setting p => some p

def IsComment (text : Str) : Prop :=
  '\n' ∉ text ∧ text.length < lineSize - 1 ∧
    (text = [] ∨ text.head? = some '#' ∨ text.head? = some ' ')

/-- The entry can stand in a file for these parameters: a comment is skipped; a
setting is written for the type of its parameter and has no name of another
one in it. -/
def Fits (env : Env F) (ps : List (Param F)) : Entry F → Prop
  | comment text => IsComment text
  | setting p => Written env p ∧
      ∀ q ∈ ps, (q.name = p.name → q.var.type = p.var.type) ∧
        (q.name ≠ p.name → ¬ Mentions q.name (saveLine env p))

end Entry

def give (v : Var F) (q : Param F) : Param F := { q with var := v, hasChanged := true }

section Line

variable {env : Env F} {p q : Param F}

theorem ne_nil_of_not_mentions (h : ¬ Mentions q.name (saveLine env p)) : q.name ≠ [] := by
  intro hnil
  refine h ⟨'=', Or.inl rfl, p.name, saveValue env p ++ ['\n'], ?_⟩
  rw [hnil, saveLine_eq, List.nil_append, List.append_assoc, List.singleton_append]

theorem Written.misses (hp : Written env p) (h : ¬ Mentions q.name (saveLine env p)) :
    Misses (saveLine env p) q := by
  intro l hl
  apply scanParam_eq_miss (ne_nil_of_not_mentions h)
  · exact lt_of_le_of_lt (hl.length_le.trans hp.short) (by decide)
  · rintro ⟨c, hc, hin⟩
    exact h ⟨c, hc, hin.trans hl.isInfix⟩

/-- A setting finds its parameter and gives it the value. -/
theorem Written.scan (hp : Written env p) (hname : q.name = p.name)
    (htype : q.var.type = p.var.type) :
    ∃ text l, scanParam q (saveLine env p) = .value text l ∧
      assign env q text = (give p.var q, .done) := by
  -- whether it is mandatory plays no part
  have hp' : Written env { p with isMandatory := q.isMandatory } :=
    ⟨hp.name_ne, hp.name_chars, hp.name_head, hp.desc, hp.value, hp.short⟩
  obtain ⟨text, e, hval, hassign⟩ := hp'.givesBack ⟨hname, rfl, htype⟩
  have hlen : (q.name ++ '=' :: (saveValue env p ++ ['\n'])).length < nameSize := by
    rw [hname, ← saveLine_eq]
    exact lt_of_le_of_lt hp.short (by decide)
  have hscan := scanParam_line (Readable.unsplit (hname ▸ hp.readable)) hlen
  rw [show valueOf q.var ((saveValue env p ++ ['\n']).dropWhile (· = ' ')) = .value text e from hval]
    at hscan
  rw [saveLine_eq, ← hname]
  refine ⟨text, _, hscan, ?_⟩
  simp only [assign, hassign, Bool.or_true, give]

/-- **One setting is one assignment.** -/
theorem paramLoop_setting {ps : List (Param F)} (hnames : (ps.map Param.name).Nodup)
    (hfits : (Entry.setting p).Fits env ps) :
    paramLoop env ps (saveLine env p)
      = (ps.map fun q => Assignments.assign Param.name give q (p.name, p.var),
          decide (p.name ∈ ps.map Param.name), .done) := by
  obtain ⟨hp, hothers⟩ := hfits
  induction ps with
  | nil => rfl
  | cons q ps ih =>
    have hq := hothers q List.mem_cons_self
    have hps := fun r hr => hothers r (List.mem_cons_of_mem q hr)
    rw [List.map_cons, List.nodup_cons] at hnames
    rw [paramLoop]
    by_cases hname : q.name = p.name
    · obtain ⟨text, l, hscan, hassign⟩ := hp.scan hname (hq.1 hname)
      -- no other parameter has the name
      have hne : ∀ r ∈ ps, r.name ≠ p.name := fun r hr hr' =>
        hnames.1 (hname.trans hr'.symm ▸ List.mem_map_of_mem hr)
      have hmiss : ∀ r ∈ ps, Misses (saveLine env p) r := fun r hr =>
        hp.misses ((hps r hr).2 (hne r hr))
      have hrest : ps.map (fun r => Assignments.assign Param.name give r (p.name, p.var)) = ps := by
        conv_rhs => rw [← List.map_id ps]
        exact List.map_congr_left fun r hr => if_neg (Ne.symm (hne r hr))
      have hhead : Assignments.assign Param.name give q (p.name, p.var) = give p.var q :=
        if_pos hname.symm
      simp only [hscan, hassign, paramLoop_misses env hmiss (scanParam_cut hscan), List.map_cons,
        hhead, hrest, List.mem_cons, hname, true_or, decide_true]
    · simp only [hp.misses (hq.2 hname) _ List.prefix_rfl, ih hnames.2 hps, List.map_cons, List.mem_cons,
        Ne.symm hname, false_or, Assignments.assign, if_false]

end Line

/-! ## The file -/

section File

variable {env : Env F} {ps : List (Param F)} {es : List (Entry F)}

/-- The names and values that a file sets, line by line. -/
def assignments (es : List (Entry F)) : List (Str × Var F) := es.filterMap Entry.assignment?

/-- The parameters after a file: each has the last value that is set for its name. -/
def settled (es : List (Entry F)) (ps : List (Param F)) : List (Param F) :=
  ps.map fun q => settle give q (lastValue (assignments es) q.name)

theorem Entry.Fits.assign {e : Entry F} (h : e.Fits env ps) (hp : (Entry.setting p).Fits env ps) :
    e.Fits env (ps.map fun q => Assignments.assign Param.name give q (p.name, p.var)) := by
  cases e with
  | comment text => exact h
  | setting r =>
    refine ⟨h.1, fun q' hq' => ?_⟩
    obtain ⟨q, hq, rfl⟩ := List.mem_map.mp hq'
    by_cases hname : p.name = q.name
    · rw [Assignments.assign, if_pos hname]
      have htype := (hp.2 q hq).1 hname.symm
      exact ⟨fun hr => htype.symm.trans ((h.2 q hq).1 hr), (h.2 q hq).2⟩
    · rw [Assignments.assign, if_neg hname]
      exact h.2 q hq

theorem map_assign_name (e : Str × Var F) (ps : List (Param F)) :
    (ps.map fun q => Assignments.assign Param.name give q e).map Param.name
      = ps.map Param.name := by
  rw [List.map_map]
  refine List.map_congr_left fun q _ => ?_
  dsimp only [Function.comp_apply, Assignments.assign]
  split <;> rfl

theorem skipped_entry {e : Entry F} (h : e.Fits env ps) :
    skipped (e.line env) = match e with | .comment _ => true | .setting _ => false := by
  cases e with
  | comment text =>
    obtain ⟨-, -, rfl | hhead | hhead⟩ := h
    · rfl
    · simp [skipped, Entry.line, Entry.body, List.head?_append, hhead]
    · simp [skipped, Entry.line, Entry.body, List.head?_append, hhead]
  | setting p =>
    have hs := skipped_readable h.1.readable (saveValue env p ++ ['\n'])
    rw [← saveLine_eq] at hs
    exact hs

/-- A setting in front of a file is made before the others. -/
theorem settled_cons (p : Param F) (es : List (Entry F)) (ps : List (Param F)) :
    settled (.setting p :: es) ps
      = settled es (ps.map fun q => Assignments.assign Param.name give q (p.name, p.var)) := by
  have hfold : ∀ (es : List (Entry F)) ps, settled es ps = (assignments es).foldl
      (fun ps e => ps.map fun q => Assignments.assign Param.name give q e) ps := fun es ps =>
    (@foldl_map_assign _ _ _ _ Param.name give (fun _ _ => rfl) (fun _ _ _ => rfl) _ ps).symm
  rw [hfold, hfold]
  rfl

/-- **Line by line the file makes its assignments.** -/
theorem lineLoop_entries (hnames : (ps.map Param.name).Nodup) (hfits : ∀ e ∈ es, e.Fits env ps) :
    lineLoop env ps (es.map (Entry.line env))
      = (settled es ps, (assignments es).any fun e => e.1 ∈ ps.map Param.name, .done) := by
  induction es generalizing ps with
  | nil => simp [lineLoop, settled, assignments, lastValue, settle]
  | cons e es ih =>
    have he := hfits e List.mem_cons_self
    have hes : ∀ d ∈ es, d.Fits env ps := fun d hd => hfits d (List.mem_cons_of_mem e hd)
    rw [List.map_cons, lineLoop, skipped_entry he]
    cases e with
    | comment text => exact ih hnames hes
    | setting p =>
      have hrest := ih (map_assign_name (p.name, p.var) ps ▸ hnames)
        fun d hd => (hes d hd).assign he
      rw [map_assign_name] at hrest
      rw [if_neg Bool.false_ne_true, show Entry.line env (.setting p) = saveLine env p from rfl,
        paramLoop_setting hnames he]
      simp only [hrest, settled_cons]
      rfl

theorem fileLines_entries (hfits : ∀ e ∈ es, e.Fits env ps) :
    fileLines (es.flatMap (Entry.line env)) = es.map (Entry.line env) := by
  have hlines := @isLines_flatten lineSize (es.map (Entry.body env)) (by
    intro body hbody
    obtain ⟨e, he, rfl⟩ := List.mem_map.mp hbody
    have hfit := hfits e he
    cases e with
    | comment text => exact ⟨hfit.1, Nat.lt_sub_iff_add_lt.mp hfit.2.1⟩
    | setting p =>
      obtain ⟨hp, -⟩ := hfit
      have hlen := hp.short
      rw [saveLine, List.length_append] at hlen
      refine ⟨fun hm => ?_, by simp only [Entry.body, lineSize] at hlen ⊢; omega⟩
      rcases List.mem_append.mp hm with hm | hm
      · exact (hp.name_chars _ hm).2.2 rfl
      · exact hp.newline_not_mem ((List.mem_cons.mp hm).resolve_left (by decide)))
  rw [List.map_map, ← List.flatMap_def] at hlines
  rw [fileLines]
  exact fgetsLines_of_isLines hlines

end File

/-- **What a parameter file means.**  After `param_parse_txt` on written lines and
comments every parameter has the last value that the file sets for its name; the call
fails exactly if the file sets none of them or a mandatory one is still unmarked. -/
theorem parse_entries {env : Env F} {c : ParamCtx F} {es : List (Entry F)} {filename : Str}
    (hnames : (c.params.map Param.name).Nodup) (hfits : ∀ e ∈ es, e.Fits env c.params)
    (htxt : (strstr filename ".txt".toList).isSome) :
    paramParseTxt env c filename (some (es.flatMap (Entry.line env))) =
      if ∀ e ∈ assignments es, e.1 ∉ c.params.map Param.name then
        some (⟨settled es c.params, .unknown⟩, false)
      else if ∃ q ∈ settled es c.params, q.isMandatory ∧ ¬ q.hasChanged then
        some (⟨settled es c.params, .noValue⟩, false)
      else some (⟨settled es c.params, c.paramError⟩, true) := by
  rw [paramParseTxt_file htxt, fileLines_entries hfits, lineLoop_entries hnames hfits]
  dsimp only
  congr 1
  · simp
  · congr 1
    simp

theorem written_of_all {env : Env F} {p : Param F} (hne : p.name ≠ [])
    (hname : (p.name.all fun c => c ≠ '=' ∧ c ≠ ' ' ∧ c ≠ '\n') = true)
    (hhead : p.name.head? ≠ some '#') (hdesc : '\n' ∉ p.desc) (hvalue : p.var.Printed env)
    (hshort : (saveLine env p).length ≤ 255) : Written env p :=
  ⟨hne, (readable_of_all hname hhead).chars, hhead, hdesc, hvalue, hshort⟩

def anInt (i : Int32) : Param Unit := ⟨"PINT".toList, "an int".toList, true, false, .int i⟩

def aList (items : List Int32) : Param Unit :=
  ⟨"PLIST".toList, "a list".toList, true, false, .list (.int items)⟩

theorem written_anInt : Written noFloats (anInt 1) ∧ Written noFloats (anInt (-3)) := by
  constructor <;>
    exact written_of_all (by decide) (by decide) (by decide) (by decide) trivial (by decide +kernel)

theorem written_aList : Written noFloats (aList [5, -6]) :=
  written_of_all (by decide) (by decide) (by decide) (by decide)
    ⟨trivial, by decide, by decide, trivial⟩ (by decide +kernel)

theorem parse_entries_four :
    (paramParseTxt noFloats ⟨[anInt 7, aList []], .noError⟩ "params.txt".toList
      (some ([.setting (anInt 1), .comment "# by hand".toList, .setting (aList [5, -6]),
        .setting (anInt (-3))].flatMap (Entry.line noFloats)))).map
        (fun r => (r.1.params.map Param.var, r.2))
      = some ([.int (-3), .list (.int [5, -6])], true) := by
  rw [parse_entries (by decide) ?_ (by decide), if_neg (by decide +kernel),
    if_neg (by decide +kernel)]
  · rfl
  · have hint : ∀ i, Written noFloats (anInt i) →
        ¬ Mentions "PLIST".toList (saveLine noFloats (anInt i)) →
        (Entry.setting (anInt i)).Fits noFloats [anInt 7, aList []] := fun i hi hl => by
      refine ⟨hi, List.forall_mem_cons.mpr ⟨⟨fun _ => rfl, fun h => absurd rfl h⟩, ?_⟩⟩
      rw [List.forall_mem_singleton]
      have hne : "PLIST".toList ≠ "PINT".toList := by decide
      exact ⟨fun h => absurd h hne, fun _ => hl⟩
    have hlist : (Entry.setting (aList [5, -6])).Fits noFloats [anInt 7, aList []] := by
      refine ⟨written_aList, List.forall_mem_cons.mpr ⟨⟨?_, fun _ => ?_⟩, ?_⟩⟩
      · exact fun h => absurd h (by decide)
      · decide +kernel
      · rw [List.forall_mem_singleton]
        exact ⟨fun _ => rfl, fun h => absurd rfl h⟩
    simp only [List.forall_mem_cons, List.not_mem_nil, false_imp_iff, implies_true, and_true]
    exact ⟨hint 1 written_anInt.1 (by decide +kernel), ⟨by decide, by decide, Or.inr (Or.inl rfl)⟩,
      hlist, hint (-3) written_anInt.2 (by decide +kernel)⟩

/-! ## A saved context -/

section Saved

variable {env : Env F} {ps qs : List (Param F)} {es : List (Entry F)}

theorem mentions_saveLine (env : Env F) (p : Param F) : Mentions p.name (saveLine env p) := by
  refine ⟨'=', Or.inl rfl, List.IsPrefix.isInfix ⟨saveValue env p ++ ['\n'], ?_⟩⟩
  rw [saveLine_eq, List.append_assoc, List.singleton_append]

/-- No line of one parameter mentions another one. -/
def Apart (env : Env F) (p q : Param F) : Prop :=
  ¬ Mentions q.name (saveLine env p) ∧ ¬ Mentions p.name (saveLine env q)

instance (env : Env F) : Std.Symm (Apart env) := ⟨fun _ _ h => ⟨h.2, h.1⟩⟩

theorem names_nodup (h : ps.Pairwise (Apart env)) : (ps.map Param.name).Nodup := by
  rw [List.Nodup, List.pairwise_map]
  refine h.imp fun {p q} hpq hname => hpq.1 ?_
  rw [← hname]
  exact mentions_saveLine env p

theorem registered_names (h : List.Forall₂ Registered qs ps) :
    qs.map Param.name = ps.map Param.name := by
  induction h with
  | nil => rfl
  | cons hq _ ih => rw [List.map_cons, List.map_cons, hq.name, ih]

theorem assignments_eq (es : List (Entry F)) :
    assignments es = (es.filterMap Entry.setting?).map fun p => (p.name, p.var) := by
  rw [assignments, List.map_filterMap]
  refine List.filterMap_congr fun e _ => ?_
  cases e <;> rfl

/-- The lines of a context fit it in every state. -/
theorem setting_fits (hwritten : ∀ p ∈ ps, Written env p) (hapart : ps.Pairwise (Apart env))
    (hreg : List.Forall₂ Registered qs ps) {p : Param F} (hp : p ∈ ps) :
    (Entry.setting p).Fits env qs := by
  refine ⟨hwritten p hp, fun q hq => ?_⟩
  obtain ⟨r, hr, hqr⟩ := exists_registered hreg hq
  rw [hqr.name, hqr.type]
  by_cases hrp : r = p
  · rw [hrp]
    exact ⟨fun _ => rfl, fun hne => absurd rfl hne⟩
  · have hne : Apart env r p := hapart.forall hr hp hrp
    refine ⟨fun hname => absurd ?_ hne.2, fun _ => hne.2⟩
    rw [hname]
    exact mentions_saveLine env p

/-- The values that a file with the lines of the context leaves. -/
theorem settled_saved (hnames : (ps.map Param.name).Nodup)
    (hes : (es.filterMap Entry.setting?).Perm ps) (hreg : List.Forall₂ Registered qs ps) :
    settled es qs = List.zipWith restore qs ps := by
  have hkeys : ((ps.map fun p => (p.name, p.var)).map Prod.fst).Nodup := by
    rwa [List.map_map]
  have hlast : ∀ p ∈ ps, lastValue (assignments es) p.name = some p.var := fun p hp => by
    have hperm : (assignments es).Perm (ps.map fun p => (p.name, p.var)) :=
      assignments_eq es ▸ hes.map _
    rw [lastValue_perm hperm ((hperm.map Prod.fst).nodup_iff.mpr hkeys)]
    exact lastValue_of_mem hkeys (List.mem_map_of_mem hp)
  clear hkeys hnames hes
  rw [settled]
  induction hreg with
  | nil => rfl
  | cons hq _ ih =>
    rw [List.map_cons, List.zipWith_cons_cons, ih fun p hp => hlast p (List.mem_cons_of_mem _ hp),
      hq.name, hlast _ List.mem_cons_self]
    rfl

theorem saveLoop_written (hwritten : ∀ p ∈ ps, Written env p) :
    saveLoop env ps = ((ps.map Entry.setting).flatMap (Entry.line env), true) := by
  induction ps with
  | nil => rfl
  | cons p ps ih =>
    have hp := (hwritten p List.mem_cons_self).not_refused
    have hps := ih fun q hq => hwritten q (List.mem_cons_of_mem p hq)
    simp only [saveLoop, hp, Bool.false_eq_true, if_false, hps]
    rfl

end Saved

/-- **A saved context comes back** from the lines that `param_save_txt` wrote, in any
order and with comments between them, whatever the variables are by then. -/
theorem restores_entries {env : Env F} {c c' : ParamCtx F} {es : List (Entry F)} {filename : Str}
    (hne : c.params ≠ []) (hwritten : ∀ p ∈ c.params, Written env p)
    (hapart : c.params.Pairwise (Apart env)) (hes : (es.filterMap Entry.setting?).Perm c.params)
    (hcomments : ∀ text, Entry.comment text ∈ es → Entry.IsComment text)
    (hreg : List.Forall₂ Registered c'.params c.params)
    (htxt : (strstr filename ".txt".toList).isSome) :
    paramSaveTxt env c true
        = some (some ((c.params.map Entry.setting).flatMap (Entry.line env)), true) ∧
      ∃ c₂, paramParseTxt env c' filename (some (es.flatMap (Entry.line env))) = some (c₂, true) ∧
        c₂.params.map Param.var = c.params.map Param.var := by
  have hnames := names_nodup hapart
  constructor
  · simp only [paramSaveTxt, List.isEmpty_eq_false_iff.mpr hne, Bool.false_eq_true, if_false,
      Bool.not_true, saveLoop_written hwritten]
  · have hfits : ∀ e ∈ es, e.Fits env c'.params := by
      intro e he
      cases e with
      | comment text => exact hcomments text he
      | setting p =>
        have hp : p ∈ es.filterMap Entry.setting? := List.mem_filterMap.mpr ⟨_, he, rfl⟩
        exact setting_fits hwritten hapart hreg (hes.mem_iff.mp hp)
    have hset := settled_saved hnames hes hreg
    have hparse := parse_entries (registered_names hreg ▸ hnames) hfits htxt
    rw [hset, if_neg, if_neg] at hparse
    · exact ⟨_, hparse, zipWith_restore_var hreg⟩
    · simpa using zipWith_restore_changed c'.params c.params
    · -- the context has a first parameter, and the file sets it
      obtain ⟨p, hp⟩ := List.exists_mem_of_ne_nil _ hne
      intro hnone
      refine hnone (p.name, p.var) ?_ (registered_names hreg ▸ List.mem_map_of_mem hp)
      rw [assignments_eq]
      exact List.mem_map_of_mem (hes.mem_iff.mpr hp)

/-- An integer and a list come back from the file with its lines exchanged and a
comment in front. -/
theorem restores_entries_two :
    paramSaveTxt noFloats ⟨[anInt (-3), aList [5, -6]], .noError⟩ true
        = some (some (([anInt (-3), aList [5, -6]].map Entry.setting).flatMap
            (Entry.line noFloats)), true) ∧
      ∃ c₂, paramParseTxt noFloats ⟨[anInt 7, aList []], .noError⟩ "params.txt".toList
          (some ([Entry.comment "# by hand".toList, .setting (aList [5, -6]),
            .setting (anInt (-3))].flatMap (Entry.line noFloats))) = some (c₂, true) ∧
        c₂.params.map Param.var = [anInt (-3), aList [5, -6]].map Param.var := by
  refine restores_entries (List.cons_ne_nil _ _) ?_ ?_ (List.Perm.swap _ _ _) ?_
    (.cons ⟨rfl, rfl, rfl⟩ (.cons ⟨rfl, rfl, rfl⟩ .nil)) (by decide)
  · rw [List.forall_mem_cons, List.forall_mem_singleton]
    exact ⟨written_anInt.2, written_aList⟩
  · rw [List.pairwise_pair]
    exact ⟨by decide +kernel, by decide +kernel⟩
  · intro text h
    simp only [List.mem_cons, Entry.comment.injEq, reduceCtorEq, List.not_mem_nil, or_false] at h
    rw [h]
    exact ⟨by decide, by decide, Or.inr (Or.inl rfl)⟩

end DataCommons.Params
