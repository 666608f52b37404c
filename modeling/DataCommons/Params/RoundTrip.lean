import DataCommons.Lib.Lines
import DataCommons.Params.Scan

/-!
# Saving and reading back

* `valueOf_saveValue`, `assignVar_savedText`: a parameter takes back the value that its
  own line holds;
* `fileLines_saved`: `fgets` finds the written lines again;
* `lineLoop_saved`: the line of a parameter restores it and leaves the others;
* `save_parse_roundTrip`: `param_parse_txt` restores what `param_save_txt` wrote.
-/

namespace DataCommons.Params

open CString

variable {F : Type}

/-- The parameters that are written so that they can be read back. -/
structure Saveable (env : Env F) (p : Param F) : Prop where
  name_ne : p.name ≠ []
  name_chars : ∀ c ∈ p.name, c ≠ '=' ∧ c ≠ ' ' ∧ c ≠ '\n'
  name_head : p.name.head? ≠ some '#'
  desc : '\n' ∉ p.desc
  value :
    match p.var with
    | .bool _ => True
    | .uint _ => True
    | .int _ => True
    | .str s => '"' ∉ s ∧ '\n' ∉ s
    | _ => False
  short : (saveLine env p).length ≤ 255

/-! ## One value -/

theorem boolText_ne_nil (b : Bool) : boolText b ≠ [] := by
  cases b <;> decide

theorem space_not_mem_boolText (b : Bool) : ' ' ∉ boolText b := by
  cases b <;> decide

theorem space_not_mem_showInt (i : ℤ) : ' ' ∉ showInt i := by
  intro h
  rcases isDigit_or_sign_of_mem_showInt h with hd | hd
  · exact Bool.false_ne_true hd
  · exact absurd hd (by decide)

theorem newline_not_mem_showInt (i : ℤ) : '\n' ∉ showInt i := by
  intro h
  rcases isDigit_or_sign_of_mem_showInt h with hd | hd
  · exact Bool.false_ne_true hd
  · exact absurd hd (by decide)

theorem dropWhile_blank {text : Str} (hne : text ≠ []) (h : ' ' ∉ text) (s : Str) :
    (text ++ s).dropWhile (· = ' ') = text ++ s := by
  cases text with
  | nil => exact absurd rfl hne
  | cons c text =>
    rw [List.cons_append, List.dropWhile_cons_of_neg]
    simpa using fun e : c = ' ' => h (e ▸ List.mem_cons_self)

theorem valueOf_commented {v : Var F} (hv : v.type = .bool ∨ v.type = .uint ∨ v.type = .int)
    {text : Str} (hne : text ≠ []) (h : ' ' ∉ text) (desc : Str) :
    ∃ e, valueOf v ((text ++ " #".toList ++ desc ++ ['\n']).dropWhile (· = ' ')) = .value text e := by
  have hs : text ++ " #".toList ++ desc ++ ['\n'] = text ++ ' ' :: ('#' :: desc ++ ['\n']) := by
    simp only [List.append_assoc]
    rfl
  refine ⟨' ' :: ('#' :: desc ++ ['\n']), ?_⟩
  rw [hs, dropWhile_blank hne h]
  cases v with
  | list l => rcases hv with hv | hv | hv <;> cases hv
  | str s => rcases hv with hv | hv | hv <;> cases hv
  | _ => simp only [valueOf, cutAt_append h]

theorem toInt_toInt32 (n : UInt32) :
    UInt32.ofNat (n.toInt32.toInt % 2 ^ 64).toNat = n := by
  have hn := n.toNat_lt
  have h : n.toInt32.toInt = n.toBitVec.toInt := rfl
  rw [← UInt32.toNat_inj, UInt32.toNat_ofNat', h, BitVec.toInt_eq_toNat_cond]
  simp only [UInt32.toNat_toBitVec]
  split <;> omega

theorem natAbs_toInt32 (n : UInt32) : n.toInt32.toInt.natAbs ≤ ullongMax := by
  have hlo := n.toInt32.le_toInt
  have hhi := n.toInt32.toInt_lt
  rw [ullongMax]
  omega

/-- The text that stands for a value in its line. -/
def savedText : Var F → Str
  | .bool b => boolText b
  | .uint n => showUint n
  | .int i => showInt i.toInt
  | .str s => s
  | _ => []

/-- **The text in the line of a parameter is the text that was saved.** -/
theorem valueOf_saveValue {env : Env F} {q p : Param F} (hq : Registered q p)
    (hp : Saveable env p) :
    ∃ e, valueOf q.var ((saveValue env p ++ ['\n']).dropWhile (· = ' '))
      = .value (savedText p.var) e := by
  have ht := hq.type
  have hv := hp.value
  rw [saveValue]
  cases hpv : p.var with
  | bool b =>
    rw [hpv] at ht
    exact valueOf_commented (Or.inl ht) (boolText_ne_nil b) (space_not_mem_boolText b) p.desc
  | uint n =>
    rw [hpv] at ht
    exact valueOf_commented (Or.inr (Or.inl ht)) (showInt_ne_nil _) (space_not_mem_showInt _) p.desc
  | int i =>
    rw [hpv] at ht
    exact valueOf_commented (Or.inr (Or.inr ht)) (showInt_ne_nil _) (space_not_mem_showInt _) p.desc
  | str s =>
    rw [hpv] at ht hv
    have hs : ('"' :: s ++ "\" #".toList ++ p.desc ++ ['\n']).dropWhile (· = ' ')
        = '"' :: (s ++ '"' :: (" #".toList ++ p.desc ++ ['\n'])) := by
      simp only [List.cons_append, List.append_assoc]
      rfl
    refine ⟨'"' :: (" #".toList ++ p.desc ++ ['\n']), ?_⟩
    dsimp only
    rw [hs]
    cases hqv : q.var with
    | str _ => simp only [valueOf, savedText, cutAt_append hv.1]
    | _ =>
      rw [hqv] at ht
      cases ht
  | _ =>
    rw [hpv] at hv
    exact hv.elim

/-- **Every saved text gives the value back**, negative numbers in unsigned
parameters too. -/
theorem assignVar_savedText {env : Env F} {q p : Param F} (hq : Registered q p)
    (hp : Saveable env p) :
    assignVar env q.var (savedText p.var) = (p.var, .done, true) := by
  have ht := hq.type
  have hv := hp.value
  cases hpv : p.var with
  | bool b =>
    cases hqv : q.var with
    | bool _ => cases b <;> rfl
    | _ =>
      rw [hpv, hqv] at ht
      cases ht
  | uint n =>
    cases hqv : q.var with
    | uint _ =>
      simp only [assignVar, savedText, showUint, strtoull_showInt (natAbs_toInt32 n),
        toInt_toInt32, ne_eq, not_true_eq_false, if_false]
    | _ =>
      rw [hpv, hqv] at ht
      cases ht
  | int i =>
    cases hqv : q.var with
    | int _ =>
      have hlo : longMin ≤ i.toInt := le_trans (by decide) i.le_toInt
      have hhi : i.toInt ≤ longMax := le_trans i.toInt_lt.le (by decide)
      simp only [assignVar, savedText, atoi, strtol_showInt hlo hhi, Int32.ofInt_toInt]
    | _ =>
      rw [hpv, hqv] at ht
      cases ht
  | str s =>
    cases hqv : q.var with
    | str _ => rfl
    | _ =>
      rw [hpv, hqv] at ht
      cases ht
  | _ =>
    rw [hpv] at hv
    exact hv.elim

/-! ## One line -/

def restore (q p : Param F) : Param F := { q with var := p.var, hasChanged := true }

theorem saveLine_eq (env : Env F) (p : Param F) :
    saveLine env p = p.name ++ '=' :: (saveValue env p ++ ['\n']) := by
  rw [saveLine, List.append_assoc, List.cons_append]

/-- A name at the start of the line right before `=` is found there. -/
theorem scanParam_line {p : Param F} (hname : ∀ c ∈ p.name, c ≠ '=' ∧ c ≠ ' ') {s : Str}
    (hlen : (p.name ++ '=' :: s).length < nameSize) :
    scanParam p (p.name ++ '=' :: s)
      = match valueOf p.var (s.dropWhile (· = ' ')) with
        | .value valStart valEnd => .value valStart
            ((p.name ++ '=' :: s).take ((p.name ++ '=' :: s).length - valEnd.length))
        | .missing => .stop
        | .undefined => .undefined := by
  have hdrop : ((p.name ++ '=' :: s).dropWhile (· ≠ '=')).drop 1 = s := by
    rw [List.dropWhile_append_of_pos fun c hc => decide_eq_true (hname c hc).1,
      List.dropWhile_cons_of_neg (by simp), List.drop_succ_cons, List.drop_zero]
  rw [scanParam, strstr_at_start (List.prefix_append _ _)]
  cases hval : valueOf p.var (s.dropWhile (· = ' ')) <;>
    simp only [not_le.mpr hlen, if_false, List.mem_append, List.mem_cons, true_or, or_true,
      not_true_eq_false, nameOf_append hname, ne_eq, hdrop, hval]

theorem scanParam_saveLine {env : Env F} {q p : Param F} (hq : Registered q p)
    (hp : Saveable env p) :
    ∃ l, scanParam q (saveLine env p) = .value (savedText p.var) l := by
  obtain ⟨e, hv⟩ := valueOf_saveValue hq hp
  have hlen : (q.name ++ '=' :: (saveValue env p ++ ['\n'])).length < nameSize := by
    rw [hq.name, ← saveLine_eq]
    exact lt_of_le_of_lt hp.short (by decide)
  have hname : ∀ c ∈ q.name, c ≠ '=' ∧ c ≠ ' ' := fun c hc =>
    ⟨(hp.name_chars c (hq.name ▸ hc)).1, (hp.name_chars c (hq.name ▸ hc)).2.1⟩
  rw [saveLine_eq, ← hq.name, scanParam_line hname hlen, hv]
  exact ⟨_, rfl⟩

theorem assign_savedText {env : Env F} {q p : Param F} (hq : Registered q p)
    (hp : Saveable env p) : assign env q (savedText p.var) = (restore q p, .done) := by
  simp only [assign, assignVar_savedText hq hp, restore, Bool.or_true]

/-- Nothing of the line `line`, however it is cut, gives the parameter a value. -/
def Misses (line : Str) (q : Param F) : Prop := ∀ l, l <+: line → scanParam q l = .miss

theorem misses_saveLine {env : Env F} {r p : Param F} (hname : r.name ≠ []) (hp : Saveable env p)
    (h : ¬ Mentions r.name (saveLine env p)) : Misses (saveLine env p) r := by
  intro l hl
  apply scanParam_eq_miss hname
  · exact lt_of_le_of_lt (hl.length_le.trans hp.short) (by decide)
  · rintro ⟨c, hc, hin⟩
    exact h ⟨c, hc, hin.trans hl.isInfix⟩

theorem paramLoop_misses (env : Env F) {qs : List (Param F)} {line l : Str}
    (h : ∀ q ∈ qs, Misses line q) (hl : l <+: line) :
    paramLoop env qs l = (qs, false, .done) := by
  induction qs with
  | nil => rfl
  | cons q qs ih =>
    rw [paramLoop, h q List.mem_cons_self l hl]
    simp only [ih fun r hr => h r (List.mem_cons_of_mem q hr)]

/-- **The line of a parameter restores it and leaves the others.** -/
theorem paramLoop_saveLine {env : Env F} {before after : List (Param F)} {q p : Param F}
    (hq : Registered q p) (hp : Saveable env p)
    (hbefore : ∀ r ∈ before, Misses (saveLine env p) r)
    (hafter : ∀ r ∈ after, Misses (saveLine env p) r) :
    paramLoop env (before ++ q :: after) (saveLine env p)
      = (before ++ restore q p :: after, true, .done) := by
  induction before with
  | nil =>
    obtain ⟨l, hscan⟩ := scanParam_saveLine hq hp
    simp only [List.nil_append, paramLoop, hscan, assign_savedText hq hp,
      paramLoop_misses env hafter (scanParam_cut hscan)]
  | cons r before ih =>
    rw [List.cons_append, paramLoop, hbefore r List.mem_cons_self _ List.prefix_rfl]
    simp only [ih fun s hs => hbefore s (List.mem_cons_of_mem r hs), List.cons_append]

/-! ## The file -/

theorem saveLoop_eq {env : Env F} {ps : List (Param F)} (h : ∀ p ∈ ps, Saveable env p) :
    saveLoop env ps = (ps.flatMap (saveLine env), true) := by
  induction ps with
  | nil => rfl
  | cons p ps ih =>
    have hp : refusesSave p = false := by
      have hv := (h p List.mem_cons_self).value
      rw [refusesSave]
      split
      · next heq =>
        rw [heq] at hv
        exact hv.elim
      · rfl
    simp only [saveLoop, hp, Bool.false_eq_true, if_false, List.flatMap_cons,
      ih fun q hq => h q (List.mem_cons_of_mem p hq)]

theorem newline_not_mem_saveValue {env : Env F} {p : Param F} (hp : Saveable env p) :
    '\n' ∉ saveValue env p := by
  have hv := hp.value
  have hd := hp.desc
  cases hpv : p.var with
  | bool b => cases b <;> simpa [saveValue, hpv, boolText] using hd
  | uint n =>
    simpa [saveValue, hpv, showUint, newline_not_mem_showInt] using hd
  | int i => simpa [saveValue, hpv, newline_not_mem_showInt] using hd
  | str s =>
    rw [hpv] at hv
    simpa [saveValue, hpv, hv.2] using hd
  | _ =>
    rw [hpv] at hv
    exact hv.elim

/-- **The lines of the written file are the lines that were written.** -/
theorem fileLines_saved {env : Env F} {ps : List (Param F)} (h : ∀ p ∈ ps, Saveable env p) :
    fileLines (ps.flatMap (saveLine env)) = ps.map (saveLine env) := by
  have hlines := @isLines_flatten lineSize (ps.map fun p => p.name ++ '=' :: saveValue env p) (by
    intro body hbody
    obtain ⟨p, hp, rfl⟩ := List.mem_map.mp hbody
    have hsave := h p hp
    have hlen := hsave.short
    rw [saveLine, List.length_append] at hlen
    refine ⟨fun hm => ?_, by simp only [lineSize] at hlen ⊢; omega⟩
    rcases List.mem_append.mp hm with hm | hm
    · exact (hsave.name_chars _ hm).2.2 rfl
    · exact newline_not_mem_saveValue hsave ((List.mem_cons.mp hm).resolve_left (by decide)))
  rw [List.map_map, ← List.flatMap_def] at hlines
  rw [fileLines]
  exact fgetsLines_of_isLines hlines

theorem skipped_saveLine {env : Env F} {p : Param F} (hp : Saveable env p) :
    skipped (saveLine env p) = false := by
  obtain ⟨c, cs, hc⟩ := List.exists_cons_of_ne_nil hp.name_ne
  have hhead : (saveLine env p).head? = some c := by rw [saveLine, hc]; rfl
  have hmem := hp.name_chars c (hc ▸ List.mem_cons_self)
  have hhash : c ≠ '#' := fun e => hp.name_head (by rw [hc, e]; rfl)
  simp only [skipped, hhead, Option.some.injEq, hhash, hmem.2.1, hmem.2.2, decide_false,
    Bool.or_false]

theorem exists_registered {qs ps : List (Param F)} (h : List.Forall₂ Registered qs ps)
    {r : Param F} (hr : r ∈ qs) : ∃ s ∈ ps, Registered r s := by
  induction h with
  | nil => cases hr
  | @cons q p qs ps hq _ ih =>
    rcases List.mem_cons.mp hr with rfl | hr
    · exact ⟨p, List.mem_cons_self, hq⟩
    · obtain ⟨s, hs, h⟩ := ih hr
      exact ⟨s, List.mem_cons_of_mem p hs, h⟩

/-- **Line by line every parameter is restored.**  The induction is over the lines; the
parameters of the lines that are done stay in front. -/
theorem lineLoop_saved {env : Env F} {ps qs : List (Param F)} (hreg : List.Forall₂ Registered qs ps)
    (hsave : ∀ p ∈ ps, Saveable env p)
    (hapart : ps.Pairwise fun p q =>
      ¬ Mentions q.name (saveLine env p) ∧ ¬ Mentions p.name (saveLine env q))
    (before : List (Param F)) (hbefore : ∀ r ∈ before, ∀ p ∈ ps, Misses (saveLine env p) r) :
    lineLoop env (before ++ qs) (ps.map (saveLine env))
      = (before ++ List.zipWith restore qs ps, !ps.isEmpty, .done) := by
  induction hreg generalizing before with
  | nil => rfl
  | @cons q p qs ps hq hqs ih =>
    have hp := hsave p List.mem_cons_self
    have hps : ∀ r ∈ ps, Saveable env r := fun r hr => hsave r (List.mem_cons_of_mem p hr)
    rw [List.pairwise_cons] at hapart
    have hafter : ∀ r ∈ qs, Misses (saveLine env p) r := by
      intro r hr
      obtain ⟨s, hs, hrs⟩ := exists_registered hqs hr
      apply misses_saveLine (hrs.name ▸ (hps s hs).name_ne) hp
      rw [hrs.name]
      exact (hapart.1 s hs).1
    have hrestore : ∀ r ∈ ps, Misses (saveLine env r) (restore q p) := by
      intro r hr
      have hname : (restore q p).name = p.name := hq.name
      apply misses_saveLine (hname ▸ hp.name_ne) (hps r hr)
      rw [hname]
      exact (hapart.1 r hr).2
    have hrest := ih hps hapart.2 (before ++ [restore q p]) (by
      intro r hr s hs
      rcases List.mem_append.mp hr with hr | hr
      · exact hbefore r hr s (List.mem_cons_of_mem p hs)
      · rw [List.mem_singleton.mp hr]
        exact hrestore s hs)
    rw [List.append_assoc, List.append_assoc] at hrest
    rw [List.map_cons, lineLoop, skipped_saveLine hp, if_neg Bool.false_ne_true,
      paramLoop_saveLine hq hp (fun r hr => hbefore r hr p List.mem_cons_self) hafter]
    simp only [List.singleton_append] at hrest
    simp only [hrest, List.zipWith_cons_cons, List.isEmpty_cons, Bool.true_or, Bool.not_false]

theorem zipWith_restore_var {qs ps : List (Param F)} (h : List.Forall₂ Registered qs ps) :
    (List.zipWith restore qs ps).map Param.var = ps.map Param.var := by
  induction h with
  | nil => rfl
  | cons _ _ ih => rw [List.zipWith_cons_cons, List.map_cons, List.map_cons, ih, restore]

theorem zipWith_restore_changed (qs ps : List (Param F)) :
    (List.zipWith restore qs ps).any (fun p => p.isMandatory && !p.hasChanged) = false := by
  induction qs generalizing ps with
  | nil => rfl
  | cons q qs ih =>
    cases ps with
    | nil => rfl
    | cons p ps =>
      rw [List.zipWith_cons_cons, List.any_cons, ih]
      simp only [restore, Bool.not_true, Bool.and_false, Bool.or_false]

/-- **What `param_save_txt` wrote, `param_parse_txt` restores**, whatever the variables
and the marks are by then. -/
theorem save_parse_roundTrip {env : Env F} {c c' : ParamCtx F} {filename : Str}
    (hne : c.params ≠ []) (hsave : ∀ p ∈ c.params, Saveable env p)
    (hapart : c.params.Pairwise fun p q =>
      ¬ Mentions q.name (saveLine env p) ∧ ¬ Mentions p.name (saveLine env q))
    (hreg : List.Forall₂ Registered c'.params c.params)
    (htxt : (strstr filename ".txt".toList).isSome) :
    ∃ file c₂, paramSaveTxt env c true = some (some file, true) ∧
      paramParseTxt env c' filename (some file) = some (c₂, true) ∧
      c₂.params.map Param.var = c.params.map Param.var := by
  refine ⟨c.params.flatMap (saveLine env),
    ⟨List.zipWith restore c'.params c.params, c'.paramError⟩, ?_, ?_, zipWith_restore_var hreg⟩
  · simp only [paramSaveTxt, List.isEmpty_eq_false_iff.mpr hne, Bool.false_eq_true, if_false,
      Bool.not_true, saveLoop_eq hsave]
  · have hloop := lineLoop_saved hreg hsave hapart [] (by simp)
    rw [List.nil_append, List.nil_append, List.isEmpty_eq_false_iff.mpr hne] at hloop
    simp only [paramParseTxt_file htxt, Bool.false_eq_true, if_false,
      fileLines_saved hsave, hloop, Bool.not_true, Bool.not_false, zipWith_restore_changed]

def noFloats : Env Unit := ⟨fun s => ⟨(), s, false⟩, fun _ => [], '\x00'⟩

def fourParams (b : Bool) (n : UInt32) (i : Int32) (s : Str) : ParamCtx Unit :=
  ⟨[⟨"PBOOL".toList, "a bool param".toList, false, false, .bool b⟩,
    ⟨"PUINT".toList, "a uint param".toList, false, false, .uint n⟩,
    ⟨"PINT".toList, "an int value".toList, true, false, .int i⟩,
    ⟨"PSTR".toList, "a string param".toList, true, false, .str s⟩], .noError⟩

theorem save_parse_roundTrip_four :
    ∃ file c₂, paramSaveTxt noFloats (fourParams true 4000000000 (-3) []) true
        = some (some file, true) ∧
      paramParseTxt noFloats (fourParams false 0 7 "no".toList) "save_params_txt.txt".toList
        (some file) = some (c₂, true) ∧
      c₂.params.map Param.var = (fourParams true 4000000000 (-3) []).params.map Param.var := by
  refine save_parse_roundTrip (List.cons_ne_nil _ _) ?_ (by decide +kernel) ?_ (by decide +kernel)
  · simp only [fourParams, List.forall_mem_cons, List.not_mem_nil, false_imp_iff, implies_true,
      and_true]
    have hchars : ∀ name : Str, (name.all fun c => c ≠ '=' ∧ c ≠ ' ' ∧ c ≠ '\n') = true →
        ∀ c ∈ name, c ≠ '=' ∧ c ≠ ' ' ∧ c ≠ '\n' :=
      fun _ h c hc => of_decide_eq_true (List.all_eq_true.mp h c hc)
    refine ⟨?_, ?_, ?_, ?_⟩ <;>
      exact ⟨by decide, hchars _ (by decide), by decide, by decide, by decide, by decide +kernel⟩
  · exact .cons ⟨rfl, rfl, rfl⟩ (.cons ⟨rfl, rfl, rfl⟩ (.cons ⟨rfl, rfl, rfl⟩
      (.cons ⟨rfl, rfl, rfl⟩ .nil)))

end DataCommons.Params
