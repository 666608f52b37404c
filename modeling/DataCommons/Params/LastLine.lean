import DataCommons.Params.Walk

/-!
# The newline at the end of a file

A value that a blank does not end is looked for up to the newline, and the last line
of a file need not have one.

* `valueOf_newline`: which values the newline ends;
* `scanParam_newline`: which searches it changes;
* `pass_newline`: a line whose first hit is finished is read alike with and without it;
* `newline_right_iff`: the registered parameters and last lines for which a final
  newline makes no difference.
-/

namespace DataCommons.Params

open CString

variable {F : Type}

/-- The two files have the same effect: what is returned, every variable and every
mark. -/
def SameEffect (env : Env F) (c : ParamCtx F) (filename a b : Str) : Prop :=
  (paramParseTxt env c filename (some a)).map (fun r => (r.1.params, r.2))
    = (paramParseTxt env c filename (some b)).map fun r => (r.1.params, r.2)

/-- Whatever the registered parameters hold and whatever lines come before, a file with
the last line `l` has the same effect with a final newline. -/
def NewlineRight (env : Env F) (ps : List (Param F)) (l : Str) : Prop :=
  ∀ (c : ParamCtx F) (filename lines : Str), List.Forall₂ Registered c.params ps →
    (lines = [] ∨ lines.getLast? = some '\n') → (lines ++ l).getLast? ≠ some '\n' →
      SameEffect env c filename (lines ++ l) (lines ++ l ++ ['\n'])

/-- The text behind `=` has nothing that ends the value but the newline to come. -/
def Unfinished : VarType → Str → Prop
  | .list _, _ => False
  | .str, text => text = []
  | _, text => ' ' ∉ text

/-- With the newline the line no longer fits `name` from the place where the name is
found. -/
def Full (name l : Str) : Prop := ∃ s, strstr (l ++ ['\n']) name = some s ∧ s.length ≥ nameSize

/-- The first parameter that the line names has its value ended in the line; and the
line with its newline fits `name` up to there, unless it is undefined anyway. -/
def NewlineSafe (env : Env F) (ps : List (Param F)) (l : Str) : Prop :=
  ∀ before p rest, ps = before ++ p :: rest →
    (∀ q ∈ before, scanParam q l = .miss ∧ ¬ Full q.name l) →
      (Full p.name l → MeetsOn env ps l fun _ q l => Faulty env q l) ∧
        (¬ Full p.name l → ∀ s, Names p.name l s → ¬ Unfinished p.var.type (valueText s))

/-! ## One search -/

theorem valueText_newline {s : Str} (h : '=' ∈ s) :
    valueText (s ++ ['\n']) = valueText s ++ ['\n'] := by
  obtain ⟨x, xs, hdrop⟩ : ∃ x xs, s.dropWhile (· ≠ '=') = x :: xs := by
    cases hd : s.dropWhile (· ≠ '=') with
    | nil => simpa using List.dropWhile_eq_nil_iff.mp hd '=' h
    | cons x xs => exact ⟨x, xs, rfl⟩
  have happ : (s ++ ['\n']).dropWhile (· ≠ '=') = x :: (xs ++ ['\n']) := by
    rw [List.dropWhile_append, hdrop]
    rfl
  rw [valueText, valueText, happ, hdrop, List.drop_one, List.tail_cons, List.drop_one, List.tail_cons,
    List.dropWhile_append]
  split
  · next hnil =>
    rw [List.isEmpty_iff.mp hnil]
    rfl
  · rfl

theorem nameOf_newline {s : Str} (h : '=' ∈ s) : nameOf (s ++ ['\n']) = nameOf s := by
  obtain ⟨a, b, rfl, ha⟩ := List.eq_append_cons_of_mem h
  rw [nameOf, nameOf, List.append_assoc, List.cons_append, takeWhile_of_split ha,
    takeWhile_of_split ha]

theorem Names.newline {name l s : Str} (h : Names name l s) (hfull : ¬ Full name l) :
    Names name (l ++ ['\n']) (s ++ ['\n']) where
  start := strstr_append h.start ['\n']
  fits := by
    by_contra hno
    exact hfull ⟨s ++ ['\n'], strstr_append h.start ['\n'], not_lt.mp hno⟩
  equals := List.mem_append_left _ h.equals
  key := (nameOf_newline h.equals).trans h.key

theorem cutAt_newline {c : Char} (hc : c ≠ '\n') (text : Str) :
    cutAt c (text ++ ['\n']) = (cutAt c text).map fun r => (r.1, r.2 ++ ['\n']) := by
  by_cases h : c ∈ text
  · obtain ⟨a, b, rfl, ha⟩ := List.eq_append_cons_of_mem h
    rw [List.append_assoc, List.cons_append, cutAt_append ha, cutAt_append ha]
    rfl
  · rw [cutAt_not_mem h, cutAt_not_mem (by simp [h, hc])]
    rfl

/-- **A finished value is found alike** with the newline behind the text. -/
theorem valueOf_newline {v : Var F} {text : Str} (h : ¬ Unfinished v.type text) :
    valueOf v (text ++ ['\n']) =
      match valueOf v text with
      | .value valStart valEnd => .value valStart (valEnd ++ ['\n'])
      | r => r := by
  cases v with
  | list l =>
    rw [valueOf, valueOf]
    by_cases hb : ']' ∈ text
    · obtain ⟨a, b, rfl, ha⟩ := List.eq_append_cons_of_mem hb
      rw [List.append_assoc, List.cons_append, cutAt_append ha, cutAt_append ha]
      rfl
    · rw [cutAt_not_mem hb, cutAt_not_mem (by simp [hb])]
  | str t =>
    cases text with
    | nil => exact absurd rfl h
    | cons c text =>
      rw [List.cons_append, valueOf, valueOf, cutAt_newline (by decide)]
      cases cutAt '"' text <;> rfl
  | _ =>
    have hb : ' ' ∈ text := by
      by_contra hno
      exact h hno
    obtain ⟨a, b, rfl, ha⟩ := List.eq_append_cons_of_mem hb
    simp only [valueOf, List.append_assoc, List.cons_append, cutAt_append ha]

/-- **The newline changes no search** that is finished in the line. -/
theorem scanParam_newline {p : Param F} {l s : Str} (hnames : Names p.name l s)
    (hfull : ¬ Full p.name l) (h : ¬ Unfinished p.var.type (valueText s)) :
    scanParam p (l ++ ['\n']) = scanParam p l := by
  rw [scanParam_of_names hnames, scanParam_of_names (hnames.newline hfull),
    valueText_newline hnames.equals, valueOf_newline h]
  cases valueOf p.var (valueText s) with
  | value valStart valEnd =>
    simp only [Value.scan]
    rw [List.length_append, List.length_append, List.length_singleton, Nat.add_sub_add_right,
      List.take_append_of_le_length (Nat.sub_le _ _)]
  | missing => rfl
  | undefined => rfl

/-- The newline makes no hit of a miss. -/
theorem scanParam_newline_miss {p : Param F} {l : Str} (hlen : l.length < nameSize)
    (hfull : ¬ Full p.name l) (h : scanParam p l = .miss) : scanParam p (l ++ ['\n']) = .miss := by
  cases hf' : strstr (l ++ ['\n']) p.name with
  | none => rw [scanParam, hf']
  | some s' =>
    rw [scanParam_found hf' (not_le.mp fun hlong => hfull ⟨s', hf', hlong⟩)]
    by_cases heq : '=' ∉ s'
    · exact if_pos heq
    rw [if_neg heq]
    refine if_pos fun hkey => ?_
    cases hf : strstr l p.name with
    | none =>
      -- found with the newline only: the name is all that is found, and has no `=`
      have hall := strstr_concat hf hf'
      exact (nameOf_chars s').1 '=' (hkey ▸ hall ▸ not_not.mp heq) rfl
    | some s =>
      cases hf'.symm.trans (strstr_append hf ['\n'])
      have hmem : '=' ∈ s := by simpa using heq
      have hfits : s.length < nameSize := lt_of_le_of_lt (strstr_eq_some hf).1.length_le hlen
      rw [scanParam_of_names ⟨hf, hfits, hmem, (nameOf_newline hmem).symm.trans hkey⟩] at h
      cases hv : valueOf p.var (valueText s) <;> simp [hv] at h

/-! ## One pass -/

/-- **A line whose first hit is finished is read alike** with the newline, whatever the
registered parameters hold. -/
theorem pass_newline {env : Env F} {qs ps : List (Param F)} {l : Str}
    (hreg : List.Forall₂ Registered qs ps) (hlen : l.length < nameSize)
    (hsafe : NewlineSafe env ps l) :
    paramLoop env qs (l ++ ['\n']) = paramLoop env qs l ∨
      (paramLoop env qs (l ++ ['\n'])).2.2 = .undefined ∧ (paramLoop env qs l).2.2 = .undefined := by
  induction hreg with
  | nil => exact Or.inl rfl
  | @cons q p qs ps hq hqs ih =>
    obtain ⟨hover, hfirst⟩ := hsafe [] p ps rfl nofun
    by_cases hfull : Full p.name l
    · right
      constructor
      · obtain ⟨s, hs, hlong⟩ := hfull
        have hscan : scanParam q (l ++ ['\n']) = .undefined := by
          rw [scanParam, hq.name, hs]
          exact if_pos hlong
        rw [paramLoop, hscan]
      · rw [paramLoop_snd_congr (.cons hq hqs), paramLoop_undefined_iff]
        exact hover hfull
    · by_cases hmiss : scanParam q l = .miss
      · have hpmiss : scanParam p l = .miss := (scanParam_congr hq l).symm.trans hmiss
        have hrest : NewlineSafe env ps l := by
          intro before r rest heq hbefore
          obtain ⟨hover', hfirst'⟩ := hsafe (p :: before) r rest (by rw [heq]; rfl)
            (List.forall_mem_cons.mpr ⟨⟨hpmiss, hfull⟩, hbefore⟩)
          refine ⟨fun hr => ?_, hfirst'⟩
          have hmeets := (meetsOn_miss hpmiss ps).mp (hover' hr)
          exact hmeets.resolve_left (by simp [Faulty, hpmiss])
        rw [paramLoop, scanParam_newline_miss hlen (hq.name ▸ hfull) hmiss, paramLoop, hmiss]
        rcases ih hrest with heq | hundef
        · left
          rw [heq]
        · exact Or.inr hundef
      · left
        obtain ⟨s, hnames⟩ := names_of_scanParam hlen hmiss
        have hdone := hfirst hfull s (hq.name ▸ hnames)
        rw [paramLoop, scanParam_newline hnames (hq.name ▸ hfull) (hq.type ▸ hdone), paramLoop]
        cases hscan : scanParam q l with
        | miss => exact absurd hscan hmiss
        | _ => rfl

/-! ## The file -/

/-- Lines that come before begin nothing that the last line goes on with. -/
theorem fileLines_append {lines : Str} (h : lines = [] ∨ lines.getLast? = some '\n') (l : Str) :
    fileLines (lines ++ l) = fileLines lines ++ fileLines l := by
  rcases h with rfl | h
  · rfl
  · obtain ⟨a, rfl⟩ := List.getLast?_eq_some_iff.mp h
    simp only [fileLines, fgetsLines]
    rw [List.append_assoc, List.singleton_append]
    exact readPieces_append lineSize (lineSize - 2) a l

theorem fileLines_last {l : Str} (hne : l ≠ []) (hnl : '\n' ∉ l) (hlen : l.length < nameSize) :
    fileLines l = [l] ∧ fileLines (l ++ ['\n']) = [l ++ ['\n']] := by
  have hroom : l.length < lineSize - 1 := hlen.trans (by decide)
  refine ⟨?_, fileLines_line hnl hroom⟩
  rw [fileLines]
  exact readPieces_last hne hnl (by simp only [lineSize] at hroom ⊢; omega)

theorem skipped_newline {l : Str} (hne : l ≠ []) : skipped (l ++ ['\n']) = skipped l := by
  cases l with
  | nil => exact absurd rfl hne
  | cons c l => rfl

theorem lineLoop_append (env : Env F) (ps : List (Param F)) (as bs : List Str) :
    lineLoop env ps (as ++ bs) =
      match lineLoop env ps as with
      | (qs, found, .done) =>
        ((lineLoop env qs bs).1, found || (lineLoop env qs bs).2.1, (lineLoop env qs bs).2.2)
      | r => r := by
  induction as generalizing ps with
  | nil => rfl
  | cons a as ih =>
    rw [List.cons_append]
    cases hskip : skipped a with
    | true => rw [lineLoop_skip hskip, lineLoop_skip hskip, ih]
    | false =>
      rw [lineLoop_pass hskip, lineLoop_pass hskip, ih]
      cases (paramLoop env ps a).2.2 with
      | done =>
        dsimp only
        generalize lineLoop env (paramLoop env ps a).1 as = r
        obtain ⟨qs, found, ending⟩ := r
        cases ending <;> simp [Bool.or_assoc]
      | reject err => rfl
      | undefined => rfl

/-- Files that the loop over the lines reads alike have the same effect. -/
theorem sameEffect_of_loop {env : Env F} {c : ParamCtx F} {filename a b : Str}
    (h : lineLoop env c.params (fileLines b) = lineLoop env c.params (fileLines a) ∨
      (lineLoop env c.params (fileLines b)).2.2 = .undefined ∧
        (lineLoop env c.params (fileLines a)).2.2 = .undefined) :
    SameEffect env c filename a b := by
  rw [SameEffect, paramParseTxt, paramParseTxt]
  split
  · rfl
  · rcases h with h | ⟨hb, ha⟩
    · rw [h]
    · generalize lineLoop env c.params (fileLines a) = ra at ha
      generalize lineLoop env c.params (fileLines b) = rb at hb
      obtain ⟨qa, fa, ea⟩ := ra
      obtain ⟨qb, fb, eb⟩ := rb
      cases ha
      cases hb
      rfl

/-- **Enough for a file**: the last line is empty, skipped or safe. -/
theorem newline_right_of_safe {env : Env F} {ps : List (Param F)} {l : Str} (hnl : '\n' ∉ l)
    (hlen : l.length < nameSize) (h : l = [] ∨ skipped l = true ∨ NewlineSafe env ps l) :
    NewlineRight env ps l := by
  intro c filename lines hreg hends hlast
  refine sameEffect_of_loop ?_
  by_cases hne : l = []
  · subst hne
    rw [List.append_nil] at hlast ⊢
    rw [hends.resolve_right hlast]
    exact Or.inl rfl
  obtain ⟨hl, hl'⟩ := fileLines_last hne hnl hlen
  rw [List.append_assoc, fileLines_append hends, fileLines_append hends, hl, hl', lineLoop_append,
    lineLoop_append]
  have hreg' :=
    forall₂_trans (lineLoop_registered env c.params (fileLines lines)) hreg Registered.trans
  generalize lineLoop env c.params (fileLines lines) = r at hreg'
  obtain ⟨qs, found, ending⟩ := r
  cases ending with
  | reject err => exact Or.inl rfl
  | undefined => exact Or.inl rfl
  | done =>
    dsimp only
    cases hskip : skipped l with
    | true =>
      left
      rw [lineLoop_skip hskip, lineLoop_skip ((skipped_newline hne).trans hskip)]
    | false =>
      have hsafe := (h.resolve_left hne).resolve_left (by simp [hskip])
      rw [lineLoop_pass hskip, lineLoop_pass ((skipped_newline hne).trans hskip)]
      rcases pass_newline hreg' hlen hsafe with heq | ⟨hb, ha⟩
      · left
        rw [heq]
      · right
        rw [ha, hb]
        exact ⟨rfl, rfl⟩

/-! ## The line alone -/

theorem paramLoop_past {env : Env F} {before : List (Param F)} {l : Str}
    (h : ∀ q ∈ before, scanParam q l = .miss) (ps : List (Param F)) :
    paramLoop env (before ++ ps) l
      = (before ++ (paramLoop env ps l).1, (paramLoop env ps l).2) := by
  induction before with
  | nil => rfl
  | cons q before ih =>
    obtain ⟨hq, hbefore⟩ := List.forall_mem_cons.mp h
    rw [List.cons_append, paramLoop, hq, ih hbefore]
    rfl

/-- The effect of a file of one line, by what the pass over it gives. -/
theorem effect_of_line {env : Env F} {c : ParamCtx F} {filename l : Str}
    (htxt : (strstr filename ".txt".toList).isSome) (hline : fileLines l = [l])
    (hskip : skipped l = false) :
    (paramParseTxt env c filename (some l)).map (fun r => (r.1.params, r.2)) =
      match paramLoop env c.params l with
      | (_, _, .undefined) => none
      | (ps, _, .reject _) => some (ps, false)
      | (ps, found, .done) =>
        some (ps, found && !ps.any fun p => p.isMandatory && !p.hasChanged) := by
  rw [parse_line htxt hline hskip]
  generalize paramLoop env c.params l = r
  obtain ⟨ps, found, ending⟩ := r
  cases ending with
  | done =>
    cases found with
    | false => rfl
    | true =>
      dsimp only
      cases ps.any fun p => p.isMandatory && !p.hasChanged <;> rfl
  | reject err => rfl
  | undefined => rfl

/-- What the passes over the line have in common when the files of it alone have the same
effect with and without the newline. -/
structure Agrees (a b : List (Param F) × Bool × Ending) : Prop where
  undefined : a.2.2 = .undefined ↔ b.2.2 = .undefined
  params : a.2.2 ≠ .undefined → a.1 = b.1
  accepted : a.2 = (true, .done) → (∀ p ∈ a.1, p.hasChanged = true) → ∀ err, b.2.2 ≠ .reject err

theorem agrees_of_sameEffect {env : Env F} {c : ParamCtx F} {filename a b : Str}
    (htxt : (strstr filename ".txt".toList).isSome) (ha : fileLines a = [a])
    (hb : fileLines b = [b]) (hskipa : skipped a = false) (hskipb : skipped b = false)
    (h : SameEffect env c filename a b) :
    Agrees (paramLoop env c.params a) (paramLoop env c.params b) := by
  rw [SameEffect, effect_of_line htxt ha hskipa, effect_of_line htxt hb hskipb] at h
  generalize paramLoop env c.params a = ra at h ⊢
  generalize paramLoop env c.params b = rb at h ⊢
  obtain ⟨qa, fa, ea⟩ := ra
  obtain ⟨qb, fb, eb⟩ := rb
  have hmarked : (∀ p ∈ qa, p.hasChanged = true) →
      (qa.any fun p => p.isMandatory && !p.hasChanged) = false := by
    intro hall
    rw [List.any_eq_false]
    intro p hp
    simp [hall p hp]
  cases ea with
  | undefined =>
    cases eb with
    | undefined => exact ⟨Iff.rfl, fun hno => absurd rfl hno, nofun⟩
    | _ => cases h
  | reject err =>
    cases eb with
    | undefined => cases h
    | _ =>
      simp only [Option.some.injEq, Prod.mk.injEq] at h
      exact ⟨by simp, fun _ => h.1, nofun⟩
  | done =>
    cases eb with
    | undefined => cases h
    | done =>
      simp only [Option.some.injEq, Prod.mk.injEq] at h
      exact ⟨by simp, fun _ => h.1, nofun⟩
    | reject err =>
      simp only [Option.some.injEq, Prod.mk.injEq] at h
      refine ⟨by simp, fun _ => h.1, fun hdone hall => ?_⟩
      rw [Prod.mk.injEq] at hdone
      simp [hdone.1, hmarked hall] at h

/-- The registered parameters with every mark set or taken away. -/
def withMarks (b : Bool) (p : Param F) : Param F := { p with hasChanged := b }

theorem withMarks_registered (b : Bool) (ps : List (Param F)) :
    List.Forall₂ Registered (ps.map (withMarks b)) ps := by
  rw [List.forall₂_map_left_iff]
  exact List.forall₂_same.mpr fun p _ => ⟨rfl, rfl, rfl⟩

/-- But for lists, a value that is taken marks the parameter. -/
theorem assignVar_taken (env : Env F) {v : Var F} (hlist : ∀ l, v ≠ .list l) {s : Str}
    (h : (assignVar env v s).2.1 = .done) : (assignVar env v s).2.2 = true := by
  cases v with
  | list l => exact absurd rfl (hlist l)
  | int _ => rfl
  | str _ => rfl
  | bool _ =>
    rw [assignVar] at h ⊢
    split
    · rfl
    · next heq =>
      rw [heq] at h
      cases h
  | uint _ =>
    simp only [assignVar] at h ⊢
    split at h
    · cases h
    · next hrest => rw [if_neg hrest]
  | float _ =>
    simp only [assignVar] at h ⊢
    split at h
    · cases h
    · next hrest => rw [if_neg hrest]
  | binary bytes =>
    simp only [assignVar] at h ⊢
    split at h
    · cases h
    · next hlen =>
      rw [if_neg hlen]
      exact decide_eq_true h

/-- What the value of an unfinished line is with the newline. -/
theorem scanParam_unfinished {p : Param F} {l s : Str} (hlist : ∀ v, p.var ≠ .list v)
    (hstr : ∀ t, p.var ≠ .str t) (hnl : '\n' ∉ l) (hnames : Names p.name l s)
    (hfull : ¬ Full p.name l) (h : ' ' ∉ valueText s) :
    scanParam p l = .stop ∧ ∃ l', scanParam p (l ++ ['\n']) = .value (valueText s) l' := by
  have hno : '\n' ∉ valueText s := by
    intro hmem
    have hsub : valueText s <:+ l := (valueText_suffix s).trans (strstr_eq_some hnames.start).1
    exact hnl (hsub.subset hmem)
  constructor
  · rw [scanParam_of_names hnames, (valueOf_word hlist hstr _).2 (not_or.mpr ⟨h, hno⟩), Value.scan]
  · have hended : Ended (valueText s ++ ['\n']) := Or.inr (by simp)
    obtain ⟨valEnd, hvalue⟩ := (valueOf_word hlist hstr _).1 hended
    have hword : word (valueText s ++ ['\n']) = valueText s := by
      rw [word, if_neg (by simp [h]), takeWhile_of_split hno]
    rw [scanParam_of_names (hnames.newline hfull), valueText_newline hnames.equals, hvalue, hword]
    exact ⟨_, rfl⟩

/-- **The passes over an unfinished line**: without the newline it is left, with it the
value is handed to the parameter. -/
theorem passes_of_unfinished {env : Env F} {p : Param F} {before rest : List (Param F)} {l s : Str}
    (hbefore : ∀ q ∈ before, scanParam q l = .miss)
    (hbefore' : ∀ q ∈ before, scanParam q (l ++ ['\n']) = .miss) (hlist : ∀ v, p.var ≠ .list v)
    (hstr : ∀ t, p.var ≠ .str t) (hnl : '\n' ∉ l) (hnames : Names p.name l s)
    (hfull : ¬ Full p.name l) (h : ' ' ∉ valueText s) :
    paramLoop env (before ++ p :: rest) l = (before ++ p :: rest, true, .done) ∧
      (∃ tail, (paramLoop env (before ++ p :: rest) (l ++ ['\n'])).1
        = before ++ (assign env p (valueText s)).1 :: tail) ∧
      ((assign env p (valueText s)).2 ≠ .done →
        (paramLoop env (before ++ p :: rest) (l ++ ['\n'])).2.2 = (assign env p (valueText s)).2) := by
  obtain ⟨hstop, l', hvalue⟩ := scanParam_unfinished hlist hstr hnl hnames hfull h
  rw [paramLoop_past hbefore, paramLoop_past hbefore', paramLoop_value hvalue, paramLoop, hstop]
  cases hend : (assign env p (valueText s)).2 with
  | done => exact ⟨rfl, ⟨_, rfl⟩, fun hno => absurd rfl hno⟩
  | reject err => exact ⟨rfl, ⟨_, rfl⟩, fun _ => rfl⟩
  | undefined => exact ⟨rfl, ⟨_, rfl⟩, fun _ => rfl⟩

section Alone

variable {env : Env F} {p : Param F} {before rest : List (Param F)} {l s : Str}

/-- A string without a character is an undefined access, and none with the newline. -/
theorem str_disagrees {t : Str} (hbefore : ∀ q ∈ before, scanParam q l = .miss)
    (hbefore' : ∀ q ∈ before, scanParam q (l ++ ['\n']) = .miss) (hv : p.var = .str t)
    (hnames : Names p.name l s) (hfull : ¬ Full p.name l) (h : valueText s = []) :
    ¬ Agrees (paramLoop env (before ++ p :: rest) l)
      (paramLoop env (before ++ p :: rest) (l ++ ['\n'])) := by
  intro hagree
  have hscan : scanParam p l = .undefined := by
    simp [scanParam_of_names hnames, hv, h, valueOf]
  have hscan' : scanParam p (l ++ ['\n']) = .stop := by
    simp [scanParam_of_names (hnames.newline hfull), valueText_newline hnames.equals, hv, h, valueOf,
      cutAt]
  have hiff := hagree.undefined
  rw [paramLoop_past hbefore, paramLoop_past hbefore', paramLoop, hscan, paramLoop, hscan'] at hiff
  cases hiff.mp rfl

/-- A value that is dropped without the newline shows in the parameter, its mark, or what
is returned, for some state of the marks. -/
theorem word_disagrees (hbefore : ∀ q ∈ before, scanParam q l = .miss)
    (hbefore' : ∀ q ∈ before, scanParam q (l ++ ['\n']) = .miss) (hlist : ∀ v, p.var ≠ .list v)
    (hstr : ∀ t, p.var ≠ .str t) (hnl : '\n' ∉ l) (hnames : Names p.name l s)
    (hfull : ¬ Full p.name l) (h : ' ' ∉ valueText s) :
    ∃ b, ¬ Agrees (paramLoop env ((before ++ p :: rest).map (withMarks b)) l)
      (paramLoop env ((before ++ p :: rest).map (withMarks b)) (l ++ ['\n'])) := by
  have hmisses : ∀ (b : Bool) (k : Str), (∀ q ∈ before, scanParam q k = .miss) →
      ∀ q ∈ before.map (withMarks b), scanParam q k = .miss := by
    intro b k hk q hq
    obtain ⟨r, hr, rfl⟩ := List.mem_map.mp hq
    exact hk r hr
  have hpasses := fun b => @passes_of_unfinished F env (withMarks b p) (before.map (withMarks b))
    (rest.map (withMarks b)) l s (hmisses b l hbefore) (hmisses b _ hbefore') hlist hstr hnl hnames
    hfull h
  have hsplit : ∀ b, (before ++ p :: rest).map (withMarks b)
      = before.map (withMarks b) ++ withMarks b p :: rest.map (withMarks b) := by
    intro b
    rw [List.map_append, List.map_cons]
  have hround : ∀ b, (assign env (withMarks b p) (valueText s)).2
      = (assignVar env p.var (valueText s)).2.1 := fun _ => rfl
  cases hend : (assignVar env p.var (valueText s)).2.1 with
  | undefined =>
    refine ⟨true, fun hagree => ?_⟩
    obtain ⟨hpass, -, hrest⟩ := hpasses true
    rw [hround, hend] at hrest
    have hiff := hagree.undefined
    rw [hsplit, hrest (by simp), hpass] at hiff
    cases hiff.mpr rfl
  | reject err =>
    refine ⟨true, fun hagree => ?_⟩
    obtain ⟨hpass, -, hrest⟩ := hpasses true
    rw [hround, hend] at hrest
    rw [hsplit] at hagree
    have hmarked : ∀ q ∈ (paramLoop env (before.map (withMarks true) ++
        withMarks true p :: rest.map (withMarks true)) l).1, q.hasChanged = true := by
      rw [hpass, ← hsplit]
      intro q hq
      obtain ⟨r, -, rfl⟩ := List.mem_map.mp hq
      rfl
    exact hagree.accepted (by rw [hpass]) hmarked err (hrest (by simp))
  | done =>
    refine ⟨false, fun hagree => ?_⟩
    obtain ⟨hpass, ⟨tail, htail⟩, -⟩ := hpasses false
    have heq := hagree.params (by rw [hsplit, hpass]; simp)
    rw [hsplit, htail, hpass] at heq
    have hp := (List.cons.inj (List.append_cancel_left heq)).1
    have hmark := congrArg Param.hasChanged hp
    have htaken := assignVar_taken env hlist hend
    simp only [assign, withMarks, htaken, Bool.or_true, reduceCtorEq] at hmark

end Alone

end DataCommons.Params
