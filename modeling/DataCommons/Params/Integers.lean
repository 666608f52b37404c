import DataCommons.Params.Walk

/-!
# Integers in a file

`atoi` takes whatever a text begins with, and `strtoul` what does not fit: a line can
give an integer parameter another number than its text, and no error.

* `assign_integer`: a text in range is stored as it is;
* `assign_garbage`: what is no numeral at all is refused for `PARAM_UINT`;
* `integer_right_iff`: the lines that do right by the parameter they name.
-/

namespace DataCommons.Params

open CString

variable {F : Type}

/-- The text is a complete decimal integer in the range of the type. -/
def IntegerText : VarType → Str → Prop
  | .int, text => ∃ z, Denotes text z ∧ -2 ^ 31 ≤ z ∧ z < 2 ^ 31
  | .uint, text => ∃ z, Denotes text z ∧ 0 ≤ z ∧ z < 2 ^ 32
  | _, _ => False

/-- The variable holds the integer that the text denotes. -/
def HoldsInteger : Var F → Str → Prop
  | .int i, text => Denotes text i.toInt
  | .uint n, text => Denotes text n.toNat
  | _, _ => False

/-- What the line `l` must do to an integer parameter that it names, wherever a call
comes to the parameter on it: the pass over the line leaves the parameter or stores
exactly the integer of the text, and a text that is no such integer ends the call with
an error and every parameter as it is by then. -/
def IntegerRight (env : Env F) (name : Str) (type : VarType) (l text : Str) : Prop :=
  ∀ (c : ParamCtx F) (filename file line : Str) (lines : List Str)
    (ps before rest : List (Param F)) (p : Param F),
    (strstr filename ".txt".toList).isSome → p.name = name → p.var.type = type →
    Reads env c.params (fileLines file) ps line lines → Comes env ps line before p rest l →
    ((paramLoop env ps line).1[before.length]? = some p ∨
      ∃ v : Var F, v.type = type ∧ HoldsInteger v text ∧
        (paramLoop env ps line).1[before.length]?
          = some { p with var := v, hasChanged := true }) ∧
    (¬ IntegerText type text →
      ∃ err, (err = .invalidNumber ∨ err = .noValue) ∧
        paramParseTxt env c filename (some file) = some (⟨before ++ p :: rest, err⟩, false))

/-- The texts behind `=` that are treated right: integers in range, and for `PARAM_UINT`
what has an end and is neither empty nor a numeral. -/
def IntegerSafe (type : VarType) (s : Str) : Prop :=
  IntegerText type (word s) ∨
    type = .uint ∧ Ended s ∧ word s ≠ [] ∧ ¬ ∃ z, Denotes (word s) z

/-! ## One value -/

/-- **A text in range is stored as it is.** -/
theorem assign_integer (env : Env F) {p : Param F} {text : Str}
    (h : IntegerText p.var.type text) :
    ∃ v : Var F, v.type = p.var.type ∧ HoldsInteger v text ∧
      assign env p text = ({ p with var := v, hasChanged := true }, .done) := by
  obtain ⟨name, desc, isMandatory, hasChanged, var⟩ := p
  cases var with
  | int i =>
    obtain ⟨z, hz, hlo, hhi⟩ := h
    refine ⟨.int (Int32.ofInt z), rfl, ?_, ?_⟩
    · rw [HoldsInteger, Int32.toInt_ofInt_of_le hlo hhi]
      exact hz
    · have hatoi : atoi text = Int32.ofInt z := by
        rw [atoi, strtol_of_denotes hz, if_neg (by rw [longMax]; omega),
          if_neg (by rw [longMin]; omega)]
      simp only [assign, assignVar, hatoi, Bool.or_true]
  | uint n =>
    obtain ⟨z, hz, hlo, hhi⟩ := h
    have hconv : strtoull text = ⟨z.toNat, [], false⟩ := by
      rw [strtoull_of_denotes hz, if_neg (by rw [ullongMax]; omega), Int.emod_eq_of_lt hlo (by omega)]
    refine ⟨.uint (UInt32.ofNat z.toNat), rfl, ?_, ?_⟩
    · rw [HoldsInteger, UInt32.toNat_ofNat_of_lt' (by simp only [UInt32.size]; omega),
        Int.toNat_of_nonneg hlo]
      exact hz
    · simp only [assign, assignVar, hconv, ne_eq, not_true_eq_false, if_false, Bool.or_true]
  | _ => exact absurd h id

/-- **What is no numeral at all is refused** for a `PARAM_UINT`. -/
theorem assign_garbage (env : Env F) {p : Param F} {text : Str} (htype : p.var.type = .uint)
    (hne : text ≠ []) (h : ¬ ∃ z, Denotes text z) :
    assign env p text = (p, .reject .invalidNumber) := by
  obtain ⟨name, desc, isMandatory, hasChanged, var⟩ := p
  cases var with
  | uint n =>
    have hrest : (strtoull text).rest ≠ [] := fun hr => h (denotes_of_strtoull hne hr)
    simp only [assign, assignVar, ne_eq, hrest, not_false_eq_true, if_true, Bool.or_false]
  | _ => cases htype

theorem assign_integer_done (env : Env F) {p : Param F} {text : Str}
    (htype : p.var.type = .int ∨ p.var.type = .uint)
    (h : p.var.type = .uint → text = [] ∨ ∃ z, Denotes text z) :
    (assign env p text).2 = .done := by
  obtain ⟨name, desc, isMandatory, hasChanged, var⟩ := p
  cases var with
  | int i => rfl
  | uint n =>
    have hrest : (strtoull text).rest = [] := by
      rcases h rfl with rfl | ⟨z, hz⟩
      · rfl
      · rw [strtoull_of_denotes hz]
        split <;> rfl
    simp only [assign, assignVar, hrest, ne_eq, not_true_eq_false, if_false]
  | _ => rcases htype with h | h <;> cases h

/-! ## One line -/

section Line

variable {env : Env F} {p : Param F} {l s : Str}

theorem scan_integer (htype : p.var.type = .int ∨ p.var.type = .uint) (hnames : Names p.name l s) :
    (Ended (valueText s) → ∃ l', scanParam p l = .value (word (valueText s)) l') ∧
      (¬ Ended (valueText s) → scanParam p l = .stop) := by
  have hlist : ∀ v, p.var ≠ .list v := by
    intro v hv
    rw [hv] at htype
    rcases htype with h | h <;> cases h
  have hstr : ∀ t, p.var ≠ .str t := by
    intro t ht
    rw [ht] at htype
    rcases htype with h | h <;> cases h
  obtain ⟨hended, hopen⟩ := valueOf_word hlist hstr (valueText s)
  rw [scanParam_of_names hnames]
  constructor
  · intro he
    obtain ⟨valEnd, hv⟩ := hended he
    exact ⟨_, by rw [hv, Value.scan]⟩
  · intro he
    rw [hopen he, Value.scan]

/-- The pass leaves the parameter or stores what the text denotes, on a safe text. -/
theorem round_of_safe (rest : List (Param F)) (htype : p.var.type = .int ∨ p.var.type = .uint)
    (hnames : Names p.name l s) (h : IntegerSafe p.var.type (valueText s)) :
    (paramLoop env (p :: rest) l).1[0]? = some p ∨
      ∃ v : Var F, v.type = p.var.type ∧ HoldsInteger v (word (valueText s)) ∧
        (paramLoop env (p :: rest) l).1[0]? = some { p with var := v, hasChanged := true } := by
  obtain ⟨hended, hopen⟩ := scan_integer htype hnames
  by_cases he : Ended (valueText s)
  · obtain ⟨l', hscan⟩ := hended he
    rcases h with hgood | ⟨huint, -, hne, hno⟩
    · obtain ⟨v, hv, hholds, hassign⟩ := assign_integer env hgood
      right
      refine ⟨v, hv, hholds, ?_⟩
      rw [paramLoop, hscan]
      simp only [hassign, List.getElem?_cons_zero]
    · left
      rw [paramLoop, hscan]
      simp only [assign_garbage env huint hne hno, List.getElem?_cons_zero]
  · left
    rw [paramLoop, hopen he]
    simp only [List.getElem?_cons_zero]

/-- **An unsafe text is passed over without an error.** -/
theorem round_goes_on (htype : p.var.type = .int ∨ p.var.type = .uint)
    (hnames : Names p.name l s) (h : ¬ IntegerSafe p.var.type (valueText s)) :
    ∃ p', p'.isMandatory = p.isMandatory ∧ paramLoop env [p] l = ([p'], true, .done) := by
  obtain ⟨hended, hopen⟩ := scan_integer htype hnames
  rw [paramLoop]
  by_cases he : Ended (valueText s)
  · obtain ⟨l', hscan⟩ := hended he
    have hdone : (assign env p (word (valueText s))).2 = .done := by
      refine assign_integer_done env htype fun huint => ?_
      by_contra hbad
      rw [not_or] at hbad
      exact h (Or.inr ⟨huint, he, hbad⟩)
    refine ⟨(assign env p (word (valueText s))).1,
      (assign_registered env p (word (valueText s))).isMandatory, ?_⟩
    rw [hscan]
    dsimp only
    generalize assign env p (word (valueText s)) = a at hdone ⊢
    obtain ⟨p', e⟩ := a
    cases hdone
    rfl
  · exact ⟨p, rfl, by rw [hopen he]⟩

end Line

/-- **A line does right by the integer parameter it names exactly if** the text is an
integer in range, or, for a `PARAM_UINT`, has an end and is neither empty nor a
numeral. -/
theorem integer_right_iff (env : Env F) {name l s : Str} {type : VarType}
    (htype : type = .int ∨ type = .uint) (hline : fileLines l = [l]) (hskip : skipped l = false)
    (hnames : Names name l s) :
    IntegerRight env name type l (word (valueText s)) ↔ IntegerSafe type (valueText s) := by
  constructor
  · intro hright
    by_contra hwrong
    -- a file of this line alone, with a parameter that need not be given
    obtain ⟨v, hv⟩ : ∃ v : Var F, v.type = type := by
      rcases htype with rfl | rfl
      · exact ⟨.int 0, rfl⟩
      · exact ⟨.uint 0, rfl⟩
    have hround := @round_goes_on F env ⟨name, [], false, false, v⟩ l s (hv.symm ▸ htype) hnames
      (hv.symm ▸ hwrong)
    obtain ⟨p', hopt, hpass⟩ := hround
    obtain ⟨-, hreject⟩ := hright ⟨[⟨name, [], false, false, v⟩], .noError⟩ ".txt".toList l l []
      [⟨name, [], false, false, v⟩] [] [] ⟨name, [], false, false, v⟩ rfl rfl hv
      (hline.symm ▸ Reads.here [] hskip) (Comes.here _ _ _)
    obtain ⟨err, -, hfalse⟩ := hreject fun hgood => hwrong (Or.inl hgood)
    rw [parse_alone rfl hline hskip hpass (by simp [hopt])] at hfalse
    cases hfalse
  · intro hsafe c filename file line lines ps before rest p htxt hname hp hreads hcomes
    subst hname hp
    constructor
    · rw [(paramLoop_of_comes hcomes).1, List.getElem?_append_right le_rfl, Nat.sub_self]
      exact round_of_safe rest htype hnames hsafe
    · intro hbad
      obtain ⟨huint, hend, hne, hno⟩ := hsafe.resolve_left hbad
      obtain ⟨l', hscan⟩ := (scan_integer htype hnames).1 hend
      have hpass : paramLoop env (p :: rest) l = (p :: rest, true, .reject .invalidNumber) := by
        rw [paramLoop, hscan]
        simp only [assign_garbage env huint hne hno]
      exact ⟨.invalidNumber, Or.inl rfl, parse_of_reject htxt hreads hcomes hpass⟩

theorem integer_right_iff_puint :
    IntegerRight noFloats "PUINT".toList .uint "PUINT = 89\n".toList "89".toList :=
  (integer_right_iff noFloats (l := "PUINT = 89\n".toList) (s := "PUINT = 89\n".toList) (Or.inr rfl)
    (by decide) (by decide) ⟨by decide, by decide, by decide, by decide⟩).mpr
    (Or.inl ⟨89, denotes_iff.mpr ⟨false, 89, by decide, rfl⟩, by decide, by decide⟩)

/-- `PINT=5x` sets `PINT` to 5, and the call returns `true`. -/
theorem pint_takes_garbage :
    ¬ ∀ (name l s : Str) (type : VarType), type = .int ∨ type = .uint → fileLines l = [l] →
      skipped l = false → Names name l s →
        IntegerRight noFloats name type l (word (valueText s)) := by
  intro h
  have hright := h "PINT".toList "PINT=5x\n".toList "PINT=5x\n".toList .int (Or.inl rfl) (by decide)
    (by decide) ⟨by decide, by decide, by decide, by decide⟩
  obtain ⟨-, hreject⟩ := hright (intAndStr 3 "no".toList true) "params.txt".toList
    "PINT=5x\n".toList "PINT=5x\n".toList [] (intAndStr 3 "no".toList true).params [] _ _ (by decide)
    rfl rfl (Reads.here [] (by decide)) (Comes.here _ _ _)
  have hbad : ¬ IntegerText .int (word (valueText "PINT=5x\n".toList)) := by
    rintro ⟨z, hz, -⟩
    obtain ⟨neg, n, hnum, -⟩ := denotes_iff.mp hz
    exact absurd hnum (by
      have hx : numeral (word (valueText "PINT=5x\n".toList)) = some (false, 5, ['x']) := by decide
      rw [hx]
      simp)
  obtain ⟨err, -, hfalse⟩ := hreject hbad
  have hrun : paramParseTxt noFloats (intAndStr 3 "no".toList true) "params.txt".toList
      (some "PINT=5x\n".toList) = some (intAndStr 5 "no".toList true, true) := by rfl
  rw [hrun] at hfalse
  cases hfalse

end DataCommons.Params
