import Mathlib.Data.List.TakeWhile
import Mathlib.Data.List.Infix
import Mathlib.Data.List.Forall2
import DataCommons.Params.Model

/-!
# What a line gives to a parameter

The search of `param_parse_txt` depends on the name and the registered type of a
parameter only (`scanParam_congr`); a name that is found with a value stands in the
line right before `=` or a blank (`scanParam_eq_miss`), and what is left of the line
is its beginning (`scanParam_cut`).
-/

namespace DataCommons.Params

open CString

variable {F : Type}

/-! ## Registration -/

/-- The type of a list; the buffers of its strings belong to it. -/
inductive ListType where
  | bool | uint | int | float
  | str (bufs : ℕ → Bool)
  | other

/-- `param_type_e`, with the type of a list and the length of a binary variable. -/
inductive VarType where
  | bool | uint | int | float | str
  | list (type : ListType)
  | binary (len : ℕ)

def ListVar.type : ListVar F → ListType
  | .bool _ => .bool
  | .uint _ => .uint
  | .int _ => .int
  | .float _ => .float
  | .str _ bufs => .str bufs
  | .other _ => .other

def Var.type : Var F → VarType
  | .bool _ => .bool
  | .uint _ => .uint
  | .int _ => .int
  | .float _ => .float
  | .str _ => .str
  | .list v => .list v.type
  | .binary v => .binary v.length

/-- Two states of one registered parameter. -/
structure Registered (q p : Param F) : Prop where
  name : q.name = p.name
  isMandatory : q.isMandatory = p.isMandatory
  type : q.var.type = p.var.type

theorem Registered.refl (p : Param F) : Registered p p := ⟨rfl, rfl, rfl⟩

theorem Registered.trans {r q p : Param F} (h : Registered r q) (h' : Registered q p) :
    Registered r p :=
  ⟨h.name.trans h'.name, h.isMandatory.trans h'.isMandatory, h.type.trans h'.type⟩

theorem valueOf_congr {v w : Var F} (h : v.type = w.type) (s : Str) : valueOf v s = valueOf w s := by
  cases v <;> cases w <;> first | rfl | cases h

theorem scanParam_congr {q p : Param F} (h : Registered q p) (line : Str) :
    scanParam q line = scanParam p line := by
  simp only [scanParam, h.name, valueOf_congr h.type]

/-! ## The pieces of a line -/

theorem cutAt_append {c : Char} {a : Str} (h : c ∉ a) (b : Str) :
    cutAt c (a ++ c :: b) = some (a, c :: b) := by
  have hne : ∀ x ∈ a, decide (x ≠ c) = true :=
    fun x hx => decide_eq_true fun e => h (e ▸ hx)
  rw [cutAt, if_pos (List.mem_append_right a List.mem_cons_self),
    List.takeWhile_append_of_pos hne, List.dropWhile_append_of_pos hne,
    List.takeWhile_cons_of_neg (by simp), List.dropWhile_cons_of_neg (by simp), List.append_nil]

/-- The text before `=` is the name that the copy holds when it has no blank. -/
theorem nameOf_append {name : Str} (h : ∀ c ∈ name, c ≠ '=' ∧ c ≠ ' ') (s : Str) :
    nameOf (name ++ '=' :: s) = name := by
  have htake : (name ++ '=' :: s).takeWhile (· ≠ '=') = name := by
    rw [List.takeWhile_append_of_pos fun c hc => decide_eq_true (h c hc).1,
      List.takeWhile_cons_of_neg (by simp), List.append_nil]
  rw [nameOf, htake]
  cases name with
  | nil => rfl
  | cons c cs =>
    have hcs : cs.takeWhile (· ≠ ' ') = cs :=
      List.takeWhile_eq_self_iff.mpr fun d hd =>
        decide_eq_true (h d (List.mem_cons_of_mem c hd)).2
    exact congrArg (c :: ·) hcs

/-- After a run that stops inside the list comes the character that stops it. -/
theorem takeWhile_append_stop {c : Char} {s : Str} (h : c ∈ s) :
    s.takeWhile (· ≠ c) ++ [c] <+: s := by
  induction s with
  | nil => cases h
  | cons d s ih =>
    by_cases hd : d = c
    · subst hd
      rw [List.takeWhile_cons_of_neg (by simp)]
      exact List.cons_prefix_cons.mpr ⟨rfl, List.nil_prefix⟩
    · rw [List.takeWhile_cons_of_pos (by simpa using hd), List.cons_append]
      exact List.cons_prefix_cons.mpr
        ⟨rfl, ih ((List.mem_cons.mp h).resolve_left fun e => hd e.symm)⟩

/-- The name in the copy stands in the line right before `=` or a blank. -/
theorem nameOf_before {s : Str} (h : '=' ∈ s) (hne : nameOf s ≠ []) :
    ∃ c, (c = '=' ∨ c = ' ') ∧ nameOf s ++ [c] <+: s := by
  have hs := takeWhile_append_stop h
  rw [nameOf] at hne ⊢
  generalize hk : s.takeWhile (· ≠ '=') = k at hs hne ⊢
  cases k with
  | nil => exact absurd rfl hne
  | cons d k =>
    by_cases hb : ' ' ∈ k
    · refine ⟨' ', Or.inr rfl, List.IsPrefix.trans ?_ hs⟩
      exact (List.cons_prefix_cons.mpr ⟨rfl, takeWhile_append_stop hb⟩).trans
        (List.prefix_append _ _)
    · have hk' : k.takeWhile (· ≠ ' ') = k :=
        List.takeWhile_eq_self_iff.mpr fun x hx => decide_eq_true fun e => hb (e ▸ hx)
      refine ⟨'=', Or.inl rfl, ?_⟩
      simp only [hk']
      exact hs

/-! ## The search -/

/-- The line has the name right before `=` or a blank. -/
def Mentions (name line : Str) : Prop :=
  ∃ c, (c = '=' ∨ c = ' ') ∧ name ++ [c] <:+: line

instance (name line : Str) : Decidable (Mentions name line) :=
  decidable_of_iff (name ++ ['='] <:+: line ∨ name ++ [' '] <:+: line) <| by
    simp only [Mentions, or_and_right, exists_or, exists_eq_left]

/-- A short line that does not mention a parameter gives it nothing. -/
theorem scanParam_eq_miss {p : Param F} {line : Str} (hname : p.name ≠ [])
    (hlen : line.length < nameSize) (h : ¬ Mentions p.name line) : scanParam p line = .miss := by
  rw [scanParam]
  cases hf : strstr line p.name with
  | none => rfl
  | some s =>
    obtain ⟨hsuf, -⟩ := strstr_eq_some hf
    have hs : ¬ s.length ≥ nameSize := not_le.mpr (lt_of_le_of_lt hsuf.length_le hlen)
    simp only [hs, if_false]
    split
    · rfl
    · next heq =>
      have hkey : nameOf s ≠ p.name := by
        intro hk
        obtain ⟨c, hc, hpre⟩ := nameOf_before (not_not.mp heq) (hk ▸ hname)
        exact h ⟨c, hc, (hk ▸ hpre).isInfix.trans hsuf.isInfix⟩
      rw [if_pos hkey]

/-- A value is cut off at the end of what stays of the line. -/
theorem scanParam_cut {p : Param F} {line v l : Str} (h : scanParam p line = .value v l) :
    l <+: line := by
  rw [scanParam] at h
  split at h
  · cases h
  · split_ifs at h
    split at h
    · cases h
      exact List.take_prefix _ _
    · cases h
    · cases h

/-- `param_parse_txt` on a file that is there and has the extension. -/
theorem paramParseTxt_file {env : Env F} {c : ParamCtx F} {filename file : Str}
    (htxt : (strstr filename ".txt".toList).isSome) :
    paramParseTxt env c filename (some file) =
      match lineLoop env c.params (fileLines file) with
      | (_, _, .undefined) => none
      | (ps, _, .reject err) => some (⟨ps, err⟩, false)
      | (ps, found, .done) =>
        if !found then some (⟨ps, .unknown⟩, false)
        else if ps.any fun p => p.isMandatory && !p.hasChanged then some (⟨ps, .noValue⟩, false)
        else some (⟨ps, c.paramError⟩, true) := by
  have hext : ¬ (strstr filename ".txt".toList).isNone = true := by
    rw [Option.isNone_eq_false_iff.mpr htxt]
    exact Bool.false_ne_true
  rw [paramParseTxt]
  exact if_neg hext

/-! ## The switch keeps the registration -/

theorem binLoop_length (env : Env F) (digits : Str) (bytes : List UInt8) :
    (binLoop env digits bytes).1.length = bytes.length := by
  fun_induction binLoop env digits bytes with
  | case1 => rfl
  | case2 => rfl
  | case3 => rfl
  | case4 => rfl
  | case5 a b digits byte bytes n hn rest ending hrec ih =>
    rw [hrec] at ih
    exact congrArg (· + 1) ih

theorem parseListParam_type (env : Env F) (v : ListVar F) (s : Str) :
    (parseListParam env v s).1.type = v.type := by
  rw [parseListParam]
  split
  · cases v <;> rfl
  · rfl

theorem assignVar_type (env : Env F) (v : Var F) (s : Str) :
    (assignVar env v s).1.type = v.type := by
  cases v with
  | bool b =>
    rw [assignVar]
    split <;> rfl
  | int _ => rfl
  | uint _ =>
    simp only [assignVar]
    split <;> rfl
  | float _ =>
    simp only [assignVar]
    split <;> rfl
  | str _ => rfl
  | list l =>
    have h := parseListParam_type env l s
    rw [assignVar]
    split
    · next heq =>
      rw [heq] at h
      exact congrArg VarType.list h
    · next heq =>
      rw [heq] at h
      exact congrArg VarType.list h
  | binary bytes =>
    simp only [assignVar]
    split
    · rfl
    · exact congrArg VarType.binary (binLoop_length env _ bytes)

theorem assign_registered (env : Env F) (p : Param F) (s : Str) :
    Registered (assign env p s).1 p :=
  ⟨rfl, rfl, assignVar_type env p.var s⟩

end DataCommons.Params
