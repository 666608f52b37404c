import DataCommons.Lib.Machine
import DataCommons.Params.Walk

/-!
# Mandatory parameters over many calls

`param_parse_txt` asks for a mark on every mandatory parameter, and no call takes a
mark away: the one of an earlier file will do for a later one.

* `parse_true_iff`: when a call returns `true`;
* `call_right_iff`: when a `true` means that the file itself gave all that is
  mandatory;
* `mandatory_runs_iff`: the same along every run of registrations and calls.
-/

namespace DataCommons.Params

open CString

variable {F : Type}

/-! ## Registering parameters -/

def flagsCap : ℕ := 256

/-- The arguments of a registration function with the variable as it is behind it. -/
structure Registration (F : Type) where
  name : Str
  desc : Str
  isMandatory : Bool
  var : Var F

def paramBool (name : Str) (isMandatory : Bool) (defVal : Bool) (desc : Str) : Registration F :=
  ⟨name, desc, isMandatory, .bool defVal⟩

def paramUint (name : Str) (isMandatory : Bool) (defVal : UInt32) (desc : Str) : Registration F :=
  ⟨name, desc, isMandatory, .uint defVal⟩

def paramInt (name : Str) (isMandatory : Bool) (defVal : Int32) (desc : Str) : Registration F :=
  ⟨name, desc, isMandatory, .int defVal⟩

def paramFloat (name : Str) (isMandatory : Bool) (defVal : F) (desc : Str) : Registration F :=
  ⟨name, desc, isMandatory, .float defVal⟩

/-- `*var = _def` stores a pointer over the variable; `text` is what its bytes are as a
string. -/
def paramStr (name : Str) (isMandatory : Bool) (text : Str) (desc : Str) : Registration F :=
  ⟨name, desc, isMandatory, .str text⟩

/-- The items of the list are left as they are; a list is always mandatory. -/
def paramList (list : ListVar F) (name desc : Str) : Registration F := ⟨name, desc, true, .list list⟩

/-- A binary variable is always mandatory. -/
def paramBin (len : ℕ) (name desc : Str) (defVal : UInt8) : Registration F :=
  ⟨name, desc, true, .binary (List.replicate len defVal)⟩

/-- `param_new_param_` with what the function of the type does; `none` is the failed
assertion. -/
def paramNewParam (c : ParamCtx F) (r : Registration F) : Option (ParamCtx F) :=
  if c.params.length < flagsCap then
    some { c with params := c.params ++ [⟨r.name, r.desc, r.isMandatory, false, r.var⟩] }
  else none

/-- `context_reset`, which nothing calls. -/
def contextReset (c : ParamCtx F) : ParamCtx F := { c with params := [] }

/-- The static `param_ctx` of a fresh program. -/
def paramCtxInit : ParamCtx F := ⟨[], .noError⟩

/-- What a program does: register and reset, write a variable of its own, and call
`ParamParse`; a CSV file has its own table and shares `param_error` only. -/
inductive Call (F : Type) where
  | register (r : Registration F)
  | reset
  | write (i : ℕ) (f : Var F → Var F) (htype : ∀ v, (f v).type = v.type)
  | parseTxt (filename : Str) (file : Option Str)
  | parseCsv (err : ParamError) (ok : Bool)

/-- One step of the program, with what `ParamParse` returns. -/
def callStep (env : Env F) (c : ParamCtx F) : Call F → Option (ParamCtx F × Option Bool)
  | .register r => (paramNewParam c r).map fun c => (c, none)
  | .reset => some (contextReset c, none)
  | .write i f _ =>
    some ({ c with params := c.params.modify i fun p => { p with var := f p.var } }, none)
  | .parseTxt filename file => (paramParseTxt env c filename file).map fun r => (r.1, some r.2)
  | .parseCsv err ok => some ({ c with paramError := err }, some ok)

/-! ## When a call returns true -/

section Calls

variable {env : Env F} {c : ParamCtx F} {filename file : Str}

/-- The file itself assigns a value to the parameter at the place `i`. -/
def GivenBy (env : Env F) (c : ParamCtx F) (file : Str) (i : ℕ) : Prop :=
  Meets env c.params (fileLines file) fun j p l => j = i ∧ Given env p l

/-- The file is read to its end, and something is found in it. -/
structure Completes (env : Env F) (c : ParamCtx F) (file : Str) : Prop where
  defined : ¬ Meets env c.params (fileLines file) fun _ p l => Faulty env p l
  accepted : ¬ Meets env c.params (fileLines file) fun _ p l => Refused env p l
  found : Meets env c.params (fileLines file) fun _ p l => scanParam p l ≠ .miss

theorem completes_iff :
    Completes env c file ↔ (lineLoop env c.params (fileLines file)).2 = (true, .done) := by
  have hdef := @lineLoop_undefined_iff F env c.params (fileLines file)
  have hrej := @lineLoop_reject_iff F env c.params (fileLines file)
  have hfound := @lineLoop_found_iff F env c.params (fileLines file)
  generalize lineLoop env c.params (fileLines file) = r at hdef hrej hfound
  obtain ⟨ps, found, ending⟩ := r
  constructor
  · rintro ⟨hd, ha, hf⟩
    rw [← hdef] at hd
    rw [← hrej] at ha
    rw [← hfound] at hf
    cases ending with
    | done => exact Prod.ext hf rfl
    | reject err => exact absurd ⟨err, rfl⟩ ha
    | undefined => exact absurd rfl hd
  · intro h
    rw [Prod.mk.injEq] at h
    obtain ⟨rfl, rfl⟩ := h
    refine ⟨?_, ?_, hfound.mp rfl⟩
    · rw [← hdef]
      nofun
    · rw [← hrej]
      nofun

/-- The check behind the loop, in the places of the registered parameters. -/
theorem unmarked_iff {ps qs : List (Param F)} (h : List.Forall₂ Registered qs ps) :
    (qs.any fun p => p.isMandatory && !p.hasChanged) = false ↔
      ∀ i p, ps[i]? = some p → p.isMandatory = true → Marked qs i := by
  induction h with
  | nil => simp
  | @cons q p qs ps hq _ ih =>
    rw [List.any_cons, Bool.or_eq_false_iff, ih]
    constructor
    · rintro ⟨hfirst, hrest⟩ i r hr hmand
      cases i with
      | zero =>
        rw [List.getElem?_cons_zero] at hr
        cases hr
        rw [hq.isMandatory, hmand, Bool.true_and, Bool.not_eq_false'] at hfirst
        exact (marked_zero q qs).mpr hfirst
      | succ i => exact hrest i r hr hmand
    · intro hall
      refine ⟨?_, fun i r hr hmand => hall (i + 1) r hr hmand⟩
      cases hmand : q.isMandatory with
      | false => rfl
      | true =>
        have hmark := (marked_zero q qs).mp (hall 0 p rfl (hq.isMandatory ▸ hmand))
        rw [hmark]
        rfl

/-- **A call returns `true` exactly if** the file completes and every mandatory
parameter has a mark, from before or from the file. -/
theorem parse_true_iff (htxt : (strstr filename ".txt".toList).isSome) :
    (∃ c', paramParseTxt env c filename (some file) = some (c', true)) ↔
      Completes env c file ∧
        ∀ i p, c.params[i]? = some p → p.isMandatory = true →
          Marked c.params i ∨ GivenBy env c file i := by
  have hcheck := unmarked_iff (lineLoop_registered env c.params (fileLines file))
  simp only [lineLoop_marked_iff] at hcheck
  rw [completes_iff]
  simp only [GivenBy]
  rw [← hcheck, paramParseTxt_file htxt]
  generalize lineLoop env c.params (fileLines file) = r
  obtain ⟨ps, found, ending⟩ := r
  cases ending with
  | done =>
    cases found with
    | false => simp
    | true =>
      dsimp only
      cases ps.any fun p => p.isMandatory && !p.hasChanged <;> simp
  | reject err => simp
  | undefined => simp

end Calls

/-! ## Marks of earlier files -/

/-- `ParamParse` of a text file returns `true` only if that file assigned a value to
every mandatory parameter. -/
def CallRight (env : Env F) (c : ParamCtx F) : Call F → Prop
  | .parseTxt filename (some file) =>
    (∃ c', paramParseTxt env c filename (some file) = some (c', true)) →
      ∀ i p, c.params[i]? = some p → p.isMandatory = true → GivenBy env c file i
  | .parseTxt filename none => ∀ c', paramParseTxt env c filename none ≠ some (c', true)
  | _ => True

/-- The file does not complete, or gives every mandatory parameter that is marked before
the call, or leaves one that is not. -/
def CallSafe (env : Env F) (c : ParamCtx F) : Call F → Prop
  | .parseTxt filename (some file) =>
    (strstr filename ".txt".toList).isSome → Completes env c file →
      (∀ i p, c.params[i]? = some p → p.isMandatory = true → Marked c.params i →
        GivenBy env c file i) ∨
      ∃ i p, c.params[i]? = some p ∧ p.isMandatory = true ∧ ¬ Marked c.params i ∧
        ¬ GivenBy env c file i
  | _ => True

/-- **One call is right exactly if** no mark of an earlier file stands in for a value
that the file does not give. -/
theorem call_right_iff (env : Env F) (c : ParamCtx F) (call : Call F) :
    CallRight env c call ↔ CallSafe env c call := by
  cases call with
  | parseTxt filename file =>
    cases file with
    | none =>
      refine iff_of_true (fun c' h => ?_) trivial
      rw [paramParseTxt] at h
      split at h <;> cases h
    | some file =>
      rw [CallRight, CallSafe]
      by_cases htxt : (strstr filename ".txt".toList).isSome
      · rw [parse_true_iff htxt]
        constructor
        · intro hright _ hcomplete
          by_cases hall : ∀ i p, c.params[i]? = some p → p.isMandatory = true →
              Marked c.params i ∨ GivenBy env c file i
          · exact Or.inl fun i p hp hmand _ => hright ⟨hcomplete, hall⟩ i p hp hmand
          · push Not at hall
            obtain ⟨i, p, hp, hmand, hmark, hgiven⟩ := hall
            exact Or.inr ⟨i, p, hp, hmand, hmark, hgiven⟩
        · rintro hsafe ⟨hcomplete, hall⟩ i p hp hmand
          rcases hsafe htxt hcomplete with hgiven | ⟨j, q, hq, hmandq, hmark, hno⟩
          · exact (hall i p hp hmand).elim (hgiven i p hp hmand) id
          · exact absurd (hall j q hq hmandq) (not_or.mpr ⟨hmark, hno⟩)
      · refine iff_of_true ?_ fun h => absurd h htxt
        rintro ⟨c', h⟩
        rw [paramParseTxt, if_pos (by simpa using htxt)] at h
        cases h
  | _ => exact Iff.rfl

/-- A mandatory integer and an unsigned one that need not be given. -/
def intAndUint (i : Int32) (n : UInt32) (marked : Bool) : ParamCtx Unit :=
  ⟨[⟨"PINT".toList, "an int value".toList, true, marked, .int i⟩,
    ⟨"PUINT".toList, "a uint param".toList, false, false, .uint n⟩], .noError⟩

end DataCommons.Params
