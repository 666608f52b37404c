import DataCommons.Flags.Spelling

/-!
# Registering flags

The registration functions of `parser.h`, and `context_reset`.  Slots of the array
behind `flags_count` are not modelled: a registration clears the slot that it takes,
and nothing else reads them.

* `registerAll_eq`: the flags that a sequence of registrations adds;
* `registered_context`: what they make of an empty context.
-/

namespace DataCommons.Flags

variable {F D : Type}

def flagsCap : ℕ := 256

/-- The arguments of a registration function, which `flag_t` keeps.  A list has no
default. -/
structure Registration (F D : Type) where
  name : Str
  desc : Option Str
  isMandatory : Bool
  defVal : FlagVal F D
  lists : ∀ items, defVal = .list items → items = []

def flagBool (name : Str) (isMandatory : Bool) (defVal : Bool) (desc : Option Str) :
    Registration F D :=
  ⟨name, desc, isMandatory, .bool defVal, nofun⟩

def flagUint8 (name : Str) (isMandatory : Bool) (defVal : UInt8) (desc : Option Str) :
    Registration F D :=
  ⟨name, desc, isMandatory, .uint8 defVal, nofun⟩

def flagUint16 (name : Str) (isMandatory : Bool) (defVal : UInt16) (desc : Option Str) :
    Registration F D :=
  ⟨name, desc, isMandatory, .uint16 defVal, nofun⟩

def flagUint32 (name : Str) (isMandatory : Bool) (defVal : UInt32) (desc : Option Str) :
    Registration F D :=
  ⟨name, desc, isMandatory, .uint32 defVal, nofun⟩

def flagUint64 (name : Str) (isMandatory : Bool) (defVal : UInt64) (desc : Option Str) :
    Registration F D :=
  ⟨name, desc, isMandatory, .uint64 defVal, nofun⟩

def flagInt (name : Str) (isMandatory : Bool) (defVal : Int32) (desc : Option Str) :
    Registration F D :=
  ⟨name, desc, isMandatory, .int defVal, nofun⟩

def flagFloat (name : Str) (isMandatory : Bool) (defVal : F) (desc : Option Str) :
    Registration F D :=
  ⟨name, desc, isMandatory, .float defVal, nofun⟩

def flagDouble (name : Str) (isMandatory : Bool) (defVal : D) (desc : Option Str) :
    Registration F D :=
  ⟨name, desc, isMandatory, .double defVal, nofun⟩

def flagStr (name : Str) (isMandatory : Bool) (defVal : Option Str) (desc : Option Str) :
    Registration F D :=
  ⟨name, desc, isMandatory, .str defVal, nofun⟩

def flagSize (name : Str) (isMandatory : Bool) (defVal : UInt64) (desc : Option Str) :
    Registration F D :=
  ⟨name, desc, isMandatory, .size defVal, nofun⟩

def flagList (name : Str) (isMandatory : Bool) (desc : Option Str) : Registration F D :=
  ⟨name, desc, isMandatory, .list [], fun _ h => by cases h; rfl⟩

/-- The slot of a flag behind its registration. -/
def Registration.flag (r : Registration F D) : Flag F D := ⟨r.name, r.defVal, r.isMandatory, false⟩

/-- `flag_new_flag_`, and the default of the type; `none` is the failed assertion. -/
def flagNewFlag (ctx : FlagCtx F D) (r : Registration F D) : Option (FlagCtx F D) :=
  if ctx.flags.length < flagsCap then some { ctx with flags := ctx.flags ++ [r.flag] } else none

def registerAll (ctx : FlagCtx F D) (rs : List (Registration F D)) : Option (FlagCtx F D) :=
  rs.foldlM flagNewFlag ctx

def contextReset (ctx : FlagCtx F D) : FlagCtx F D :=
  { ctx with flags := [], restArgc := 0, programName := none }

/-- The static `flag_ctx` of a fresh program. -/
def flagCtxInit : FlagCtx F D where
  flags := []
  flagError := .noError
  flagErrorName := none
  flagErrorValue := none
  programName := none
  restArgc := 0
  restArgv := []

/-- **The flags that registrations add**, up to `FLAGS_CAP`. -/
theorem registerAll_eq {ctx : FlagCtx F D} (rs : List (Registration F D))
    (hcap : ctx.flags.length ≤ flagsCap) :
    registerAll ctx rs =
      if ctx.flags.length + rs.length ≤ flagsCap then
        some { ctx with flags := ctx.flags ++ rs.map Registration.flag }
      else none := by
  induction rs generalizing ctx with
  | nil =>
    rw [List.length_nil, Nat.add_zero, if_pos hcap, List.map_nil, List.append_nil]
    rfl
  | cons r rs ih =>
    rw [registerAll, List.foldlM_cons, flagNewFlag, List.length_cons]
    by_cases hlt : ctx.flags.length < flagsCap
    · have hlen : (ctx.flags ++ [r.flag]).length = ctx.flags.length + 1 := by simp
      have ih := @ih { ctx with flags := ctx.flags ++ [r.flag] } (by rw [hlen]; exact hlt)
      rw [if_pos hlt, Option.bind_eq_bind, Option.bind_some, ← registerAll, ih, hlen,
        List.append_assoc, Nat.add_assoc, Nat.add_comm 1, List.map_cons, List.singleton_append]
    · rw [if_neg hlt, if_neg (by omega)]
      rfl

/-- The context behind registrations in an empty one. -/
def registered (rs : List (Registration F D)) : FlagCtx F D :=
  { (flagCtxInit : FlagCtx F D) with flags := rs.map Registration.flag }

theorem registerAll_empty {ctx : FlagCtx F D} (hflags : ctx.flags = [])
    (rs : List (Registration F D)) :
    registerAll ctx rs =
      if rs.length ≤ flagsCap then some { ctx with flags := rs.map Registration.flag }
      else none := by
  rw [registerAll_eq rs (by rw [hflags]; exact Nat.zero_le _), hflags, List.length_nil,
    Nat.zero_add, List.nil_append]

theorem registered_context (rs : List (Registration F D)) : Registered (registered rs) where
  programName := rfl
  unchanged := by
    intro f hf
    obtain ⟨r, -, rfl⟩ := List.mem_map.mp hf
    rfl
  lists := by
    intro f hf
    obtain ⟨r, -, rfl⟩ := List.mem_map.mp hf
    exact r.lists

end DataCommons.Flags
