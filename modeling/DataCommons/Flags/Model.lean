import DataCommons.Lib.CString

/-!
# The flag parser of `parser.h`

Strings are lists of characters without the terminator.  The arguments are
distinct strings in memory, so the cut that `*equals = '\0'` makes in one of them
is seen in no other.  `FloatLib` stands for the floating point conversions of the
C library.  The result `none` is a failed assertion or a write past the items of
a list flag.
-/

namespace DataCommons.Flags

open CString

/-- A C string. -/
abbrev Str := List Char

def flagListInitCap : ℕ := 1024

/-- `strtof` and `strtod` with their end pointer and `ERANGE`, and the tests
against `±FLT_MAX` and `±DBL_MAX`. -/
structure FloatLib (F D : Type) where
  strtof : Str → Strto F
  strtod : Str → Strto D
  isFltMax : F → Bool
  isDblMax : D → Bool

inductive FlagError where
  | noError | unknown | noValue | invalidNumber | integerOverflow | floatOverflow
  | doubleOverflow | invalidSizeSuffix
  deriving DecidableEq, Repr

/-- `flag_val_u`, tagged with the `flag_type_e` that says how it is read. -/
inductive FlagVal (F D : Type) where
  | bool (v : Bool)
  | uint8 (v : UInt8)
  | uint16 (v : UInt16)
  | uint32 (v : UInt32)
  | uint64 (v : UInt64)
  | int (v : Int32)
  | float (v : F)
  | double (v : D)
  | size (v : UInt64)
  | str (v : Option Str)
  | list (items : List Str)
  deriving DecidableEq

/-- `flag_t`, without what only the help text reads. -/
structure Flag (F D : Type) where
  name : Str
  val : FlagVal F D
  isMandatory : Bool
  hasChanged : Bool
  deriving DecidableEq

structure FlagCtx (F D : Type) where
  flags : List (Flag F D)
  flagError : FlagError
  flagErrorName : Option Str
  flagErrorValue : Option Str
  programName : Option Str
  restArgc : ℕ
  restArgv : List Str
  deriving DecidableEq

/-- What a call prints: the help, or a text. -/
inductive FlagOut where
  | help
  | text (s : Str)
  deriving DecidableEq

variable {F D : Type}

/-- A `%s`; a null pointer prints as glibc does. -/
def showStr (s : Option Str) : Str := s.getD "(null)".toList

def flagPrintError (c : FlagCtx F D) : Str :=
  let head := "ERROR: -".toList ++ showStr c.flagErrorName
  match c.flagError with
  | .noError => "Task failed succesfully, No error :/\n".toList
  | .unknown => head ++ ": unknown flag\n".toList ++
      "    ".toList ++ showStr c.flagErrorValue ++ " is not a valid flag\n".toList
  | .noValue => head ++ ": no value provided\n".toList
  | .invalidNumber => head ++ ": invalid number\n".toList
  | .integerOverflow => head ++ ": integer overflow\n".toList
  | .floatOverflow => head ++ ": float overflow\n".toList
  | .doubleOverflow => head ++ ": double overflow\n".toList
  | .invalidSizeSuffix => head ++ ": invalid size suffix\n".toList ++
      "    Got ".toList ++ showStr c.flagErrorValue ++ " suffix which is not expected\n".toList

/-! ## Conversions -/

def flagListAppend (items : List Str) (item : Str) : Option (List Str) :=
  if items.length < flagListInitCap then some (items ++ [item]) else none

def boolWord (arg : Str) : Except FlagError Bool :=
  if arg = "1".toList ∨ arg = "true".toList ∨ arg = "yes".toList ∨ arg = "si".toList then .ok true
  else if arg = "0".toList ∨ arg = "false".toList ∨ arg = "no".toList then .ok false
  else .error .unknown

/-- The cases `FLAG_UINT8` to `FLAG_UINT64`, which differ in the largest value. -/
def parseUint (max : ℕ) (arg : Str) : Except FlagError ℕ :=
  let tmp := strtoull arg
  if tmp.rest ≠ [] then .error .invalidNumber
  else if (tmp.value = ullongMax ∧ tmp.erange) ∨ tmp.value > max then .error .integerOverflow
  else .ok tmp.value

def uint8Max : ℕ := 2 ^ 8 - 1
def uint16Max : ℕ := 2 ^ 16 - 1
def uint32Max : ℕ := 2 ^ 32 - 1
def uint64Max : ℕ := 2 ^ 64 - 1

def parseInt (arg : Str) : Except FlagError ℤ :=
  let v := strtol arg
  if v.rest ≠ [] then .error .invalidNumber
  else if (v.value = longMax ∨ v.value = longMin) ∧ v.erange then .error .integerOverflow
  else if v.value > 2 ^ 31 - 1 ∨ v.value < -2 ^ 31 then .error .integerOverflow
  else .ok v.value

def parseFloat (lib : FloatLib F D) (arg : Str) : Except FlagError F :=
  let f := lib.strtof arg
  if f.rest ≠ [] then .error .invalidNumber
  else if lib.isFltMax f.value ∧ f.erange then .error .floatOverflow
  else .ok f.value

/-- The case `FLAG_DOUBLE`, which reports `FLAG_ERROR_FLOAT_OVERFLOW` too. -/
def parseDouble (lib : FloatLib F D) (arg : Str) : Except FlagError D :=
  let d := lib.strtod arg
  if d.rest ≠ [] then .error .invalidNumber
  else if lib.isDblMax d.value ∧ d.erange then .error .floatOverflow
  else .ok d.value

def sizeMult (s2 : Char) : Option ℕ :=
  match s2 with
  | 'K' => some 1024
  | 'M' => some (1024 * 1024)
  | 'G' => some (1024 * 1024 * 1024)
  | 'T' => some (1024 * 1024 * 1024 * 1024)
  | 'P' => some (1024 * 1024 * 1024 * 1024 * 1024)
  | _ => none

def parseSize (arg : Str) : Except FlagError ℕ :=
  let base := strtoull arg
  if base.value = ullongMax ∧ base.erange then .error .integerOverflow
  else
    let mult :=
      match base.rest with
      | [] => some 1
      | [s] => sizeMult s.toUpper
      | _ => none
    match mult with
    | none => .error .invalidNumber
    | some mult =>
      if base.value * mult > uint64Max then .error .integerOverflow else .ok (base.value * mult)

/-- A number is checked also when the option is ignored, and stored when it is
not. -/
def storeNumber {α : Type} (ignore : Bool) (old : α) (r : Except FlagError α) :
    Except FlagError α :=
  r.map fun new => if ignore then old else new

/-- The body of a case of the `switch` once the argument is there: what the flag
holds afterwards. -/
def flagStore (lib : FloatLib F D) (ignore : Bool) (arg : Str) :
    FlagVal F D → Option (Except FlagError (FlagVal F D))
  | .bool v => some ((if ignore then .ok v else boolWord arg).map .bool)
  | .uint8 v => some ((storeNumber ignore v ((parseUint uint8Max arg).map UInt8.ofNat)).map .uint8)
  | .uint16 v =>
    some ((storeNumber ignore v ((parseUint uint16Max arg).map UInt16.ofNat)).map .uint16)
  | .uint32 v =>
    some ((storeNumber ignore v ((parseUint uint32Max arg).map UInt32.ofNat)).map .uint32)
  | .uint64 v =>
    some ((storeNumber ignore v ((parseUint uint64Max arg).map UInt64.ofNat)).map .uint64)
  | .int v => some ((storeNumber ignore v ((parseInt arg).map Int32.ofInt)).map .int)
  | .float v => some ((storeNumber ignore v (parseFloat lib arg)).map .float)
  | .double v => some ((storeNumber ignore v (parseDouble lib arg)).map .double)
  | .size v => some ((storeNumber ignore v ((parseSize arg).map UInt64.ofNat)).map .size)
  | .str v => some (.ok (.str (if ignore then v else some arg)))
  | .list items =>
    if ignore then some (.ok (.list items)) else (flagListAppend items arg).map fun l => .ok (.list l)

/-! ## flag_parse -/

/-- The argument of an option: what follows `=`, or the next token. -/
def fetchArg (equals : Option Str) (args : List Str) : Option (Str × List Str) :=
  match equals with
  | some arg => some (arg, args)
  | none =>
    match args with
    | [] => none
    | arg :: args => some (arg, args)

/-- What the loop over the flags leaves. -/
structure Matched (F D : Type) where
  flags : List (Flag F D)
  args : List Str
  found : Bool
  err : Option FlagError

/-- The loop over the flags: every flag of that name takes an argument. -/
def matchFlags (lib : FloatLib F D) (name : Str) (ignore : Bool) (equals : Option Str) :
    List (Flag F D) → List Str → Option (Matched F D)
  | [], args => some ⟨[], args, false, none⟩
  | f :: fs, args =>
    if f.name = name then
      match fetchArg equals args with
      | none => some ⟨f :: fs, args, false, some .noValue⟩
      | some (arg, args) =>
        match flagStore lib ignore arg f.val with
        | none => none
        | some (.error e) => some ⟨f :: fs, args, false, some e⟩
        | some (.ok v) =>
          match matchFlags lib name ignore equals fs args with
          | none => none
          | some m => some { m with
              flags := { f with val := v, hasChanged := true } :: m.flags, found := true }
    else
      match matchFlags lib name ignore equals fs args with
      | none => none
      | some m => some { m with flags := f :: m.flags }

/-- The loop over the mandatory flags, with what it prints and whether one failed. -/
def checkMandatory (c : FlagCtx F D) : List (Flag F D) → FlagCtx F D × List FlagOut × Bool
  | [] => (c, [], false)
  | f :: fs =>
    if f.isMandatory && !f.hasChanged then
      let c := { c with flagError := .noValue, flagErrorName := some f.name }
      let (c', out, _) := checkMandatory c fs
      (c', .text (flagPrintError c) :: out, true)
    else checkMandatory c fs

/-- The end of `flag_parse`, when no argument is left. -/
def parseEnd (c : FlagCtx F D) : FlagCtx F D × List FlagOut × Bool :=
  let (c', out, mandatoryFailed) := checkMandatory c c.flags
  if mandatoryFailed then (c', out, false) else ({ c' with restArgc := 0, restArgv := [] }, out, true)

/-- `strchr(flag, '=')`, with the string cut there. -/
def cutEquals (flag : Str) : Str × Option Str :=
  match flag.dropWhile (· ≠ '=') with
  | [] => (flag, none)
  | _ :: equals => (flag.takeWhile (· ≠ '='), some equals)

/-- The `while` loop of `flag_parse`; the first argument bounds the number of
rounds. -/
def parseLoop (lib : FloatLib F D) :
    ℕ → FlagCtx F D → List Str → Option (FlagCtx F D × List FlagOut × Bool)
  | _, c, [] => some (parseEnd c)
  | 0, _, _ :: _ => none
  | n + 1, c, flag :: args =>
    if flag.head? ≠ some '-' ∨ flag = "--".toList then
      some ({ c with restArgc := args.length + 1, restArgv := flag :: args }, [], true)
    else
      let flag := flag.drop 1
      let ignore : Bool := flag.head? = some '/'
      let flag := if ignore then flag.drop 1 else flag
      let (flag, equals) := cutEquals flag
      if flag = "-h".toList ∨ flag = "-help".toList then some (c, [.help], true)
      else
        match matchFlags lib flag ignore equals c.flags args with
        | none => none
        | some m =>
          let c := { c with flags := m.flags }
          match m.err with
          | some e => some ({ c with flagError := e, flagErrorName := some flag }, [], false)
          | none =>
            if m.found then parseLoop lib n c m.args
            else some ({ c with flagError := .unknown, flagErrorName := some flag,
                                flagErrorValue := some flag }, [], false)

/-- `flag_parse`.  Every round takes an argument, so their number bounds the
rounds. -/
def flagParse (lib : FloatLib F D) (c : FlagCtx F D) (argv : List Str) :
    Option (FlagCtx F D × List FlagOut × Bool) :=
  match c.programName with
  | some _ => parseLoop lib argv.length c argv
  | none =>
    match argv with
    | [] => none
    | name :: args => parseLoop lib args.length { c with programName := some name } args

end DataCommons.Flags
