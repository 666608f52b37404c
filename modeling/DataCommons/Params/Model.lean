import DataCommons.Lib.CString
import DataCommons.Lib.Lines
import DataCommons.Lib.Tokens

/-!
# The text parameters of `file_parser.h`

A character stands for a byte, and a file holds no NUL byte.  Strings and file
contents are lists without the terminator; a pointer into a line is the rest of the
line from there, and `*p = '\0'` cuts the line.  Every registered variable is an
object of its own, the one of a `PARAM_STR` is large enough for a line, and a
`PARAM_UINT` is stored as the low 32 bits; the stores at their widths in one memory
are in `DataCommons.Params.Memory`.  `Env` holds what the file does not fix:
`strtof`, `%.6f` and the byte of `temp` that nothing sets.  An undefined end is an
access outside an object or through a pointer that a failed search gave.
-/

namespace DataCommons.Params

open CString

/-- A C string. -/
abbrev Str := List Char

/-- The bound on the items that `ParseListParam` takes. -/
def listCap : ℕ := 32

def maxBin : ℕ := 2048

/-- `sizeof line`. -/
def lineSize : ℕ := 1024

/-- `sizeof name`. -/
def nameSize : ℕ := 256

/-- `strtof`, `%.6f`, and the third byte of `temp` in the binary branch. -/
structure Env (F : Type) where
  strtof : Str → Strto F
  showFloat : F → Str
  tempByte : Char

inductive ParamError where
  | noError | unknown | noValue | invalidNumber | invalidFileExt | invalidSizeSuffix | binOverflow
  deriving DecidableEq, Repr

/-- `param_list_t`: the items below `count`, by the type of the list.  For strings
`bufs` says which of the pointers point to a buffer; `other` is a list of a type
that has no items. -/
inductive ListVar (F : Type) where
  | bool (items : List Bool)
  | uint (items : List UInt32)
  | int (items : List Int32)
  | float (items : List F)
  | str (items : List Str) (bufs : ℕ → Bool)
  | other (count : ℕ)

/-- The variable behind `ref`, by the `param_type_e` of the parameter. -/
inductive Var (F : Type) where
  | bool (v : Bool)
  | uint (v : UInt32)
  | int (v : Int32)
  | float (v : F)
  | str (v : Str)
  | list (v : ListVar F)
  | binary (v : List UInt8)

structure Param (F : Type) where
  name : Str
  desc : Str
  isMandatory : Bool
  hasChanged : Bool
  var : Var F

/-- `param_ctx_t`, the part of the text parameters. -/
structure ParamCtx (F : Type) where
  params : List (Param F)
  paramError : ParamError

variable {F : Type}

/-! ## ParseListParam -/

inductive Item (α : Type) where
  | ok (a : α)
  | reject
  | undefined

def boolWord (s : Str) : Option Bool :=
  if s = "1".toList ∨ s = "true".toList ∨ s = "yes".toList ∨ s = "si".toList then some true
  else if s = "0".toList ∨ s = "false".toList ∨ s = "no".toList then some false
  else none

def boolItem (_ : ℕ) (s : Str) : Item Bool :=
  match boolWord s with
  | some b => .ok b
  | none => .reject

def uintItem (_ : ℕ) (s : Str) : Item UInt32 :=
  let temp := strtoull s
  if temp.rest ≠ [] ∨ temp.value > 2 ^ 32 - 1 then .reject else .ok (UInt32.ofNat temp.value)

def intItem (_ : ℕ) (s : Str) : Item Int32 :=
  let temp := strtol s
  if temp.rest ≠ [] ∨ temp.value > 2 ^ 31 - 1 ∨ temp.value < -2 ^ 31 then .reject
  else .ok (Int32.ofInt temp.value)

def floatItem (env : Env F) (_ : ℕ) (s : Str) : Item F :=
  let temp := env.strtof s
  if temp.rest ≠ [] then .reject else .ok temp.value

/-- `strncpy` of `sizeof(char *) - 1` characters. -/
def strItem (bufs : ℕ → Bool) (idx : ℕ) (s : Str) : Item Str :=
  if bufs idx then .ok (s.take 7) else .undefined

/-- The loop over the tokens: the items that it stores and what it returns. -/
def takeItems {α : Type} (item : ℕ → Str → Item α) : ℕ → List Str → List α × Option Bool
  | _, [] => ([], some true)
  | idx, token :: tokens =>
    if idx ≥ listCap then ([], some false)
    else
      match item idx token with
      | .reject => ([], some false)
      | .undefined => ([], none)
      | .ok a =>
        let (items, ret) := takeItems item (idx + 1) tokens
        (a :: items, ret)

/-- The items below `count` after the loop; without a stored item the old ones. -/
def storeItems {α : Type} (item : ℕ → Str → Item α) (old : List α) (tokens : List Str) :
    List α × Option Bool :=
  let (items, ret) := takeItems item 0 tokens
  (if items.isEmpty then old else items, ret)

/-- `strtok_r` with the separators `", "`. -/
def tokensOf (s : Str) : List Str := strtok (fun c => c = ',' || c = ' ') s

/-- The loop with the `switch` on the type of the list; a type without items is
refused at the first token. -/
def tokenLoop (env : Env F) (v : ListVar F) (tokens : List Str) : ListVar F × Option Bool :=
  match v with
  | .bool items =>
    let (items, ret) := storeItems boolItem items tokens
    (.bool items, ret)
  | .uint items =>
    let (items, ret) := storeItems uintItem items tokens
    (.uint items, ret)
  | .int items =>
    let (items, ret) := storeItems intItem items tokens
    (.int items, ret)
  | .float items =>
    let (items, ret) := storeItems (floatItem env) items tokens
    (.float items, ret)
  | .str items bufs =>
    let (items, ret) := storeItems (strItem bufs) items tokens
    (.str items bufs, ret)
  | .other count => (.other count, some tokens.isEmpty)

/-- `ParseListParam` on the text up to and including the first `]`; no result where
it is undefined. -/
def parseListParam (env : Env F) (v : ListVar F) (s : Str) : ListVar F × Option Bool :=
  if s.head? = some '[' then tokenLoop env v (tokensOf (s.drop 1).dropLast) else (v, some false)

/-! ## The switch of `param_parse_txt` -/

/-- How a piece of the parser ends: it goes on, it returns `false` with an error, or
it is undefined. -/
inductive Ending where
  | done
  | reject (err : ParamError)
  | undefined
  deriving DecidableEq, Repr

/-- The loop over the digits of a binary value.  After an odd digit `val_start` is
past `val_end` and no longer meets it. -/
def binLoop (env : Env F) : Str → List UInt8 → List UInt8 × Ending
  | [], bytes => (bytes, .done)
  | [_], bytes => (bytes, .undefined)
  | _ :: _ :: _, [] => ([], .undefined)
  | a :: b :: digits, byte :: bytes =>
    match strtoul16 [a, b, env.tempByte] with
    | none => (byte :: bytes, .undefined)
    | some n =>
      let (bytes, ending) := binLoop env digits bytes
      (UInt8.ofNat n :: bytes, ending)

/-- `val_start` of a binary value after the test for `0x`. -/
def binDigits (valStart : Str) : Str :=
  if (strstr valStart "0x".toList).isSome then valStart.drop 2 else valStart

/-- `atoi`, which is `(int) strtol(s, NULL, 10)`. -/
def atoi (s : Str) : Int32 := Int32.ofInt (strtol s).value

/-- The `switch` on the type, with the value text at `val_start`. -/
def assignVar (env : Env F) (v : Var F) (valStart : Str) : Var F × Ending × Bool :=
  match v with
  | .bool _ =>
    match boolWord valStart with
    | some b => (.bool b, .done, true)
    | none => (v, .reject .unknown, false)
  | .int _ => (.int (atoi valStart), .done, true)
  | .uint _ =>
    let temp := strtoull valStart
    if temp.rest ≠ [] then (v, .reject .invalidNumber, false)
    else (.uint (UInt32.ofNat temp.value), .done, true)
  | .float _ =>
    let temp := env.strtof valStart
    if temp.rest ≠ [] then (v, .reject .invalidNumber, false)
    else (.float temp.value, .done, true)
  | .str _ => (.str valStart, .done, true)
  | .list l =>
    -- what ParseListParam returns is not looked at
    match parseListParam env l valStart with
    | (l, some ok) => (.list l, .done, ok)
    | (l, none) => (.list l, .undefined, false)
  | .binary bytes =>
    if (binDigits valStart).length / 2 > maxBin then (v, .reject .binOverflow, false)
    else
      let (bytes, ending) := binLoop env (binDigits valStart) bytes
      (.binary bytes, ending, ending = .done)

/-- The parameter after the `switch`, marked where the value was taken. -/
def assign (env : Env F) (p : Param F) (valStart : Str) : Param F × Ending :=
  let (v, ending, taken) := assignVar env p.var valStart
  ({ p with var := v, hasChanged := p.hasChanged || taken }, ending)

/-! ## The line loop of `param_parse_txt` -/

/-- The text before the first `c` and the pointer to it. -/
def cutAt (c : Char) (s : Str) : Option (Str × Str) :=
  if c ∈ s then some (s.takeWhile (· ≠ c), s.dropWhile (· ≠ c)) else none

/-- The copy of the line from `name_start` on, cut at `=` and then at the first blank
after its first character. -/
def nameOf (nameStart : Str) : Str :=
  match nameStart.takeWhile (· ≠ '=') with
  | [] => []
  | c :: cs => c :: cs.takeWhile (· ≠ ' ')

/-- What the search for a value gives: `val_start` and `val_end`, a failed search, or
an undefined access. -/
inductive Value where
  | value (valStart valEnd : Str)
  | missing
  | undefined

/-- `val_start` and `val_end` from the text after `=` and its blanks, by the type. -/
def valueOf (v : Var F) (s : Str) : Value :=
  match v with
  | .list _ =>
    match cutAt ']' s with
    | some (text, valEnd) => .value (text ++ [']']) (valEnd.drop 1)
    | none => .undefined
  | .str _ =>
    match s with
    | [] => .undefined
    | _ :: s =>
      match cutAt '"' s with
      | some (text, valEnd) => .value text valEnd
      | none => .missing
  | _ =>
    match cutAt ' ' s with
    | some (text, valEnd) => .value text valEnd
    | none =>
      match cutAt '\n' s with
      | some (text, valEnd) => .value text valEnd
      | none => .missing

/-- What one parameter makes of the line: it goes on to the next parameter, leaves
the line, or has a value and the line cut at its end. -/
inductive Scan where
  | miss
  | stop
  | undefined
  | value (valStart line : Str)

/-- The body of the parameter loop up to the `switch`. -/
def scanParam (p : Param F) (line : Str) : Scan :=
  match strstr line p.name with
  | none => .miss
  | some nameStart =>
    if nameStart.length ≥ nameSize then .undefined
    else if '=' ∉ nameStart then .miss
    else if nameOf nameStart ≠ p.name then .miss
    else
      match valueOf p.var (((nameStart.dropWhile (· ≠ '=')).drop 1).dropWhile (· = ' ')) with
      | .value valStart valEnd => .value valStart (line.take (line.length - valEnd.length))
      | .missing => .stop
      | .undefined => .undefined

/-- The loop over the parameters on one line: the parameters, `found`, and how it
ends. -/
def paramLoop (env : Env F) : List (Param F) → Str → List (Param F) × Bool × Ending
  | [], _ => ([], false, .done)
  | p :: ps, line =>
    match scanParam p line with
    | .miss =>
      let (ps, found, ending) := paramLoop env ps line
      (p :: ps, found, ending)
    | .stop => (p :: ps, true, .done)
    | .undefined => (p :: ps, true, .undefined)
    | .value valStart line =>
      match assign env p valStart with
      | (p, .done) =>
        let (ps, _, ending) := paramLoop env ps line
        (p :: ps, true, ending)
      | (p, ending) => (p :: ps, true, ending)

def skipped (line : Str) : Bool :=
  line.head? = some '#' || line.head? = some ' ' || line.head? = some '\n'

def lineLoop (env : Env F) : List (Param F) → List Str → List (Param F) × Bool × Ending
  | ps, [] => (ps, false, .done)
  | ps, line :: lines =>
    if skipped line then lineLoop env ps lines
    else
      match paramLoop env ps line with
      | (ps, found, .done) =>
        let (ps, found', ending) := lineLoop env ps lines
        (ps, found || found', ending)
      | (ps, found, ending) => (ps, found, ending)

def fileLines (file : Str) : List Str := fgetsLines lineSize file

/-- `param_parse_txt` on the file of the name, if there is one; no result where it is
undefined. -/
def paramParseTxt (env : Env F) (c : ParamCtx F) (filename : Str) (file : Option Str) :
    Option (ParamCtx F × Bool) :=
  if (strstr filename ".txt".toList).isNone then some (c, false)
  else
    match file with
    | none => some (c, false)
    | some file =>
      match lineLoop env c.params (fileLines file) with
      | (_, _, .undefined) => none
      | (ps, _, .reject err) => some (⟨ps, err⟩, false)
      | (ps, found, .done) =>
        if !found then some (⟨ps, .unknown⟩, false)
        else if ps.any fun p => p.isMandatory && !p.hasChanged then some (⟨ps, .noValue⟩, false)
        else some (⟨ps, c.paramError⟩, true)

/-! ## `param_save_txt` -/

/-- `%02X`. -/
def showByte (b : UInt8) : Str :=
  let digits := (Nat.toDigits 16 b.toNat).map Char.toUpper
  if digits.length < 2 then '0' :: digits else digits

/-- The items of a list, each with a comma or the bracket behind it. -/
def saveItems {α : Type} (item : α → Str) (items : List α) : Str :=
  if items.isEmpty then [] else List.intercalate [','] (items.map item) ++ [']']

def boolText (b : Bool) : Str := if b then "true".toList else "false".toList

/-- The `%d` of an unsigned value. -/
def showUint (n : UInt32) : Str := showInt n.toInt32.toInt

def saveList (env : Env F) : ListVar F → Str
  | .bool items => saveItems boolText items
  | .uint items => saveItems showUint items
  | .int items => saveItems (fun i => showInt i.toInt) items
  | .float items => saveItems env.showFloat items
  | .str items _ => saveItems (fun s => '"' :: s ++ ['"']) items
  | .other _ => []

/-- The text that is written for a parameter between `=` and the end of the line. -/
def saveValue (env : Env F) (p : Param F) : Str :=
  match p.var with
  | .bool v => boolText v ++ " #".toList ++ p.desc
  | .uint v => showUint v ++ " #".toList ++ p.desc
  | .int v => showInt v.toInt ++ " #".toList ++ p.desc
  | .float v => env.showFloat v ++ " #".toList ++ p.desc
  | .str v => '"' :: v ++ "\" #".toList ++ p.desc
  | .list l => '[' :: saveList env l
  | .binary bytes => "0x".toList ++ bytes.flatMap showByte

def saveLine (env : Env F) (p : Param F) : Str :=
  p.name ++ '=' :: saveValue env p ++ ['\n']

def refusesSave (p : Param F) : Bool :=
  match p.var with
  | .list (.other count) => count ≠ 0
  | _ => false

/-- The loop over the parameters: what is written and what is returned. -/
def saveLoop (env : Env F) : List (Param F) → Str × Bool
  | [] => ([], true)
  | p :: ps =>
    if refusesSave p then (p.name ++ "=[".toList, false)
    else
      let (file, ok) := saveLoop env ps
      (saveLine env p ++ file, ok)

/-- `param_save_txt`: the file, if it is written, and what is returned; undefined is
the `fclose` of a file that does not open. -/
def paramSaveTxt (env : Env F) (c : ParamCtx F) (opens : Bool) : Option (Option Str × Bool) :=
  if c.params.isEmpty then some (none, false)
  else if !opens then none
  else
    let (file, ok) := saveLoop env c.params
    some (some file, ok)

end DataCommons.Params
