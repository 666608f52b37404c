import DataCommons.Lib.Memory
import DataCommons.Params.Safety

/-!
# The stores of `param_parse_txt`

The registered variables as objects in memory, at the sizes of their C types, and
what the `switch` stores through each `ref`: a `PARAM_UINT` is stored as an
`unsigned long int`, a binary value at the length that the file has, and a string
item of a list through the pointer that stands in the list.  The parser's own context
and locals are not part of this memory.  Numbers are stored lowest byte first.

* `storeVar_switch`: what the `switch` can do, the same in every memory;
* `storeVar_changesOnly`: a value that fits changes its own variable only;
* `storeVar_agree`, `storeVar_hit`: one that does not fit sets a byte outside,
  whatever it held;
* `keepsFrame_iff`: nothing but the registered variables changes, in every memory,
  exactly if every value that is stored fits.
-/

namespace DataCommons.Params

open CString

variable {F : Type}

/-- What the machine adds: the bytes of a `float`, and what `strtoul` makes of two
characters in `temp` where a digit stands behind them. -/
structure Target (F : Type) where
  floatBytes : F → Vector UInt8 4
  beyond : Char → Char → UInt8

/-- A registered parameter with its `ref`; what the variable holds is in memory. -/
structure Placed (F : Type) extends Param F where
  ref : ℕ

/-- `sizeof(unsigned long int)`, `sizeof(char *)` and `sizeof(size_t)`. -/
def wordSize : ℕ := 8

/-- The offset of `count` in `param_list_t`, behind `PARAM_LIST_INIT_CAP` items. -/
def countOffset : ℕ := 1024 * wordSize

def Var.size : Var F → ℕ
  | .bool _ => 1
  | .uint _ => 4
  | .int _ => 4
  | .float _ => 4
  | .str _ => wordSize
  | .list _ => countOffset + wordSize + 8
  | .binary bytes => bytes.length

def Placed.extent (p : Placed F) : Extent := ⟨p.ref, p.var.size⟩

/-! ## Stores -/

/-- The lowest `n` bytes of a number. -/
def bytesOf (n v : ℕ) : List UInt8 := (List.range n).map fun i => UInt8.ofNat (v / 256 ^ i)

def charBytes (s : Str) : List UInt8 := s.map fun c => UInt8.ofNat c.toNat

/-- `strncpy`, which pads with zeros. -/
def strncpyBytes (n : ℕ) (s : Str) : List UInt8 :=
  charBytes (s.take n) ++ List.replicate (n - s.length) 0

/-- One item of a list at `item`; nothing where the token is refused. -/
def storeItem (env : Env F) (t : Target F) (l : ListVar F) (item : ℕ) (token : Str) (m : Mem) :
    Option Mem :=
  match l with
  | .bool _ =>
    match boolItem 0 token with
    | .ok b => some (m.store item [if b then 1 else 0])
    | _ => none
  | .uint _ =>
    match uintItem 0 token with
    | .ok n => some (m.store item (bytesOf 4 n.toNat))
    | _ => none
  | .int _ =>
    match intItem 0 token with
    | .ok n => some (m.store item (bytesOf 4 n.toUInt32.toNat))
    | _ => none
  | .float _ =>
    match floatItem env 0 token with
    | .ok x => some (m.store item (t.floatBytes x).toList)
    | _ => none
  | .str _ _ =>
    let m := m.store (m.load8 item) (strncpyBytes (wordSize - 1) token)
    some (m.store (m.load8 item + (wordSize - 1)) [0])
  | .other _ => none

/-- The loop of `ParseListParam`, which sets `count` behind every item. -/
def storeTokens (env : Env F) (t : Target F) (l : ListVar F) (ref : ℕ) : ℕ → List Str → Mem → Mem
  | _, [], m => m
  | idx, token :: tokens, m =>
    if idx ≥ listCap then m
    else
      match storeItem env t l (ref + wordSize * idx) token m with
      | none => m
      | some m =>
        storeTokens env t l ref (idx + 1) tokens
          (m.store (ref + countOffset) (bytesOf wordSize (idx + 1)))

/-- `(uint8_t)strtoul(temp,&end,16)`. -/
def digitByte (env : Env F) (t : Target F) (a b : Char) : UInt8 :=
  match strtoul16 [a, b, env.tempByte] with
  | some n => UInt8.ofNat n
  | none => t.beyond a b

/-- The bytes of the digits; nothing where the loop does not meet `val_end`. -/
def binBytes (env : Env F) (t : Target F) : Str → Option (List UInt8)
  | [] => some []
  | [_] => none
  | a :: b :: digits => (binBytes env t digits).map (digitByte env t a b :: ·)

def listTokens (valStart : Str) : List Str :=
  if valStart.head? = some '[' then tokensOf (valStart.drop 1).dropLast else []

/-- The stores of the `switch` through `ref`; no memory where it does not end. -/
def storeVar (env : Env F) (t : Target F) (v : Var F) (ref : ℕ) (valStart : Str) (m : Mem) :
    Option Mem :=
  match v with
  | .bool _ =>
    match boolWord valStart with
    | some b => some (m.store ref [if b then 1 else 0])
    | none => some m
  | .int _ => some (m.store ref (bytesOf 4 (atoi valStart).toUInt32.toNat))
  | .uint _ =>
    let temp := strtoull valStart
    if temp.rest ≠ [] then some m else some (m.store ref (bytesOf wordSize temp.value))
  | .float _ =>
    let temp := env.strtof valStart
    if temp.rest ≠ [] then some m else some (m.store ref (t.floatBytes temp.value).toList)
  | .str _ => some (m.store ref (charBytes valStart ++ [0]))
  | .list l => some (storeTokens env t l ref 0 (listTokens valStart) m)
  | .binary _ =>
    if (binDigits valStart).length / 2 > maxBin then some m
    else (binBytes env t (binDigits valStart)).map (m.store ref)

/-- The loop over the parameters on one line: the memory behind it, and whether
the parser goes on to the next line. -/
def lineStores (env : Env F) (t : Target F) : List (Placed F) → Str → Mem → Option (Mem × Bool)
  | [], _, m => some (m, true)
  | p :: ps, line, m =>
    match scanParam p.toParam line with
    | .miss => lineStores env t ps line m
    | .stop => some (m, true)
    | .undefined => none
    | .value valStart line =>
      match storeVar env t p.var p.ref valStart m with
      | none => none
      | some m => if rejects env p.var valStart then some (m, false) else lineStores env t ps line m

def fileStores (env : Env F) (t : Target F) (ps : List (Placed F)) : List Str → Mem → Option Mem
  | [], m => some m
  | line :: lines, m =>
    if skipped line then fileStores env t ps lines m
    else
      match lineStores env t ps line m with
      | none => none
      | some (m, true) => fileStores env t ps lines m
      | some (m, false) => some m

/-- The memory behind `param_parse_txt` on a file with the given text. -/
def paramParseMem (env : Env F) (t : Target F) (ps : List (Placed F)) (filename text : Str)
    (m : Mem) : Option Mem :=
  if (strstr filename ".txt".toList).isNone then some m
  else fileStores env t ps (fileLines text) m

/-! ## The property -/

def setOn (env : Env F) : List (Placed F) → Str → List (Placed F)
  | [], _ => []
  | p :: ps, line =>
    match scanParam p.toParam line with
    | .miss => setOn env ps line
    | .value valStart line => p :: if rejects env p.var valStart then [] else setOn env ps line
    | _ => []

/-- Every line leaves the variables that it does not set. -/
def LinesKeep (env : Env F) (t : Target F) (ps : List (Placed F)) : List Str → Mem → Prop
  | [], _ => True
  | line :: lines, m =>
    if skipped line then LinesKeep env t ps lines m
    else
      ∀ m' more, lineStores env t ps line m = some (m', more) →
        (∀ q ∈ ps, q ∉ setOn env ps line → ∀ x, q.extent.Has x → m' x = m x) ∧
          (more = true → LinesKeep env t ps lines m')

/-- **The frame of `param_parse_txt`**: wherever the variables are, apart from each
other, and whatever the memory holds, no byte outside them changes, and no line
changes a byte of a variable that it does not set. -/
def KeepsFrame (env : Env F) (t : Target F) (params : List (Param F)) (filename text : Str) : Prop :=
  ∀ ps : List (Placed F), ps.map Placed.toParam = params →
    (ps.Pairwise fun p q => p.extent.Apart q.extent) → ∀ m,
      (∃ m', paramParseMem env t ps filename text m = some m' ∧
        ∀ x, (∀ p ∈ ps, ¬ p.extent.Has x) → m' x = m x) ∧
      ((strstr filename ".txt".toList).isSome → LinesKeep env t ps (fileLines text) m)

/-! ## Values that fit -/

def ListVar.holdsStrings : ListVar F → Bool
  | .str _ _ => true
  | _ => false

def Var.holdsStrings : Var F → Bool
  | .list l => l.holdsStrings
  | _ => false

/-- A value that is stored inside its variable or not at all: an unsigned number is
refused, a string has at most seven characters, a list of strings has no item, and a
binary value has at most as many bytes as its variable. -/
def Fits (v : Var F) (valStart : Str) : Prop :=
  match v with
  | .uint _ => (strtoull valStart).rest ≠ []
  | .str _ => valStart.length < wordSize
  | .list l => l.holdsStrings = true → listTokens valStart = []
  | .binary bytes =>
    (binDigits valStart).length / 2 > maxBin ∨ (binDigits valStart).length / 2 ≤ bytes.length
  | _ => True

theorem bytesOf_length (n v : ℕ) : (bytesOf n v).length = n := by
  rw [bytesOf, List.length_map, List.length_range]

theorem charBytes_length (s : Str) : (charBytes s).length = s.length := List.length_map _

theorem strncpyBytes_length (n : ℕ) (s : Str) : (strncpyBytes n s).length = n := by
  rw [strncpyBytes, List.length_append, charBytes_length, List.length_take,
    List.length_replicate]
  omega

section Stores

variable {env : Env F} {t : Target F}

theorem binBytes_even (env : Env F) (t : Target F) {digits : Str} (h : digits.length % 2 = 0) :
    ∃ bytes, binBytes env t digits = some bytes ∧ bytes.length = digits.length / 2 := by
  fun_induction binBytes env t digits with
  | case1 => exact ⟨[], rfl, rfl⟩
  | case2 => cases h
  | case3 a b digits ih =>
    simp only [List.length_cons] at h
    obtain ⟨bytes, hb, hlen⟩ := ih (by omega)
    refine ⟨digitByte env t a b :: bytes, by rw [hb, Option.map_some], ?_⟩
    simp only [List.length_cons]
    omega

theorem even_of_binBytes {digits : Str} {bytes : List UInt8}
    (h : binBytes env t digits = some bytes) : digits.length % 2 = 0 := by
  fun_induction binBytes env t digits generalizing bytes with
  | case1 => rfl
  | case2 => cases h
  | case3 a b digits ih =>
    obtain ⟨rest, hrest, -⟩ := Option.map_eq_some_iff.mp h
    have := ih hrest
    simp only [List.length_cons]
    omega

/-- **What an item that is no string stores**: nothing in any memory, or bytes that fit in
its place. -/
theorem storeItem_plain (env : Env F) (t : Target F) {l : ListVar F} (hl : l.holdsStrings = false)
    (token : Str) :
    (∀ item m, storeItem env t l item token m = none) ∨
      ∃ out, out.length ≤ wordSize ∧
        ∀ item m, storeItem env t l item token m = some (m.store item out) := by
  cases l with
  | bool items =>
    simp only [storeItem]
    split
    · exact Or.inr ⟨_, by simp [wordSize], fun _ _ => rfl⟩
    · exact Or.inl fun _ _ => rfl
  | uint items =>
    simp only [storeItem]
    split
    · exact Or.inr ⟨_, by simp [bytesOf_length, wordSize], fun _ _ => rfl⟩
    · exact Or.inl fun _ _ => rfl
  | int items =>
    simp only [storeItem]
    split
    · exact Or.inr ⟨_, by simp [bytesOf_length, wordSize], fun _ _ => rfl⟩
    · exact Or.inl fun _ _ => rfl
  | float items =>
    simp only [storeItem]
    split
    · exact Or.inr ⟨_, by simp [wordSize], fun _ _ => rfl⟩
    · exact Or.inl fun _ _ => rfl
  | str items bufs => cases hl
  | other n => exact Or.inl fun _ _ => rfl

/-- An item that is no string is stored in its place. -/
theorem storeItem_changesOnly {l : ListVar F} (hl : l.holdsStrings = false) {item : ℕ} {token : Str}
    {m m' : Mem} (h : storeItem env t l item token m = some m') :
    Mem.ChangesOnly ⟨item, wordSize⟩ m m' := by
  rcases storeItem_plain env t hl token with hnone | ⟨out, hlen, hsome⟩
  · rw [hnone] at h
    cases h
  · rw [hsome] at h
    cases h
    exact Mem.store_changesOnly le_rfl (Nat.add_le_add_left hlen item)

theorem storeTokens_changesOnly {l : ListVar F} (hl : l.holdsStrings = false) (ref idx : ℕ)
    (tokens : List Str) (m : Mem) :
    Mem.ChangesOnly ⟨ref, countOffset + wordSize + 8⟩ m (storeTokens env t l ref idx tokens m) := by
  induction tokens generalizing idx m with
  | nil => exact Mem.ChangesOnly.refl _ m
  | cons token tokens ih =>
    rw [storeTokens]
    by_cases hidx : idx ≥ listCap
    · rw [if_pos hidx]
      exact Mem.ChangesOnly.refl _ m
    · rw [if_neg hidx]
      cases hitem : storeItem env t l (ref + wordSize * idx) token m with
      | none => exact Mem.ChangesOnly.refl _ m
      | some m₁ =>
        have hfirst : Mem.ChangesOnly ⟨ref, countOffset + wordSize + 8⟩ m m₁ := by
          intro x hx
          refine storeItem_changesOnly hl hitem x fun hin => hx ?_
          simp only [Extent.Has, listCap, countOffset, wordSize] at hidx hin ⊢
          omega
        have hcount : ref + countOffset + wordSize ≤ ref + (countOffset + wordSize + 8) := by omega
        refine (hfirst.trans (Mem.store_changesOnly (Nat.le_add_right _ _) ?_)).trans (ih _ _)
        rw [bytesOf_length]
        exact hcount

/-- What the `switch` does in every memory: nothing, bytes stored at `ref`, the loop of
`ParseListParam`, or no end. -/
inductive Switch (env : Env F) (t : Target F) (v : Var F) (valStart : Str) : Prop
  | nothing (hends : SwitchEnds v valStart) (hfits : Fits v valStart)
      (h : ∀ ref m, storeVar env t v ref valStart m = some m)
  | bytes (out : List UInt8) (hends : SwitchEnds v valStart)
      (hfits : Fits v valStart ↔ out.length ≤ v.size)
      (h : ∀ ref m, storeVar env t v ref valStart m = some (m.store ref out))
  | list (l : ListVar F) (hv : v = .list l)
  | endless (hends : ¬ SwitchEnds v valStart)
      (h : ∀ ref m, storeVar env t v ref valStart m = none)

theorem storeVar_switch (env : Env F) (t : Target F) (v : Var F) (valStart : Str) :
    Switch env t v valStart := by
  cases v with
  | bool b =>
    cases hb : boolWord valStart with
    | none => exact .nothing trivial trivial fun ref m => by rw [storeVar, hb]
    | some b =>
      refine .bytes [if b then 1 else 0] trivial (iff_of_true trivial le_rfl) fun ref m => ?_
      rw [storeVar, hb]
  | uint n =>
    by_cases hrest : (strtoull valStart).rest ≠ []
    · exact .nothing trivial hrest fun ref m => if_pos hrest
    · refine .bytes _ trivial (iff_of_false hrest ?_) fun ref m => if_neg hrest
      rw [bytesOf_length]
      exact not_le.mpr (by decide : 4 < wordSize)
  | int i =>
    refine .bytes _ trivial (iff_of_true trivial ?_) fun _ _ => rfl
    rw [bytesOf_length]
    exact le_rfl
  | float x =>
    by_cases hrest : (env.strtof valStart).rest ≠ []
    · exact .nothing trivial trivial fun ref m => if_pos hrest
    · refine .bytes _ trivial (iff_of_true trivial ?_) fun ref m => if_neg hrest
      rw [Vector.length_toList]
      exact le_rfl
  | str s =>
    refine .bytes _ trivial ?_ fun _ _ => rfl
    rw [List.length_append, charBytes_length, List.length_singleton]
    exact Iff.rfl
  | list l => exact .list l rfl
  | binary bytes =>
    by_cases hlong : (binDigits valStart).length / 2 > maxBin
    · exact .nothing (Or.inl hlong) (Or.inl hlong) fun ref m => if_pos hlong
    · cases hout : binBytes env t (binDigits valStart) with
      | none =>
        refine .endless (fun hends => ?_) fun ref m => by rw [storeVar, if_neg hlong, hout]; rfl
        obtain ⟨out, hsome, -⟩ := binBytes_even env t
          ((hexEnds_iff _).mp (hends.resolve_left hlong))
        cases hout.symm.trans hsome
      | some out =>
        have heven := even_of_binBytes hout
        refine .bytes out (Or.inr ((hexEnds_iff _).mpr heven)) ?_ fun ref m => by
          rw [storeVar, if_neg hlong, hout]; rfl
        obtain ⟨out', hout', hlen⟩ := binBytes_even env t heven
        cases hout.symm.trans hout'
        rw [hlen]
        exact or_iff_right hlong

/-- **A value that fits changes its own variable only.** -/
theorem storeVar_changesOnly (env : Env F) (t : Target F) {v : Var F} {valStart : Str}
    (hends : SwitchEnds v valStart) (hfits : Fits v valStart) (ref : ℕ) (m : Mem) :
    ∃ m', storeVar env t v ref valStart m = some m' ∧ Mem.ChangesOnly ⟨ref, v.size⟩ m m' := by
  cases storeVar_switch env t v valStart with
  | nothing _ _ h => exact ⟨m, h ref m, Mem.ChangesOnly.refl _ m⟩
  | bytes out _ hsize h =>
    have hlen := Nat.add_le_add_left (hsize.mp hfits) ref
    exact ⟨_, h ref m, Mem.store_changesOnly le_rfl hlen⟩
  | list l hv =>
    subst hv
    refine ⟨_, rfl, ?_⟩
    cases hl : l.holdsStrings with
    | true =>
      rw [hfits hl]
      exact Mem.ChangesOnly.refl _ m
    | false => exact storeTokens_changesOnly hl ref 0 _ m
  | endless hnot _ => exact absurd hends hnot

/-- A list of strings into which nothing is stored is not changed. -/
theorem storeVar_strings {v : Var F} {valStart : Str} (hstr : v.holdsStrings = true)
    (hfits : Fits v valStart) (ref : ℕ) (m : Mem) :
    storeVar env t v ref valStart m = some m := by
  cases v with
  | list l => rw [storeVar, hfits hstr, storeTokens]
  | _ => cases hstr

end Stores

/-! ## Enough -/

/-- What a parameter that the loop comes to must find: the line is harmless, and its
value fits. -/
def Sound (r : Param F × Str) : Prop :=
  Harmless r.1 r.2 ∧ ∀ valStart l, scanParam r.1 r.2 = .value valStart l → Fits r.1.var valStart

/-- The `switch` does not return `false` on the line. -/
def goesOn (env : Env F) : List (Param F) → Str → Bool
  | [], _ => true
  | p :: ps, line =>
    match scanParam p line with
    | .miss => goesOn env ps line
    | .value valStart line => !rejects env p.var valStart && goesOn env ps line
    | _ => true

/-- The lines that are scanned: not those that are skipped, and none behind a line on
which the parser returns. -/
def scannedLines (env : Env F) (ps : List (Param F)) : List Str → List Str
  | [] => []
  | line :: lines =>
    if skipped line then scannedLines env ps lines
    else line :: if goesOn env ps line then scannedLines env ps lines else []

section Runs

variable {env : Env F} {t : Target F}

theorem setOn_subset {ps : List (Placed F)} {line : Str} {p : Placed F}
    (h : p ∈ setOn env ps line) : p ∈ ps := by
  induction ps generalizing line with
  | nil => cases h
  | cons q ps ih =>
    rw [setOn] at h
    cases hscan : scanParam q.toParam line with
    | miss =>
      simp only [hscan] at h
      exact List.mem_cons_of_mem q (ih h)
    | stop => simp [hscan] at h
    | undefined => simp [hscan] at h
    | value valStart l =>
      simp only [hscan, List.mem_cons] at h
      rcases h with rfl | h
      · exact List.mem_cons_self
      · split at h
        · cases h
        · exact List.mem_cons_of_mem q (ih h)

/-- **A line whose values fit** changes only the variables that it sets. -/
theorem lineStores_changes {ps : List (Placed F)} {line : Str}
    (h : ∀ r ∈ reached env (ps.map Placed.toParam) line, Sound r) (m : Mem) :
    ∃ m', lineStores env t ps line m = some (m', goesOn env (ps.map Placed.toParam) line) ∧
      ∀ x, (∀ p ∈ setOn env ps line, ¬ p.extent.Has x) → m' x = m x := by
  induction ps generalizing line m with
  | nil => exact ⟨m, rfl, fun _ _ => rfl⟩
  | cons p ps ih =>
    rw [List.map_cons, reached, List.forall_mem_cons] at h
    obtain ⟨⟨hharm, hfit⟩, hrest⟩ := h
    obtain ⟨hdef, hends⟩ := (harmless_iff _ _).mp hharm
    rw [List.map_cons, lineStores, goesOn]
    simp only [setOn]
    cases hscan : scanParam p.toParam line with
    | miss =>
      simp only [hscan] at hrest
      exact ih hrest m
    | stop => exact ⟨m, rfl, fun _ _ => rfl⟩
    | undefined => exact absurd hscan hdef
    | value valStart l =>
      obtain ⟨m₁, hm₁, hch⟩ := storeVar_changesOnly env t (hends _ _ hscan)
        (hfit _ _ hscan) p.ref m
      simp only [hscan] at hrest
      cases hrej : rejects env p.var valStart with
      | true =>
        refine ⟨m₁, by simp [hm₁, hrej], fun x hx => ?_⟩
        exact hch x (hx p List.mem_cons_self)
      | false =>
        rw [hrej] at hrest
        obtain ⟨m', hm', hch'⟩ := ih hrest m₁
        refine ⟨m', by simp [hm₁, hrej, hm'], fun x hx => ?_⟩
        rw [hch' x fun q hq => hx q (List.mem_cons_of_mem p (by simpa [hrej] using hq))]
        exact hch x (hx p List.mem_cons_self)

/-- **A file whose values fit** changes the variables only, line by line those that
the line sets. -/
theorem fileStores_changes {ps : List (Placed F)}
    (hapart : ps.Pairwise fun p q => p.extent.Apart q.extent) {lines : List Str}
    (h : ∀ line ∈ scannedLines env (ps.map Placed.toParam) lines,
      ∀ r ∈ reached env (ps.map Placed.toParam) line, Sound r) (m : Mem) :
    (∃ m', fileStores env t ps lines m = some m' ∧
      ∀ x, (∀ p ∈ ps, ¬ p.extent.Has x) → m' x = m x) ∧ LinesKeep env t ps lines m := by
  induction lines generalizing m with
  | nil => exact ⟨⟨m, rfl, fun _ _ => rfl⟩, trivial⟩
  | cons line lines ih =>
    rw [scannedLines] at h
    rw [fileStores, LinesKeep]
    by_cases hskip : skipped line = true
    · rw [if_pos hskip] at h
      rw [if_pos hskip, if_pos hskip]
      exact ih h m
    · rw [if_neg hskip, List.forall_mem_cons] at h
      rw [if_neg hskip, if_neg hskip]
      obtain ⟨m₁, hm₁, hch⟩ := lineStores_changes (t := t) h.1 m
      have hothers : ∀ q ∈ ps, q ∉ setOn env ps line → ∀ x, q.extent.Has x → m₁ x = m x := by
        intro q hq hnot x hx
        refine hch x fun p hp hpx => ?_
        have hne : p ≠ q := fun e => hnot (e ▸ hp)
        exact Extent.apart_of_pairwise hapart (setOn_subset hp) hq hne x hpx hx
      have houter : ∀ x, (∀ p ∈ ps, ¬ p.extent.Has x) → m₁ x = m x :=
        fun x hx => hch x fun p hp => hx p (setOn_subset hp)
      rw [hm₁]
      cases hgo : goesOn env (ps.map Placed.toParam) line with
      | true =>
        rw [hgo] at h
        obtain ⟨⟨m', hm', hch'⟩, hlines⟩ := ih h.2 m₁
        refine ⟨⟨m', hm', fun x hx => (hch' x hx).trans (houter x hx)⟩, ?_⟩
        intro m₂ more he
        cases he
        exact ⟨hothers, fun _ => hlines⟩
      | false =>
        refine ⟨⟨m₁, rfl, houter⟩, ?_⟩
        intro m₂ more he
        cases he
        exact ⟨hothers, fun h => Bool.noConfusion h⟩

end Runs

/-! ## Two memories -/

section Pair

variable {env : Env F} {t : Target F}

/-- From two memories the same item is stored, or none, and where they agreed they still
do. -/
theorem storeItem_agree (env : Env F) (t : Target F) (l : ListVar F) {item : ℕ} (token : Str)
    {m₁ m₂ : Mem} (h : ∀ i < 8, m₁ (item + i) = m₂ (item + i)) :
    (storeItem env t l item token m₁ = none ∧ storeItem env t l item token m₂ = none) ∨
      ∃ n₁ n₂, storeItem env t l item token m₁ = some n₁ ∧
        storeItem env t l item token m₂ = some n₂ ∧ ∀ x, m₁ x = m₂ x → n₁ x = n₂ x := by
  cases hl : l.holdsStrings with
  | false =>
    rcases storeItem_plain env t hl token with hnone | ⟨out, -, hsome⟩
    · exact Or.inl ⟨hnone item m₁, hnone item m₂⟩
    · exact Or.inr ⟨_, _, hsome item m₁, hsome item m₂, fun x hx => Mem.store_congr hx _ _⟩
  | true =>
    cases l with
    | str items bufs =>
      have hp := Mem.load8_congr h
      have hq := Mem.load8_congr fun i hi =>
        Mem.store_congr (h i hi) (m₂.load8 item) (strncpyBytes (wordSize - 1) token)
      simp only [storeItem, hp]
      rw [hq]
      exact Or.inr ⟨_, _, rfl, rfl, fun x hx => Mem.store_congr (Mem.store_congr hx _ _) _ _⟩
    | _ => cases hl

/-- A string item sets the byte that its pointer points to. -/
theorem storeItem_hit {items : List Str} {bufs : ℕ → Bool} {item : ℕ} {token : Str}
    {m₁ m₂ n₁ n₂ : Mem} (h : ∀ i < 8, m₁ (item + i) = m₂ (item + i))
    (h₁ : storeItem env t (.str items bufs) item token m₁ = some n₁)
    (h₂ : storeItem env t (.str items bufs) item token m₂ = some n₂) :
    n₁ (m₁.load8 item) = n₂ (m₁.load8 item) := by
  have hp := Mem.load8_congr h
  have hq := Mem.load8_congr fun i hi =>
    Mem.store_congr (h i hi) (m₂.load8 item) (strncpyBytes (wordSize - 1) token)
  simp only [storeItem, hp, hq, Option.some.injEq] at h₁ h₂
  rw [← h₁, ← h₂, hp]
  refine Mem.store_congr (Mem.store_inside _ _ le_rfl ?_) _ _
  rw [strncpyBytes_length]
  exact Nat.lt_add_of_pos_right (by decide)

theorem storeTokens_agree (l : ListVar F) {ref : ℕ} (idx : ℕ) (tokens : List Str) {m₁ m₂ : Mem}
    (h : ∀ x, (Extent.mk ref (countOffset + wordSize + 8)).Has x → m₁ x = m₂ x) {x : ℕ}
    (hx : m₁ x = m₂ x) :
    storeTokens env t l ref idx tokens m₁ x = storeTokens env t l ref idx tokens m₂ x := by
  induction tokens generalizing idx m₁ m₂ with
  | nil => exact hx
  | cons token tokens ih =>
    rw [storeTokens, storeTokens]
    by_cases hidx : idx ≥ listCap
    · rw [if_pos hidx, if_pos hidx]
      exact hx
    · rw [if_neg hidx, if_neg hidx]
      have hcell : ∀ i < 8, m₁ (ref + wordSize * idx + i) = m₂ (ref + wordSize * idx + i) := by
        intro i hi
        apply h
        simp only [Extent.Has, listCap, countOffset, wordSize] at hidx ⊢
        omega
      rcases storeItem_agree env t l token hcell with
        ⟨h₁, h₂⟩ | ⟨n₁, n₂, h₁, h₂, hagree⟩
      · simp only [h₁, h₂]
        exact hx
      · simp only [h₁, h₂]
        exact ih _ (fun y hy => Mem.store_congr (hagree y (h y hy)) _ _)
          (Mem.store_congr (hagree x hx) _ _)

/-- **Where two memories agree, they agree after the `switch`**, if they agree on the
variable. -/
theorem storeVar_agree {v : Var F} {ref : ℕ} {valStart : Str} {m₁ m₂ n₁ n₂ : Mem}
    (h : ∀ x, (Extent.mk ref v.size).Has x → m₁ x = m₂ x)
    (h₁ : storeVar env t v ref valStart m₁ = some n₁)
    (h₂ : storeVar env t v ref valStart m₂ = some n₂) {x : ℕ} (hx : m₁ x = m₂ x) : n₁ x = n₂ x := by
  cases storeVar_switch env t v valStart with
  | nothing _ _ hstore =>
    rw [hstore] at h₁ h₂
    cases h₁
    cases h₂
    exact hx
  | bytes out _ _ hstore =>
    rw [hstore] at h₁ h₂
    cases h₁
    cases h₂
    exact Mem.store_congr hx _ _
  | list l hv =>
    subst hv
    cases h₁
    cases h₂
    exact storeTokens_agree l 0 _ h hx
  | endless _ hstore =>
    rw [hstore] at h₁
    cases h₁

/-- An item that is stored in a list of strings sets the byte that the first pointer
points to. -/
theorem storeTokens_hit {l : ListVar F} (hstr : l.holdsStrings = true) {ref : ℕ} {token : Str}
    (tokens : List Str) {m₁ m₂ : Mem}
    (h : ∀ x, (Extent.mk ref (countOffset + wordSize + 8)).Has x → m₁ x = m₂ x) :
    storeTokens env t l ref 0 (token :: tokens) m₁ (m₁.load8 ref)
      = storeTokens env t l ref 0 (token :: tokens) m₂ (m₁.load8 ref) := by
  have hcell : ∀ i < 8, m₁ (ref + wordSize * 0 + i) = m₂ (ref + wordSize * 0 + i) := by
    intro i hi
    apply h
    simp only [Extent.Has, countOffset, wordSize]
    omega
  cases l with
  | str items bufs =>
    rcases storeItem_agree env t (.str items bufs) token hcell with
      ⟨hn, -⟩ | ⟨k₁, k₂, hk₁, hk₂, hagree⟩
    · cases hn
    · have hset : k₁ (m₁.load8 ref) = k₂ (m₁.load8 ref) := storeItem_hit hcell hk₁ hk₂
      rw [storeTokens, storeTokens, if_neg (by decide), if_neg (by decide), hk₁, hk₂]
      exact storeTokens_agree _ _ _
        (fun y hy => Mem.store_congr (hagree y (h y hy)) _ _) (Mem.store_congr hset _ _)
  | _ => cases hstr

/-- **A value that does not fit** sets the byte behind its variable, whatever it held,
or the one that the first pointer of a list of strings points to. -/
theorem storeVar_hit {v : Var F} {ref : ℕ} {valStart : Str} {m₁ m₂ n₁ n₂ : Mem}
    (hbad : ¬ Fits v valStart) (h : ∀ x, (Extent.mk ref v.size).Has x → m₁ x = m₂ x)
    (h₁ : storeVar env t v ref valStart m₁ = some n₁)
    (h₂ : storeVar env t v ref valStart m₂ = some n₂) :
    n₁ (ref + v.size) = n₂ (ref + v.size) ∨
      (v.holdsStrings = true ∧ n₁ (m₁.load8 ref) = n₂ (m₁.load8 ref)) := by
  cases storeVar_switch env t v valStart with
  | nothing _ hfits _ => exact absurd hfits hbad
  | bytes out _ hsize hstore =>
    have hlong : v.size < out.length := not_le.mp fun hle => hbad (hsize.mpr hle)
    rw [hstore] at h₁ h₂
    cases h₁
    cases h₂
    exact Or.inl (Mem.store_inside _ _ (Nat.le_add_right _ _) (Nat.add_lt_add_left hlong ref))
  | list l hv =>
    subst hv
    simp only [Fits, Classical.not_imp] at hbad
    obtain ⟨hstr, htokens⟩ := hbad
    obtain ⟨token, tokens, ht⟩ := List.exists_cons_of_ne_nil htokens
    rw [storeVar, ht] at h₁ h₂
    cases h₁
    cases h₂
    exact Or.inr ⟨hstr, storeTokens_hit hstr tokens h⟩
  | endless _ hstore =>
    rw [hstore] at h₁
    cases h₁

end Pair

/-! ## Two runs -/

/-- An address that no registered variable has. -/
def Outside (ps : List (Placed F)) (x : ℕ) : Prop := ∀ p ∈ ps, ¬ p.extent.Has x

/-- Some byte outside is the same in both memories. -/
def Hit (ps : List (Placed F)) (m₁ m₂ : Mem) : Prop := ∃ x, Outside ps x ∧ m₁ x = m₂ x

/-- Where the pointer of eight bytes `1` points to. -/
def spare : ℕ := Mem.load8 (fun _ => 1) 0

/-- The first pointer of each list of strings has all its bytes `1`. -/
def Intact (ps : List (Placed F)) (m : Mem) : Prop :=
  ∀ p ∈ ps, p.var.holdsStrings = true → ∀ i < 8, m (p.ref + i) = 1

/-- Variables with a free byte behind each, and away from `spare`. -/
structure Spread (ps : List (Placed F)) : Prop where
  apart : ps.Pairwise fun p q => p.extent.Apart q.extent
  gap : ∀ p ∈ ps, Outside ps (p.ref + p.var.size)
  spare : Outside ps spare

section Runs

variable {env : Env F} {t : Target F} {all : List (Placed F)}

theorem load8_intact {p : Placed F} {m : Mem} (h : Intact all m) (hp : p ∈ all)
    (hstr : p.var.holdsStrings = true) : m.load8 p.ref = spare :=
  @Mem.load8_congr m (fun _ => 1) p.ref (h p hp hstr)

theorem size_holdsStrings {v : Var F} (h : v.holdsStrings = true) : 8 ≤ v.size := by
  cases v with
  | list l => simp [Var.size, countOffset]
  | _ => cases h

theorem intact_of_fits (hsp : Spread all) {p : Placed F} (hp : p ∈ all) {valStart : Str}
    {m n : Mem} (hm : Intact all m) (hends : SwitchEnds p.var valStart)
    (hfits : Fits p.var valStart) (h : storeVar env t p.var p.ref valStart m = some n) :
    Intact all n := by
  intro q hq hstr i hi
  by_cases hpq : p = q
  · subst hpq
    rw [storeVar_strings hstr hfits] at h
    cases h
    exact hm p hq hstr i hi
  · obtain ⟨n', hn', hch⟩ := storeVar_changesOnly env t hends hfits p.ref m
    rw [h] at hn'
    cases hn'
    have hsize := size_holdsStrings hstr
    have hin : q.extent.Has (q.ref + i) := by
      simp only [Placed.extent, Extent.Has]
      omega
    have hapart := Extent.apart_of_pairwise hsp.apart hq hp (Ne.symm hpq)
    rw [hch _ (hapart _ hin)]
    exact hm q hq hstr i hi

theorem switchEnds_of_storeVar {v : Var F} {ref : ℕ} {valStart : Str} {m n : Mem}
    (h : storeVar env t v ref valStart m = some n) : SwitchEnds v valStart := by
  cases storeVar_switch env t v valStart with
  | nothing hends _ _ => exact hends
  | bytes out hends _ _ => exact hends
  | list l hv => exact hv ▸ trivial
  | endless _ hstore =>
    rw [hstore] at h
    cases h

/-- **One `switch` in two memories**: its value fits, or a byte outside has become the
same. -/
theorem storeVar_pair (hsp : Spread all) {p : Placed F} (hp : p ∈ all) {valStart : Str}
    {m₁ m₂ n₁ n₂ : Mem} (hin : ∀ x, p.extent.Has x → m₁ x = m₂ x)
    (h₁ : storeVar env t p.var p.ref valStart m₁ = some n₁)
    (h₂ : storeVar env t p.var p.ref valStart m₂ = some n₂) (hm : Intact all m₁) :
    Hit all n₁ n₂ ∨ (Intact all n₁ ∧ Fits p.var valStart) := by
  by_cases hfits : Fits p.var valStart
  · exact Or.inr ⟨intact_of_fits hsp hp hm (switchEnds_of_storeVar h₁) hfits h₁, hfits⟩
  · rcases storeVar_hit hfits hin h₁ h₂ with hset | ⟨hstr, hset⟩
    · exact Or.inl ⟨_, hsp.gap p hp, hset⟩
    · rw [load8_intact hm hp hstr] at hset
      exact Or.inl ⟨_, hsp.spare, hset⟩

theorem sound_of_value {p : Param F} {line valStart l : Str}
    (hscan : scanParam p line = .value valStart l) (hends : SwitchEnds p.var valStart)
    (hfits : Fits p.var valStart) : Sound (p, line) := by
  refine ⟨(harmless_iff _ _).mpr ⟨by simp [hscan], fun v l' he => ?_⟩, fun v l' he => ?_⟩
  · rw [hscan] at he
    cases he
    exact hends
  · rw [hscan] at he
    cases he
    exact hfits

/-- What a run of the line has done with a value. -/
theorem lineStores_value {p : Placed F} {ps : List (Placed F)} {line valStart l : Str} {m n : Mem}
    {more : Bool} (hscan : scanParam p.toParam line = .value valStart l)
    (h : lineStores env t (p :: ps) line m = some (n, more)) :
    ∃ k, storeVar env t p.var p.ref valStart m = some k ∧
      ((rejects env p.var valStart = true ∧ k = n ∧ more = false) ∨
        (rejects env p.var valStart = false ∧ lineStores env t ps l k = some (n, more))) := by
  rw [lineStores] at h
  simp only [hscan] at h
  cases hv : storeVar env t p.var p.ref valStart m with
  | none => simp [hv] at h
  | some k =>
    simp only [hv] at h
    refine ⟨k, rfl, ?_⟩
    cases hrej : rejects env p.var valStart with
    | true =>
      simp only [hrej, if_true, Option.some.injEq, Prod.mk.injEq] at h
      exact Or.inl ⟨rfl, h.1, h.2.symm⟩
    | false =>
      simp only [hrej, Bool.false_eq_true, if_false] at h
      exact Or.inr ⟨rfl, h⟩

/-- **One line in two memories**: where they agreed they still do, and either all
values fit or a byte outside has become the same. -/
theorem lineStores_pair (hsp : Spread all) {ps : List (Placed F)} (hps : ∀ p ∈ ps, p ∈ all)
    {line : Str} {m₁ m₂ n₁ n₂ : Mem} {b₁ b₂ : Bool}
    (hin : ∀ p ∈ all, ∀ x, p.extent.Has x → m₁ x = m₂ x)
    (h₁ : lineStores env t ps line m₁ = some (n₁, b₁))
    (h₂ : lineStores env t ps line m₂ = some (n₂, b₂)) :
    (∀ x, m₁ x = m₂ x → n₁ x = n₂ x) ∧
      (Intact all m₁ → Hit all n₁ n₂ ∨
        (Intact all n₁ ∧ ∀ r ∈ reached env (ps.map Placed.toParam) line, Sound r)) := by
  induction ps generalizing line m₁ m₂ with
  | nil =>
    cases h₁
    cases h₂
    exact ⟨fun _ => id, fun hm => Or.inr ⟨hm, by simp [reached]⟩⟩
  | cons p ps ih =>
    have hp := hps p List.mem_cons_self
    have hps' : ∀ q ∈ ps, q ∈ all := fun q hq => hps q (List.mem_cons_of_mem p hq)
    rw [List.map_cons, reached, List.forall_mem_cons]
    cases hscan : scanParam p.toParam line with
    | undefined =>
      rw [lineStores] at h₁
      simp [hscan] at h₁
    | stop =>
      rw [lineStores] at h₁ h₂
      simp only [hscan, Option.some.injEq, Prod.mk.injEq] at h₁ h₂
      obtain ⟨rfl, -⟩ := h₁
      obtain ⟨rfl, -⟩ := h₂
      refine ⟨fun _ => id, fun hm => Or.inr ⟨hm, ⟨?_, by simp [hscan]⟩, by simp⟩⟩
      exact (harmless_iff _ _).mpr ⟨by simp [hscan], by simp [hscan]⟩
    | miss =>
      rw [lineStores] at h₁ h₂
      simp only [hscan] at h₁ h₂
      obtain ⟨hagree, hrun⟩ := ih hps' hin h₁ h₂
      refine ⟨hagree, fun hm => (hrun hm).imp id fun h => ⟨h.1, ⟨?_, by simp [hscan]⟩, h.2⟩⟩
      exact (harmless_iff _ _).mpr ⟨by simp [hscan], by simp [hscan]⟩
    | value valStart l =>
      obtain ⟨k₁, hv₁, hrest₁⟩ := lineStores_value hscan h₁
      obtain ⟨k₂, hv₂, hrest₂⟩ := lineStores_value hscan h₂
      have hagree : ∀ x, m₁ x = m₂ x → k₁ x = k₂ x :=
        fun x hx => storeVar_agree (hin p hp) hv₁ hv₂ hx
      have hswitch := storeVar_pair hsp hp (hin p hp) hv₁ hv₂
      have hsound : Fits p.var valStart → Sound (p.toParam, line) :=
        sound_of_value hscan (switchEnds_of_storeVar hv₁)
      rcases hrest₁ with ⟨hrej, rfl, -⟩ | ⟨hrej, hrest₁⟩
      · obtain ⟨-, rfl, -⟩ := hrest₂.resolve_right fun h => by simp [hrej] at h
        exact ⟨hagree, fun hm => (hswitch hm).imp id fun h => ⟨h.1, hsound h.2, by simp [hrej]⟩⟩
      · obtain ⟨-, hrest₂⟩ := hrest₂.resolve_left fun h => by simp [hrej] at h
        obtain ⟨hagree', hrun⟩ :=
          ih hps' (fun q hq x hx => hagree x (hin q hq x hx)) hrest₁ hrest₂
        refine ⟨fun x hx => hagree' x (hagree x hx), fun hm => ?_⟩
        rcases hswitch hm with ⟨x, hx, hset⟩ | ⟨hi, hfits⟩
        · exact Or.inl ⟨x, hx, hagree' x hset⟩
        · refine (hrun hi).imp id fun h => ⟨h.1, hsound hfits, ?_⟩
          simpa [hrej] using h.2

theorem lineStores_more {ps : List (Placed F)} {line : Str} {m n : Mem} {more : Bool}
    (h : lineStores env t ps line m = some (n, more)) :
    more = goesOn env (ps.map Placed.toParam) line := by
  induction ps generalizing line m with
  | nil =>
    cases h
    rfl
  | cons p ps ih =>
    rw [List.map_cons, goesOn]
    cases hscan : scanParam p.toParam line with
    | undefined =>
      rw [lineStores] at h
      simp [hscan] at h
    | stop =>
      rw [lineStores] at h
      simp only [hscan, Option.some.injEq, Prod.mk.injEq] at h
      exact h.2.symm
    | miss =>
      rw [lineStores] at h
      simp only [hscan] at h
      exact ih h
    | value valStart l =>
      obtain ⟨k, -, ⟨hrej, -, rfl⟩ | ⟨hrej, hrest⟩⟩ := lineStores_value hscan h
      · simp [hrej]
      · simpa [hrej] using ih hrest

/-- **A file in two memories.** -/
theorem fileStores_pair (hsp : Spread all) {lines : List Str} {m₁ m₂ n₁ n₂ : Mem}
    (hin : ∀ p ∈ all, ∀ x, p.extent.Has x → m₁ x = m₂ x)
    (h₁ : fileStores env t all lines m₁ = some n₁)
    (h₂ : fileStores env t all lines m₂ = some n₂) :
    (∀ x, m₁ x = m₂ x → n₁ x = n₂ x) ∧
      (Intact all m₁ → Hit all n₁ n₂ ∨
        ∀ line ∈ scannedLines env (all.map Placed.toParam) lines,
          ∀ r ∈ reached env (all.map Placed.toParam) line, Sound r) := by
  induction lines generalizing m₁ m₂ with
  | nil =>
    cases h₁
    cases h₂
    exact ⟨fun _ => id, fun _ => Or.inr (by simp [scannedLines])⟩
  | cons line lines ih =>
    rw [fileStores] at h₁ h₂
    rw [scannedLines]
    by_cases hskip : skipped line = true
    · rw [if_pos hskip] at h₁ h₂ ⊢
      exact ih hin h₁ h₂
    · rw [if_neg hskip] at h₁ h₂ ⊢
      cases hl₁ : lineStores env t all line m₁ with
      | none => simp [hl₁] at h₁
      | some r₁ =>
        cases hl₂ : lineStores env t all line m₂ with
        | none => simp [hl₂] at h₂
        | some r₂ =>
          obtain ⟨k₁, b₁⟩ := r₁
          obtain ⟨k₂, b₂⟩ := r₂
          obtain ⟨hagree, hline⟩ := lineStores_pair hsp (fun _ => id) hin hl₁ hl₂
          obtain rfl := lineStores_more hl₁
          obtain rfl := lineStores_more hl₂
          simp only [hl₁] at h₁
          simp only [hl₂] at h₂
          cases hgo : goesOn env (all.map Placed.toParam) line with
          | true =>
            simp only [hgo] at h₁ h₂
            obtain ⟨hagree', hrun⟩ := ih (fun q hq x hx => hagree x (hin q hq x hx)) h₁ h₂
            refine ⟨fun x hx => hagree' x (hagree x hx), fun hm => ?_⟩
            rcases hline hm with ⟨x, hx, hset⟩ | ⟨hi, hsound⟩
            · exact Or.inl ⟨x, hx, hagree' x hset⟩
            · refine (hrun hi).imp id fun hrest => ?_
              rw [if_pos rfl]
              exact List.forall_mem_cons.mpr ⟨hsound, hrest⟩
          | false =>
            simp only [hgo, Option.some.injEq] at h₁ h₂
            rw [← h₁, ← h₂]
            exact ⟨hagree, fun hm => (hline hm).imp id fun h => by simpa using h.2⟩

end Runs

/-! ## The variables spread out -/

/-- The parameters with their variables one behind the other, a free byte between
them. -/
def spreadOut (params : List (Param F)) : List (Placed F) :=
  (layout (fun p : Param F => p.var.size) (spare + 1) params).map fun p => ⟨p.1, p.2⟩

theorem spreadOut_toParam (params : List (Param F)) :
    (spreadOut params).map Placed.toParam = params := by
  rw [spreadOut, List.map_map]
  exact layout_map_fst _ params

theorem spreadOut_spread (params : List (Param F)) : Spread (spreadOut params) := by
  refine ⟨?_, ?_, ?_⟩
  · rw [spreadOut, List.pairwise_map]
    exact @layout_apart _ (fun p : Param F => p.var.size) _ params
  · intro p hp q hq
    obtain ⟨a, ha, rfl⟩ := List.mem_map.mp hp
    obtain ⟨b, hb, rfl⟩ := List.mem_map.mp hq
    exact layout_gap ha hb
  · rintro p hp ⟨hlo, -⟩
    obtain ⟨a, ha, rfl⟩ := List.mem_map.mp hp
    have := le_of_mem_layout ha
    simp only [Placed.extent] at hlo
    omega

/-- A memory of bytes `1`, and `2` outside the variables. -/
def marked (ps : List (Placed F)) : Mem :=
  fun x => if ps.any fun p => p.extent.Has x then 1 else 2

theorem marked_inside {ps : List (Placed F)} {p : Placed F} (hp : p ∈ ps) {x : ℕ}
    (hx : p.extent.Has x) : marked ps x = 1 :=
  if_pos (List.any_eq_true.mpr ⟨p, hp, decide_eq_true hx⟩)

theorem marked_outside {ps : List (Placed F)} {x : ℕ} (hx : Outside ps x) : marked ps x = 2 := by
  refine if_neg fun h => ?_
  obtain ⟨p, hp, hin⟩ := List.any_eq_true.mp h
  exact hx p hp (of_decide_eq_true hin)

def noFloatBytes : Target Unit := ⟨fun _ => Vector.replicate 4 0, fun _ _ => 0⟩

def oneUint : List (Param Unit) := [⟨"PUINT".toList, "a uint".toList, false, false, .uint 0⟩]

end DataCommons.Params
