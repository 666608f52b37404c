import DataCommons.Flags.TwoRuns

/-!
# The numbers that are accepted

What the cases of the integer types accept, and what they store, against what the
text denotes.

* `AtOption.round`: one round at an option is one case of the `switch`;
* `parseUint_ok`, `parseInt_ok`: the accepted texts and their numbers;
* `int_value_iff`: where an integer flag accepts exactly the numerals of its range.
-/

namespace DataCommons.Flags

open CString

variable {F D : Type}

/-! ## An option in option position -/

/-- The call has come to an option of the flag `f`, the only one of its name, with
the value `text`. -/
structure AtOption (lib : FloatLib F D) (c₀ : FlagCtx F D) (argv : List Str) (c : FlagCtx F D)
    (args : List Str) (f : Flag F D) (ignore : Bool) (text : Str) : Prop where
  argv_ne : argv ≠ [] ∨ c₀.programName ≠ none
  reaches : Reaches lib c₀ argv c args
  only : (c₀.flags.map (·.name)).count f.name ≤ 1
  mem : f ∈ c.flags
  notHelp : ¬ IsHelp f.name
  token : ∃ tok equals args' rest, args = tok :: args' ∧
    readToken tok = some (f.name, ignore, equals) ∧ fetchArg equals args' = some (text, rest)

/-- The value is accepted: the loop goes on behind it. -/
def AcceptsValue (lib : FloatLib F D) (c : FlagCtx F D) (args : List Str) : Prop :=
  ∃ c' rest, loopRound lib c args = .next c' rest

section AtOption

variable {lib : FloatLib F D} {c₀ c : FlagCtx F D} {argv args : List Str} {f : Flag F D}
  {ignore : Bool} {text : Str}

theorem AtOption.round (h : AtOption lib c₀ argv c args f ignore text) :
    ∃ rest, loopRound lib c args =
      match flagStore lib ignore text f.val with
      | none => .overrun
      | some (.error e) => .reject { c with flagError := e, flagErrorName := some f.name }
      | some (.ok v) => .next { c with flags := setFlag f.name v c.flags } rest := by
  obtain ⟨tok, equals, args', rest, rfl, htok, hfetch⟩ := h.token
  have hone : (c.flags.map (·.name)).count f.name ≤ 1 := by
    rw [h.reaches.names, started_flags]
    exact h.only
  have hfind := find_of_mem hone h.mem rfl
  refine ⟨rest, ?_⟩
  rw [loopRound_apply lib hone htok hfetch, applyOpt, if_neg h.notHelp, hfind]
  dsimp only
  cases flagStore lib ignore text f.val with
  | none => rfl
  | some r =>
    cases r with
    | error e => simp [FlagCtx.reject, any_name_of_find hfind]
    | ok v => rfl

theorem AtOption.accepts_iff (h : AtOption lib c₀ argv c args f ignore text) :
    AcceptsValue lib c args ↔ ∃ v, flagStore lib ignore text f.val = some (.ok v) := by
  obtain ⟨rest, hround⟩ := h.round
  rw [AcceptsValue, hround]
  constructor
  · rintro ⟨c', rest', hnext⟩
    split at hnext
    · cases hnext
    · cases hnext
    · exact ⟨_, ‹_›⟩
  · rintro ⟨v, hv⟩
    rw [hv]
    exact ⟨_, _, rfl⟩

/-- The flag of this name holds what the case stored. -/
theorem AtOption.stored (h : AtOption lib c₀ argv c args f ignore text) {c' : FlagCtx F D}
    {rest : List Str} (hnext : loopRound lib c args = .next c' rest) :
    ∃ v, flagStore lib ignore text f.val = some (.ok v) ∧
      { f with val := v, hasChanged := true } ∈ c'.flags := by
  obtain ⟨rest', hround⟩ := h.round
  rw [hround] at hnext
  split at hnext
  · cases hnext
  · cases hnext
  · rename_i v hstore
    cases hnext
    exact ⟨v, hstore, List.mem_map.mpr ⟨f, h.mem, if_pos rfl⟩⟩

theorem flagStore_ne_none (lib : FloatLib F D) (ignore : Bool) (text : Str) {v : FlagVal F D}
    (hlist : v.type ≠ .list) : flagStore lib ignore text v ≠ none := by
  cases v with
  | list items => exact absurd rfl hlist
  | _ => exact Option.some_ne_none _

theorem AtOption.rejected (h : AtOption lib c₀ argv c args f ignore text) {e : FlagError}
    (hstore : flagStore lib ignore text f.val = some (.error e)) :
    flagParse lib c₀ argv =
      some ({ c with flagError := e, flagErrorName := some f.name }, [], false) := by
  obtain ⟨rest, hround⟩ := h.round
  rw [hstore] at hround
  rw [flagParse_of_reaches h.argv_ne h.reaches, loop_eq, hround]

/-- A value that is not accepted, of a flag that is no list, is refused. -/
theorem AtOption.refused (h : AtOption lib c₀ argv c args f ignore text)
    (hlist : f.val.type ≠ .list) (hnot : ¬ AcceptsValue lib c args) :
    ∃ e, flagParse lib c₀ argv =
      some ({ c with flagError := e, flagErrorName := some f.name }, [], false) := by
  rw [h.accepts_iff] at hnot
  cases hv : flagStore lib ignore text f.val with
  | none => exact absurd hv (flagStore_ne_none lib ignore text hlist)
  | some r =>
    cases r with
    | error e => exact ⟨e, h.rejected hv⟩
    | ok v => exact absurd ⟨v, hv⟩ hnot

end AtOption

/-- The case of a number: accepted if and only if it converts, and then stored. -/
theorem storeNumber_ok {α β : Type} (ignore : Bool) (old : α) (r : Except FlagError β) (g : β → α)
    (mk : α → FlagVal F D) (w : FlagVal F D) :
    some ((storeNumber ignore old (r.map g)).map mk) = some (.ok w) ↔
      ∃ k, r = .ok k ∧ w = mk (if ignore then old else g k) := by
  cases r with
  | error e => exact ⟨fun h => (by cases h), fun ⟨k, h, _⟩ => (by cases h)⟩
  | ok k =>
    constructor
    · intro h
      cases h
      exact ⟨k, rfl, rfl⟩
    · rintro ⟨k', hk, rfl⟩
      cases hk
      rfl

/-! ## The integer types -/

/-- `FLAG_UINT8` to `FLAG_UINT64` and `FLAG_INT`. -/
inductive IntType where
  | uint8 | uint16 | uint32 | uint64 | int
  deriving DecidableEq, Repr

namespace IntType

def flagType : IntType → FlagType
  | uint8 => .uint8
  | uint16 => .uint16
  | uint32 => .uint32
  | uint64 => .uint64
  | int => .int

/-- The least and the largest value of the type. -/
def lo : IntType → ℤ
  | int => -2 ^ 31
  | _ => 0

def hi : IntType → ℤ
  | uint8 => 2 ^ 8 - 1
  | uint16 => 2 ^ 16 - 1
  | uint32 => 2 ^ 32 - 1
  | uint64 => 2 ^ 64 - 1
  | int => 2 ^ 31 - 1

/-- The conversion in the case of the type. -/
def parse (ty : IntType) (text : Str) : Except FlagError ℤ :=
  match ty with
  | int => parseInt text
  | ty => (parseUint ty.hi.toNat text).map Int.ofNat

end IntType

def FlagVal.number : FlagVal F D → Option ℤ
  | .uint8 v => some v.toNat
  | .uint16 v => some v.toNat
  | .uint32 v => some v.toNat
  | .uint64 v => some v.toNat
  | .int v => some v.toInt
  | _ => none

/-- A negative numeral that wraps to a number of the type. -/
def Wraps (ty : IntType) (text : Str) : Prop :=
  ty ≠ .int ∧ ∃ z, Denotes text z ∧ -2 ^ 64 < z ∧ z ≤ ty.hi - 2 ^ 64

theorem not_denotes_nil (z : ℤ) : ¬ Denotes [] z := by
  rintro ⟨ws, sign, ds, h, -, hne, -⟩
  rw [List.nil_eq_append_iff, List.append_eq_nil_iff] at h
  exact hne h.2.2

/-- The unsigned cases reduce a numeral modulo `2 ^ 64`. -/
theorem parseUint_of_denotes (max : ℕ) {text : Str} {z : ℤ} (hz : Denotes text z) :
    parseUint max text =
      if z.natAbs ≤ ullongMax ∧ (z % 2 ^ 64).toNat ≤ max then .ok (z % 2 ^ 64).toNat
      else .error .integerOverflow := by
  rw [parseUint, strtoull_of_denotes hz]
  by_cases habs : z.natAbs > ullongMax
  · have hout : ¬ (z.natAbs ≤ ullongMax ∧ (z % 2 ^ 64).toNat ≤ max) :=
      fun h => absurd h.1 (Nat.not_le.mpr habs)
    rw [if_pos habs, if_neg hout]
    simp only [ne_eq, not_true_eq_false, if_false, and_self, true_or, if_true]
  · rw [if_neg habs]
    simp only [ne_eq, not_true_eq_false, if_false, Bool.false_eq_true, and_false, false_or]
    by_cases hgt : (z % 2 ^ 64).toNat > max
    · rw [if_pos hgt, if_neg fun h => absurd h.2 (Nat.not_le.mpr hgt)]
    · rw [if_neg hgt, if_pos ⟨Nat.le_of_not_lt habs, Nat.le_of_not_lt hgt⟩]

/-- **The unsigned cases** accept the empty text, and negative numerals modulo
`2 ^ 64`. -/
theorem parseUint_ok (max : ℕ) (text : Str) (k : ℕ) :
    parseUint max text = .ok k ↔ text = [] ∧ k = 0 ∨
      ∃ z, Denotes text z ∧ z.natAbs ≤ ullongMax ∧ k = (z % 2 ^ 64).toNat ∧ k ≤ max := by
  by_cases hden : ∃ z, Denotes text z
  · obtain ⟨z, hz⟩ := hden
    rw [parseUint_of_denotes max hz]
    constructor
    · intro h
      split at h
      · rename_i hin
        cases h
        exact Or.inr ⟨z, hz, hin.1, rfl, hin.2⟩
      · cases h
    · rintro (⟨rfl, -⟩ | ⟨z', hz', habs, rfl, hle⟩)
      · exact absurd hz (not_denotes_nil z)
      · obtain rfl := hz.unique hz'
        rw [if_pos ⟨habs, hle⟩]
  · have hnot : (∃ z, Denotes text z ∧ z.natAbs ≤ ullongMax ∧ k = (z % 2 ^ 64).toNat ∧ k ≤ max) →
        False := fun ⟨z, hz, _⟩ => hden ⟨z, hz⟩
    rw [or_iff_left hnot]
    by_cases hnil : text = []
    · subst hnil
      have hzero : parseUint max [] = .ok 0 := by
        have h0 : ¬ ((strtoull []).value > max) := Nat.not_lt_zero max
        have he : ¬ ((strtoull []).value = ullongMax ∧ (strtoull []).erange = true) := by decide
        simp only [parseUint, h0, he, or_self, if_false]
        rfl
      rw [hzero]
      constructor
      · intro h
        cases h
        exact ⟨rfl, rfl⟩
      · rintro ⟨-, rfl⟩
        rfl
    · have hrest : (strtoull text).rest ≠ [] := fun h => hden (denotes_of_strtoull hnil h)
      rw [parseUint, if_pos hrest]
      exact ⟨fun h => (by cases h), fun h => absurd h.1 hnil⟩

theorem parseInt_of_denotes {text : Str} {z : ℤ} (hz : Denotes text z) :
    parseInt text =
      if -2 ^ 31 ≤ z ∧ z ≤ 2 ^ 31 - 1 then .ok z else .error .integerOverflow := by
  rw [parseInt, strtol_of_denotes hz]
  by_cases hbig : z > longMax
  · have hout : ¬ (-2 ^ 31 ≤ z ∧ z ≤ 2 ^ 31 - 1) := by
      rw [longMax] at hbig
      omega
    rw [if_pos hbig, if_neg hout]
    rfl
  · rw [if_neg hbig]
    by_cases hsmall : z < longMin
    · have hout : ¬ (-2 ^ 31 ≤ z ∧ z ≤ 2 ^ 31 - 1) := by
        rw [longMin] at hsmall
        omega
      rw [if_pos hsmall, if_neg hout]
      rfl
    · rw [if_neg hsmall]
      simp only [ne_eq, not_true_eq_false, if_false, Bool.false_eq_true, and_false]
      by_cases hrange : z > 2 ^ 31 - 1 ∨ z < -2 ^ 31
      · rw [if_pos hrange, if_neg]
        omega
      · rw [if_neg hrange, if_pos]
        omega

/-- **The case `FLAG_INT`** accepts the empty text and the numerals of its range. -/
theorem parseInt_ok (text : Str) (v : ℤ) :
    parseInt text = .ok v ↔ text = [] ∧ v = 0 ∨
      Denotes text v ∧ -2 ^ 31 ≤ v ∧ v ≤ 2 ^ 31 - 1 := by
  by_cases hden : ∃ z, Denotes text z
  · obtain ⟨z, hz⟩ := hden
    rw [parseInt_of_denotes hz]
    constructor
    · intro h
      split at h
      · rename_i hin
        cases h
        exact Or.inr ⟨hz, hin⟩
      · cases h
    · rintro (⟨rfl, -⟩ | ⟨hv, hin⟩)
      · exact absurd hz (not_denotes_nil z)
      · obtain rfl := hz.unique hv
        rw [if_pos hin]
  · rw [or_iff_left fun h => hden ⟨v, h.1⟩]
    by_cases hnil : text = []
    · subst hnil
      have hzero : parseInt [] = .ok 0 := by decide
      rw [hzero]
      constructor
      · intro h
        cases h
        exact ⟨rfl, rfl⟩
      · rintro ⟨-, rfl⟩
        rfl
    · have hrest : (strtol text).rest ≠ [] := fun h => hden (denotes_of_strtol hnil h)
      rw [parseInt, if_pos hrest]
      exact ⟨fun h => (by cases h), fun h => absurd h.1 hnil⟩

theorem parseUint_le {max n : ℕ} {text : Str} (h : parseUint max text = .ok n) : n ≤ max := by
  rcases (parseUint_ok max text n).mp h with ⟨-, rfl⟩ | ⟨z, -, -, -, hle⟩
  · exact Nat.zero_le max
  · exact hle

/-- An unsigned case as an integer: the numerals of its range and the negative ones
that wrap. -/
theorem parseUint_int_ok {hi : ℤ} (hpos : 0 ≤ hi) (hlt : hi < 2 ^ 64) {text : Str}
    (hne : text ≠ []) (k : ℤ) :
    (parseUint hi.toNat text).map Int.ofNat = .ok k ↔ Denotes text k ∧ 0 ≤ k ∧ k ≤ hi ∨
      ∃ z, Denotes text z ∧ -2 ^ 64 < z ∧ z ≤ hi - 2 ^ 64 ∧ k = z + 2 ^ 64 := by
  rw [map_ok_iff]
  constructor
  · rintro ⟨n, hn, rfl⟩
    rcases (parseUint_ok _ text n).mp hn with ⟨h, -⟩ | ⟨z, hz, habs, rfl, hle⟩
    · exact absurd h hne
    · rw [ullongMax] at habs
      by_cases hneg : z < 0
      · exact Or.inr ⟨z, hz, by omega, by omega, by simp only [Int.ofNat_eq_natCast]; omega⟩
      · have hval : Int.ofNat (z % 2 ^ 64).toNat = z := by
          simp only [Int.ofNat_eq_natCast]
          omega
        rw [hval]
        exact Or.inl ⟨hz, by omega, by omega⟩
  · rintro (⟨hk, h0, hle⟩ | ⟨z, hz, hlo, hle, rfl⟩)
    · refine ⟨k.toNat, (parseUint_ok _ text _).mpr (Or.inr ⟨k, hk, ?_, ?_, ?_⟩), ?_⟩
      · rw [ullongMax]
        omega
      · omega
      · omega
      · simp only [Int.ofNat_eq_natCast]
        omega
    · refine ⟨(z + 2 ^ 64).toNat, (parseUint_ok _ text _).mpr (Or.inr ⟨z, hz, ?_, ?_, ?_⟩), ?_⟩
      · rw [ullongMax]
        omega
      · omega
      · omega
      · simp only [Int.ofNat_eq_natCast]
        omega

/-- What a case accepts of a text that is not empty: the numerals of its range and
the negative ones that wrap. -/
theorem IntType.parse_ok (ty : IntType) {text : Str} (hne : text ≠ []) (k : ℤ) :
    ty.parse text = .ok k ↔ Denotes text k ∧ ty.lo ≤ k ∧ k ≤ ty.hi ∨
      ty ≠ .int ∧ ∃ z, Denotes text z ∧ -2 ^ 64 < z ∧ z ≤ ty.hi - 2 ^ 64 ∧ k = z + 2 ^ 64 := by
  cases ty with
  | int =>
    rw [IntType.parse, parseInt_ok]
    constructor
    · rintro (⟨h, -⟩ | h)
      · exact absurd h hne
      · exact Or.inl h
    · rintro (h | ⟨h, -⟩)
      · exact Or.inr h
      · exact absurd rfl h
  | _ =>
    refine (parseUint_int_ok (by decide) (by decide) hne k).trans ?_
    simp only [ne_eq, reduceCtorEq, not_false_eq_true, true_and]
    rfl

/-! ## What is stored -/

/-- The unsigned cases store the number as it was converted. -/
theorem flagStore_unsigned {α : Type} {lib : FloatLib F D} {ignore : Bool} {text : Str}
    {v : FlagVal F D} {max : ℕ} {old : α} {g : ℕ → α} {mk : α → FlagVal F D}
    (hstore : flagStore lib ignore text v =
      some ((storeNumber ignore old ((parseUint max text).map g)).map mk))
    (hnum : ∀ n, n ≤ max → (mk (g n)).number = some (Int.ofNat n)) (w : FlagVal F D) :
    (flagStore lib ignore text v = some (.ok w) → ∃ k,
      (parseUint max text).map Int.ofNat = .ok k ∧ (ignore = false → w.number = some k)) ∧
    ∀ k, (parseUint max text).map Int.ofNat = .ok k →
      ∃ w, flagStore lib ignore text v = some (.ok w) := by
  rw [hstore]
  constructor
  · intro h
    obtain ⟨n, hn, rfl⟩ := (storeNumber_ok ignore old _ g mk w).mp h
    refine ⟨Int.ofNat n, map_ok_iff.mpr ⟨n, hn, rfl⟩, ?_⟩
    rintro rfl
    exact hnum n (parseUint_le hn)
  · intro k hk
    obtain ⟨n, hn, -⟩ := map_ok_iff.mp hk
    exact ⟨_, (storeNumber_ok ignore old _ g mk _).mpr ⟨n, hn, rfl⟩⟩

/-- The case of an integer type accepts what it converts, and stores that. -/
theorem flagStore_int (lib : FloatLib F D) (ignore : Bool) (text : Str) {ty : IntType}
    {v : FlagVal F D} (hv : v.type = ty.flagType) (w : FlagVal F D) :
    (flagStore lib ignore text v = some (.ok w) →
      ∃ k, ty.parse text = .ok k ∧ (ignore = false → w.number = some k)) ∧
    ∀ k, ty.parse text = .ok k → ∃ w, flagStore lib ignore text v = some (.ok w) := by
  cases ty with
  | uint8 =>
    cases v <;> cases hv
    exact flagStore_unsigned rfl (fun n hn => by
      rw [FlagVal.number, UInt8.toNat_ofNat_of_lt' (Nat.lt_succ_of_le hn)]
      rfl) w
  | uint16 =>
    cases v <;> cases hv
    exact flagStore_unsigned rfl (fun n hn => by
      rw [FlagVal.number, UInt16.toNat_ofNat_of_lt' (Nat.lt_succ_of_le hn)]
      rfl) w
  | uint32 =>
    cases v <;> cases hv
    exact flagStore_unsigned rfl (fun n hn => by
      rw [FlagVal.number, UInt32.toNat_ofNat_of_lt' (Nat.lt_succ_of_le hn)]
      rfl) w
  | uint64 =>
    cases v <;> cases hv
    exact flagStore_unsigned rfl (fun n hn => by
      rw [FlagVal.number, UInt64.toNat_ofNat_of_lt' (Nat.lt_succ_of_le hn)]
      rfl) w
  | int =>
    cases v <;> cases hv
    rename_i old
    constructor
    · intro h
      obtain ⟨k, hk, rfl⟩ := (storeNumber_ok ignore old _ Int32.ofInt .int w).mp h
      refine ⟨k, hk, ?_⟩
      rintro rfl
      have hrange : -2 ^ 31 ≤ k ∧ k ≤ 2 ^ 31 - 1 := by
        rcases (parseInt_ok text k).mp hk with ⟨-, rfl⟩ | ⟨-, h⟩
        · decide
        · exact h
      exact congrArg some (Int32.toInt_ofInt_of_le hrange.1 (by omega))
    · intro k hk
      exact ⟨_, (storeNumber_ok ignore old _ Int32.ofInt .int _).mpr ⟨k, hk, rfl⟩⟩

/-- The value is accepted if and only if it is a numeral of the range, and stored
as the integer that it denotes. -/
structure IntValueRight (lib : FloatLib F D) (ty : IntType) (c : FlagCtx F D) (args : List Str)
    (f : Flag F D) (ignore : Bool) (text : Str) : Prop where
  accepts : AcceptsValue lib c args ↔ ∃ z, Denotes text z ∧ ty.lo ≤ z ∧ z ≤ ty.hi
  stores : ∀ c' rest, loopRound lib c args = .next c' rest → ignore = false →
    ∃ f' ∈ c'.flags, f'.name = f.name ∧ ∃ z, Denotes text z ∧ f'.val.number = some z

/-- **Integer values.**  An integer flag accepts exactly the numerals of its range,
and holds what they denote, unless the text is empty or a negative numeral that
wraps into the range of an unsigned type.  A refused value ends the call. -/
theorem int_value_iff {lib : FloatLib F D} {c₀ c : FlagCtx F D} {argv args : List Str}
    {f : Flag F D} {ignore : Bool} {text : Str} {ty : IntType}
    (h : AtOption lib c₀ argv c args f ignore text) (hty : f.val.type = ty.flagType) :
    (IntValueRight lib ty c args f ignore text ↔ text ≠ [] ∧ ¬ Wraps ty text) ∧
    (¬ AcceptsValue lib c args → ∃ e, flagParse lib c₀ argv =
      some ({ c with flagError := e, flagErrorName := some f.name }, [], false)) := by
  have hstore := flagStore_int lib ignore text hty
  have hacc : AcceptsValue lib c args ↔ ∃ k, ty.parse text = .ok k := by
    rw [h.accepts_iff]
    constructor
    · rintro ⟨w, hw⟩
      obtain ⟨k, hk, -⟩ := (hstore w).1 hw
      exact ⟨k, hk⟩
    · rintro ⟨k, hk⟩
      exact (hstore f.val).2 k hk
  constructor
  · constructor
    · intro hright
      have hne : text ≠ [] := by
        rintro rfl
        have hzero : ∃ k, ty.parse [] = .ok k := by
          cases ty <;> exact ⟨0, by decide⟩
        obtain ⟨z, hz, -⟩ := hright.accepts.mp (hacc.mpr hzero)
        exact not_denotes_nil z hz
      refine ⟨hne, fun hwraps => ?_⟩
      obtain ⟨hint, z, hz, hlo, hhi⟩ := hwraps
      -- the wrapped number is accepted, and the numeral is negative
      have hok := (ty.parse_ok hne (z + 2 ^ 64)).mpr (Or.inr ⟨hint, z, hz, hlo, hhi, rfl⟩)
      obtain ⟨z', hz', hlo', -⟩ := hright.accepts.mp (hacc.mpr ⟨_, hok⟩)
      rw [hz.unique hz'] at hhi
      have hpos : 0 ≤ ty.lo := by
        cases ty <;> first | exact Int.le_refl 0 | exact absurd rfl hint
      have hmax : ty.hi < 2 ^ 64 := by
        cases ty <;> decide
      omega
    · rintro ⟨hne, hwraps⟩
      have hparse : ∀ k, ty.parse text = .ok k ↔ Denotes text k ∧ ty.lo ≤ k ∧ k ≤ ty.hi := by
        intro k
        rw [ty.parse_ok hne]
        refine or_iff_left ?_
        rintro ⟨hint, z, hz, hlo, hhi, -⟩
        exact hwraps ⟨hint, z, hz, hlo, hhi⟩
      refine ⟨?_, fun c' rest hnext hig => ?_⟩
      · rw [hacc]
        exact exists_congr hparse
      · obtain ⟨v, hv, hmem⟩ := h.stored hnext
        obtain ⟨k, hk, hnum⟩ := (hstore v).1 hv
        exact ⟨_, hmem, rfl, k, ((hparse k).mp hk).1, hnum hig⟩
  · refine h.refused ?_
    rw [hty]
    cases ty <;> exact FlagType.noConfusion

def uint8Flag : FlagCtx Unit Unit :=
  { intFlags [] with flags := [⟨"u".toList, .uint8 5, false, false⟩] }

theorem int_value_iff_uint8 :
    (IntValueRight noFloat .uint8 { uint8Flag with programName := some "prog".toList }
        ["-u=7".toList] ⟨"u".toList, .uint8 5, false, false⟩ false "7".toList ↔
      "7".toList ≠ [] ∧ ¬ Wraps .uint8 "7".toList) ∧
    (¬ AcceptsValue noFloat { uint8Flag with programName := some "prog".toList }
        ["-u=7".toList] →
      ∃ e, flagParse noFloat uint8Flag ["prog".toList, "-u=7".toList] =
        some ({ uint8Flag with programName := some "prog".toList, flagError := e,
                               flagErrorName := some "u".toList }, [], false)) :=
  int_value_iff ⟨by decide, .refl _ _, by decide, List.mem_cons_self, by decide,
    _, _, _, _, rfl, rfl, rfl⟩ rfl

/-- `-u=` and `-u=-18446744073709551615` are accepted, as 0 and as 1. -/
theorem negative_wraps :
    flagParse noFloat uint8Flag ["prog".toList, "-u=-18446744073709551615".toList] =
      some ({ uint8Flag with flags := [⟨"u".toList, .uint8 1, false, true⟩],
                             programName := some "prog".toList }, [], true) ∧
    (¬ ∃ z, Denotes "-18446744073709551615".toList z ∧ IntType.uint8.lo ≤ z ∧
      z ≤ IntType.uint8.hi) ∧
    flagParse noFloat uint8Flag ["prog".toList, "-u=".toList] =
      some ({ uint8Flag with flags := [⟨"u".toList, .uint8 0, false, true⟩],
                             programName := some "prog".toList }, [], true) ∧
    ¬ ∃ z, Denotes [] z ∧ IntType.uint8.lo ≤ z ∧ z ≤ IntType.uint8.hi := by
  refine ⟨by decide, ?_, by decide, fun ⟨z, hz, _⟩ => not_denotes_nil z hz⟩
  rintro ⟨z, hz, hlo, -⟩
  obtain ⟨neg, n, hnum, rfl⟩ := denotes_iff.mp hz
  have hval : numeral "-18446744073709551615".toList = some (true, 18446744073709551615, []) := by
    decide
  rw [hval] at hnum
  cases hnum
  exact absurd hlo (by decide)

end DataCommons.Flags
