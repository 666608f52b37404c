import Mathlib.Algebra.Ring.Int.Defs
import Mathlib.Algebra.Ring.Nat
import Mathlib.Data.Int.Order.Basic
import Mathlib.Data.List.TakeWhile

/-!
# C strings

A string is the list of its characters up to the terminator.  `strtoull` and
`strtol` are the base-10 conversions of the C standard for 64-bit types, with the
rest of the string in place of the end pointer and a flag in place of `ERANGE`.
`Denotes` says which texts are numerals as a whole, and `strtoull_of_denotes`,
`strtol_of_denotes` what they convert to; `showInt` is the `%d` that they read back
(`strtol_showInt`, `strtoull_showInt`).  `strstr` gives the string from the first
occurrence on.
-/

namespace DataCommons.CString

def isSpace (c : Char) : Bool := c = ' ' || ('\t' ≤ c && c ≤ '\r')

def digitVal (c : Char) : ℕ := c.toNat - '0'.toNat

/-- The number that a run of digits denotes. -/
def ofDigits (ds : List Char) : ℕ := ds.foldl (fun n c => 10 * n + digitVal c) 0

/-- White space, a sign and at least one digit: the sign, the number and what
follows. -/
def numeral (s : List Char) : Option (Bool × ℕ × List Char) :=
  let s := s.dropWhile isSpace
  let (neg, s) :=
    match s with
    | '-' :: s => (true, s)
    | '+' :: s => (false, s)
    | s => (false, s)
  let ds := s.takeWhile Char.isDigit
  if ds = [] then none else some (neg, ofDigits ds, s.dropWhile Char.isDigit)

/-- The value of a conversion, `*endptr` on, and whether `errno` is `ERANGE`. -/
structure Strto (α : Type) where
  value : α
  rest : List Char
  erange : Bool
  deriving DecidableEq

def ullongMax : ℕ := 2 ^ 64 - 1

def longMax : ℤ := 2 ^ 63 - 1

def longMin : ℤ := -2 ^ 63

/-- `strtoull(s, &end, 10)`, and `strtoul` where `unsigned long` has 64 bits. -/
def strtoull (s : List Char) : Strto ℕ :=
  match numeral s with
  | none => ⟨0, s, false⟩
  | some (neg, n, rest) =>
    if n > ullongMax then ⟨ullongMax, rest, true⟩
    else ⟨if neg then (2 ^ 64 - n) % 2 ^ 64 else n, rest, false⟩

/-- `strtol(s, &end, 10)`. -/
def strtol (s : List Char) : Strto ℤ :=
  match numeral s with
  | none => ⟨0, s, false⟩
  | some (neg, n, rest) =>
    let v : ℤ := if neg then -n else n
    if v > longMax then ⟨longMax, rest, true⟩
    else if v < longMin then ⟨longMin, rest, true⟩
    else ⟨v, rest, false⟩

/-! ## Hexadecimal -/

def hexVal (c : Char) : Option ℕ :=
  if c.isDigit then some (digitVal c)
  else if 'a' ≤ c ∧ c ≤ 'f' then some (c.toNat - 'a'.toNat + 10)
  else if 'A' ≤ c ∧ c ≤ 'F' then some (c.toNat - 'A'.toNat + 10)
  else none

/-- The number that starts `bytes`, or nothing when the digits go on past them. -/
def hexDigits : ℕ → List Char → Option ℕ
  | _, [] => none
  | n, c :: bytes =>
    match hexVal c with
    | some d => hexDigits (16 * n + d) bytes
    | none => some n

/-- The digits after an optional `0x`, which needs a digit behind it. -/
def hexNumber (bytes : List Char) : Option ℕ :=
  match bytes with
  | '0' :: x :: rest =>
    if x = 'x' ∨ x = 'X' then
      match rest with
      | [] => none
      | c :: _ => if (hexVal c).isSome then hexDigits 0 rest else some 0
    else hexDigits 0 bytes
  | _ => hexDigits 0 bytes

/-- `strtoul(bytes, &end, 16)` on the bytes of an array, its terminator among them;
nothing when it reads past the last one. -/
def strtoul16 (bytes : List Char) : Option ℕ :=
  match bytes.dropWhile isSpace with
  | '-' :: bytes => (hexNumber bytes).map fun n => (2 ^ 64 - n) % 2 ^ 64
  | '+' :: bytes => hexNumber bytes
  | bytes => hexNumber bytes

/-! ## Printing -/

/-- `%u`. -/
def showNat (n : ℕ) : List Char := Nat.toDigits 10 n

/-- `%d`. -/
def showInt (i : ℤ) : List Char := if i < 0 then '-' :: showNat i.natAbs else showNat i.natAbs

theorem showNat_ne_nil (n : ℕ) : showNat n ≠ [] := Nat.toDigits_ne_nil

theorem isDigit_of_mem_showNat {n : ℕ} {c : Char} (h : c ∈ showNat n) : c.isDigit = true :=
  Nat.isDigit_of_mem_toDigits (by decide) (by decide) h

theorem isDigit_or_sign_of_mem_showInt {i : ℤ} {c : Char} (h : c ∈ showInt i) :
    c.isDigit = true ∨ c = '-' := by
  rw [showInt] at h
  split at h
  · rcases List.mem_cons.mp h with rfl | h
    · exact Or.inr rfl
    · exact Or.inl (isDigit_of_mem_showNat h)
  · exact Or.inl (isDigit_of_mem_showNat h)

theorem showInt_ne_nil (i : ℤ) : showInt i ≠ [] := by
  rw [showInt]
  split
  · exact List.cons_ne_nil _ _
  · exact showNat_ne_nil _

theorem isDigit_facts {c : Char} (h : c.isDigit = true) :
    isSpace c = false ∧ c ≠ '-' ∧ c ≠ '+' := by
  have hne : ∀ d : Char, d.isDigit = false → c ≠ d := by
    rintro d hd rfl
    exact Bool.false_ne_true (hd.symm.trans h)
  refine ⟨?_, hne _ rfl, hne _ rfl⟩
  have hc : '0'.toNat ≤ c.toNat := by
    simp only [Char.isDigit, Bool.and_eq_true, decide_eq_true_eq] at h
    exact UInt32.le_iff_toNat_le.mp h.1
  have hr : ¬ c ≤ '\r' := fun hle => absurd (hc.trans (UInt32.le_iff_toNat_le.mp hle)) (by decide)
  simp only [isSpace, hne ' ' rfl, hr, decide_false, Bool.and_false, Bool.or_false]

/-! ## Numerals -/

/-- The whole of `s` is white space, an optional sign and at least one digit, and
denotes `z`. -/
def Denotes (s : List Char) (z : ℤ) : Prop :=
  ∃ ws sign ds, s = ws ++ (sign ++ ds) ∧ (∀ c ∈ ws, isSpace c = true) ∧ ds ≠ [] ∧
    (∀ c ∈ ds, c.isDigit = true) ∧
    ((sign = [] ∨ sign = ['+']) ∧ z = ofDigits ds ∨ sign = ['-'] ∧ z = -ofDigits ds)

theorem takeWhile_digits {ds rest : List Char} (hds : ∀ c ∈ ds, c.isDigit = true)
    (hrest : ∀ c, rest.head? = some c → c.isDigit = false) :
    (ds ++ rest).takeWhile Char.isDigit = ds ∧ (ds ++ rest).dropWhile Char.isDigit = rest := by
  rw [List.takeWhile_append_of_pos hds, List.dropWhile_append_of_pos hds]
  cases rest with
  | nil => simp
  | cons c rest => simp [hrest c rfl]

/-- A conversion of digits behind an optional sign stops behind them. -/
theorem numeral_digits {sign ds rest : List Char} {neg : Bool}
    (hsign : (sign = [] ∨ sign = ['+']) ∧ neg = false ∨ sign = ['-'] ∧ neg = true) (hne : ds ≠ [])
    (hds : ∀ c ∈ ds, c.isDigit = true) (hrest : ∀ c, rest.head? = some c → c.isDigit = false) :
    numeral (sign ++ (ds ++ rest)) = some (neg, ofDigits ds, rest) := by
  obtain ⟨htake, hdrop⟩ := takeWhile_digits hds hrest
  obtain ⟨d, ds', rfl⟩ := List.exists_cons_of_ne_nil hne
  obtain ⟨hsp, hminus, hplus⟩ := isDigit_facts (hds d List.mem_cons_self)
  rcases hsign with ⟨rfl | rfl, rfl⟩ | ⟨rfl, rfl⟩
  · have hskip : (d :: ds' ++ rest).dropWhile isSpace = d :: ds' ++ rest := by
      rw [List.cons_append, List.dropWhile_cons, if_neg (by rw [hsp]; exact Bool.false_ne_true)]
    have hcut : (match d :: ds' ++ rest with
        | '-' :: s => (true, s)
        | '+' :: s => (false, s)
        | s => (false, s)) = (false, d :: ds' ++ rest) := by
      split
      · next heq => exact absurd (List.cons.inj heq).1 hminus
      · next heq => exact absurd (List.cons.inj heq).1 hplus
      · rfl
    simp only [numeral, List.nil_append, hskip, hcut, htake, hdrop, reduceCtorEq, if_false]
  · have hskip : ('+' :: (d :: ds' ++ rest)).dropWhile isSpace = '+' :: (d :: ds' ++ rest) := rfl
    simp only [numeral, List.singleton_append, hskip, htake, hdrop, reduceCtorEq, if_false]
  · have hskip : ('-' :: (d :: ds' ++ rest)).dropWhile isSpace = '-' :: (d :: ds' ++ rest) := rfl
    simp only [numeral, List.singleton_append, hskip, htake, hdrop, reduceCtorEq, if_false]

theorem numeral_space {ws s : List Char} (hws : ∀ c ∈ ws, isSpace c = true) :
    numeral (ws ++ s) = numeral s := by
  simp only [numeral, List.dropWhile_append_of_pos hws]

theorem numeral_parts {s rest : List Char} {neg : Bool} {n : ℕ}
    (h : numeral s = some (neg, n, rest)) :
    ∃ ws sign ds, s = ws ++ (sign ++ (ds ++ rest)) ∧ (∀ c ∈ ws, isSpace c = true) ∧ ds ≠ [] ∧
      (∀ c ∈ ds, c.isDigit = true) ∧ n = ofDigits ds ∧
      ((sign = [] ∨ sign = ['+']) ∧ neg = false ∨ sign = ['-'] ∧ neg = true) := by
  have hws : ∀ c ∈ s.takeWhile isSpace, isSpace c = true := fun c hc => List.mem_takeWhile_imp hc
  have hcut : s = s.takeWhile isSpace ++ s.dropWhile isSpace :=
    List.takeWhile_append_dropWhile.symm
  -- what the digits behind the sign are
  have hdigits : ∀ {t : List Char} {b : Bool},
      (if t.takeWhile Char.isDigit = [] then none
        else some (b, ofDigits (t.takeWhile Char.isDigit), t.dropWhile Char.isDigit)) =
        some (neg, n, rest) →
      ∃ ds, t = ds ++ rest ∧ ds ≠ [] ∧ (∀ c ∈ ds, c.isDigit = true) ∧ n = ofDigits ds ∧ b = neg := by
    intro t b ht
    split at ht
    · cases ht
    · rename_i hne
      cases ht
      exact ⟨_, List.takeWhile_append_dropWhile.symm, hne, fun c hc => List.mem_takeWhile_imp hc,
        rfl, rfl⟩
  unfold numeral at h
  dsimp only at h
  generalize s.dropWhile isSpace = t at h hcut
  split at h
  · obtain ⟨ds, rfl, hne, hds, hn, rfl⟩ := hdigits h
    exact ⟨_, ['-'], ds, hcut, hws, hne, hds, hn, Or.inr ⟨rfl, rfl⟩⟩
  · obtain ⟨ds, rfl, hne, hds, hn, rfl⟩ := hdigits h
    exact ⟨_, ['+'], ds, hcut, hws, hne, hds, hn, Or.inl ⟨Or.inr rfl, rfl⟩⟩
  · obtain ⟨ds, rfl, hne, hds, hn, rfl⟩ := hdigits h
    exact ⟨_, [], ds, hcut, hws, hne, hds, hn, Or.inl ⟨Or.inl rfl, rfl⟩⟩

/-- A numeral as a whole is one that a conversion takes to its end. -/
theorem denotes_iff {s : List Char} {z : ℤ} :
    Denotes s z ↔ ∃ neg n, numeral s = some (neg, n, []) ∧ z = if neg then -(n : ℤ) else n := by
  constructor
  · rintro ⟨ws, sign, ds, rfl, hws, hne, hds, hsign⟩
    have hend : ∀ c, ([] : List Char).head? = some c → c.isDigit = false := fun c h => by cases h
    rw [numeral_space hws, ← List.append_nil ds]
    rcases hsign with ⟨hsign, rfl⟩ | ⟨hsign, rfl⟩
    · exact ⟨false, _, numeral_digits (Or.inl ⟨hsign, rfl⟩) hne hds hend, by simp⟩
    · exact ⟨true, _, numeral_digits (Or.inr ⟨hsign, rfl⟩) hne hds hend, by simp⟩
  · rintro ⟨neg, n, hnum, rfl⟩
    obtain ⟨ws, sign, ds, rfl, hws, hne, hds, rfl, hsign⟩ := numeral_parts hnum
    rw [List.append_nil]
    refine ⟨ws, sign, ds, rfl, hws, hne, hds, ?_⟩
    rcases hsign with ⟨hsign, rfl⟩ | ⟨hsign, rfl⟩
    · exact Or.inl ⟨hsign, rfl⟩
    · exact Or.inr ⟨hsign, rfl⟩

theorem Denotes.unique {s : List Char} {z z' : ℤ} (h : Denotes s z) (h' : Denotes s z') :
    z = z' := by
  obtain ⟨neg, n, hnum, rfl⟩ := denotes_iff.mp h
  obtain ⟨neg', n', hnum', rfl⟩ := denotes_iff.mp h'
  cases hnum.symm.trans hnum'
  rfl

/-- `strtoull` of a numeral: reduced modulo `2 ^ 64`, unless it has too many digits. -/
theorem strtoull_of_denotes {s : List Char} {z : ℤ} (h : Denotes s z) :
    strtoull s = if z.natAbs > ullongMax then ⟨ullongMax, [], true⟩
      else ⟨(z % 2 ^ 64).toNat, [], false⟩ := by
  obtain ⟨neg, n, hnum, rfl⟩ := denotes_iff.mp h
  have habs : (if neg then -(n : ℤ) else n).natAbs = n := by
    cases neg <;> simp
  rw [strtoull, hnum, habs]
  dsimp only
  split
  · rfl
  · rename_i hle
    rw [ullongMax] at hle
    cases neg with
    | true =>
      rw [if_pos rfl, if_pos rfl]
      congr 1
      omega
    | false =>
      rw [if_neg Bool.false_ne_true, if_neg Bool.false_ne_true]
      congr 1
      omega

theorem strtol_of_denotes {s : List Char} {z : ℤ} (h : Denotes s z) :
    strtol s = if z > longMax then ⟨longMax, [], true⟩
      else if z < longMin then ⟨longMin, [], true⟩ else ⟨z, [], false⟩ := by
  obtain ⟨neg, n, hnum, rfl⟩ := denotes_iff.mp h
  rw [strtol, hnum]

/-- A text that is not empty and is converted to its end is a numeral. -/
theorem denotes_of_strtoull {s : List Char} (hne : s ≠ []) (h : (strtoull s).rest = []) :
    ∃ z, Denotes s z := by
  unfold strtoull at h
  cases hnum : numeral s with
  | none =>
    rw [hnum] at h
    exact absurd h hne
  | some p =>
    obtain ⟨neg, n, rest⟩ := p
    rw [hnum] at h
    have hrest : rest = [] := by
      dsimp only at h
      split at h <;> exact h
    exact ⟨_, denotes_iff.mpr ⟨neg, n, by rw [hnum, hrest], rfl⟩⟩

theorem denotes_of_strtol {s : List Char} (hne : s ≠ []) (h : (strtol s).rest = []) :
    ∃ z, Denotes s z := by
  unfold strtol at h
  cases hnum : numeral s with
  | none =>
    rw [hnum] at h
    exact absurd h hne
  | some p =>
    obtain ⟨neg, n, rest⟩ := p
    rw [hnum] at h
    have hrest : rest = [] := by
      dsimp only at h
      generalize (if neg = true then -(n : ℤ) else n) = v at h
      split at h
      · exact h
      · split at h <;> exact h
    exact ⟨_, denotes_iff.mpr ⟨neg, n, by rw [hnum, hrest], rfl⟩⟩

/-! ## Reading back -/

/-- A printed number is a numeral. -/
theorem denotes_showInt (i : ℤ) : Denotes (showInt i) i := by
  have hval : ofDigits (showNat i.natAbs) = i.natAbs := Nat.ofDigitChars_ten_toDigits
  have hdigits : ∀ c ∈ showNat i.natAbs, c.isDigit = true := fun c hc => isDigit_of_mem_showNat hc
  have hne := showNat_ne_nil i.natAbs
  rw [showInt]
  generalize showNat i.natAbs = ds at hval hdigits hne
  split
  · refine ⟨[], ['-'], ds, rfl, by simp, hne, hdigits, Or.inr ⟨rfl, ?_⟩⟩
    rw [hval]
    omega
  · refine ⟨[], [], ds, rfl, by simp, hne, hdigits, Or.inl ⟨Or.inl rfl, ?_⟩⟩
    rw [hval]
    omega

/-- **`strtol` reads back what `%d` prints.** -/
theorem strtol_showInt {i : ℤ} (hlo : longMin ≤ i) (hhi : i ≤ longMax) :
    strtol (showInt i) = ⟨i, [], false⟩ := by
  rw [strtol_of_denotes (denotes_showInt i), if_neg (not_lt.mpr hhi), if_neg (not_lt.mpr hlo)]

/-- **`strtoull` reads a printed number modulo `2 ^ 64`**, negative ones too. -/
theorem strtoull_showInt {i : ℤ} (h : i.natAbs ≤ ullongMax) :
    strtoull (showInt i) = ⟨(i % 2 ^ 64).toNat, [], false⟩ := by
  rw [strtoull_of_denotes (denotes_showInt i), if_neg (not_lt.mpr h)]

/-! ## Cutting at a character -/

theorem takeWhile_of_split {c : Char} {a b : List Char} (ha : c ∉ a) :
    (a ++ c :: b).takeWhile (· ≠ c) = a := by
  have hne : ∀ x ∈ a, decide (x ≠ c) = true := fun x hx => decide_eq_true fun e => ha (e ▸ hx)
  rw [List.takeWhile_append_of_pos hne, List.takeWhile_cons_of_neg (by simp), List.append_nil]

/-- A string is cut at its first occurrence, whatever follows. -/
theorem takeWhile_append_of_mem {c : Char} {a : List Char} (h : c ∈ a) (b : List Char) :
    (a ++ b).takeWhile (· ≠ c) = a.takeWhile (· ≠ c) := by
  obtain ⟨p, q, rfl, hp⟩ := List.eq_append_cons_of_mem h
  rw [List.append_assoc, List.cons_append, takeWhile_of_split hp, takeWhile_of_split hp]

/-! ## Letters -/

theorem toLower_toLower (c : Char) : c.toLower.toLower = c.toLower := by
  by_cases h : c.val ≥ 'A'.val ∧ c.val ≤ 'Z'.val
  · have hlow : c.toLower.val = c.val + 32 := congrArg Char.val (dif_pos h)
    have hnot : ¬ (c.toLower.val ≥ 'A'.val ∧ c.toLower.val ≤ 'Z'.val) := by
      rw [hlow]
      simp only [ge_iff_le, UInt32.le_iff_toNat_le, UInt32.toNat_add] at h ⊢
      simp at h ⊢
      omega
    exact dif_neg hnot
  · have hc : c.toLower = c := dif_neg h
    rw [hc, hc]

/-- A character before the letters comes from itself only. -/
theorem toLower_eq_iff {c d : Char} (hd : d.val < 'A'.val) : c.toLower = d ↔ c = d := by
  by_cases h : c.val ≥ 'A'.val ∧ c.val ≤ 'Z'.val
  · have hlow : c.toLower.val = c.val + 32 := congrArg Char.val (dif_pos h)
    have hne : c.toLower.val ≠ d.val := by
      rw [hlow]
      intro heq
      have hnat := congrArg UInt32.toNat heq
      simp only [ge_iff_le, UInt32.le_iff_toNat_le, UInt32.lt_iff_toNat_lt, UInt32.toNat_add]
        at h hd hnat
      simp at h hd hnat
      omega
    refine iff_of_false (fun e => hne (congrArg Char.val e)) ?_
    rintro rfl
    exact absurd hd (UInt32.not_lt.mpr h.1)
  · have hc : c.toLower = c := dif_neg h
    rw [hc]

theorem mem_map_toLower {d : Char} (hd : d.val < 'A'.val) (s : List Char) :
    d ∈ s.map Char.toLower ↔ d ∈ s := by
  rw [List.mem_map]
  constructor
  · rintro ⟨c, hc, heq⟩
    exact (toLower_eq_iff hd).mp heq ▸ hc
  · intro h
    exact ⟨d, h, (toLower_eq_iff hd).mpr rfl⟩

/-! ## Searching -/

/-- `strstr`: the string from the first occurrence of `needle` on. -/
def strstr : List Char → List Char → Option (List Char)
  | [], needle => if needle = [] then some [] else none
  | c :: s, needle => if needle <+: c :: s then some (c :: s) else strstr s needle

theorem strstr_at_start {s needle : List Char} (h : needle <+: s) : strstr s needle = some s := by
  cases s with
  | nil => rw [strstr, if_pos (List.prefix_nil.mp h)]
  | cons c s => rw [strstr, if_pos h]

/-- What is found is the end of the string and starts with the needle. -/
theorem strstr_eq_some {s needle t : List Char} (h : strstr s needle = some t) :
    t <:+ s ∧ needle <+: t := by
  induction s with
  | nil =>
    rw [strstr] at h
    split at h
    · next hn =>
      cases h
      exact ⟨List.suffix_rfl, hn ▸ List.prefix_rfl⟩
    · cases h
  | cons c s ih =>
    rw [strstr] at h
    split at h
    · next hp =>
      cases h
      exact ⟨List.suffix_rfl, hp⟩
    · exact ⟨(ih h).1.trans (List.suffix_cons c s), (ih h).2⟩

theorem strstr_isSome_iff {s needle : List Char} : (strstr s needle).isSome ↔ needle <:+: s := by
  induction s with
  | nil => simp [strstr, List.infix_nil]
  | cons c s ih =>
    rw [strstr, List.infix_cons_iff]
    by_cases hp : needle <+: c :: s
    · rw [if_pos hp]
      exact iff_of_true rfl (Or.inl hp)
    · rw [if_neg hp, ih, or_iff_right hp]

/-- An occurrence is found in a longer string as well. -/
theorem strstr_append {s needle t : List Char} (h : strstr s needle = some t) (r : List Char) :
    strstr (s ++ r) needle = some (t ++ r) := by
  induction s with
  | nil =>
    rw [strstr] at h
    split at h
    · next hn =>
      cases h
      exact strstr_at_start (hn ▸ List.nil_prefix)
    · cases h
  | cons c s ih =>
    rw [strstr] at h
    rw [List.cons_append, strstr]
    split at h
    · next hp =>
      cases h
      exact if_pos (hp.trans (List.prefix_append (c :: s) r))
    · next hp =>
      obtain ⟨hsuf, hpre⟩ := strstr_eq_some h
      split
      · next hlong =>
        -- the needle fits into `s`, so it ends before `r`
        have hlen : needle.length ≤ (c :: s).length :=
          (hpre.length_le.trans hsuf.length_le).trans (Nat.le_succ _)
        exact absurd (List.prefix_of_prefix_length_le hlong (List.prefix_append (c :: s) r) hlen) hp
      · exact ih h

/-- What one more character makes appear ends with it. -/
theorem strstr_concat {s needle t : List Char} {c : Char} (h : strstr s needle = none)
    (h' : strstr (s ++ [c]) needle = some t) : t = needle := by
  induction s with
  | nil =>
    rw [strstr] at h
    split at h
    · cases h
    · next hne =>
      rw [List.nil_append, strstr] at h'
      split at h'
      · next hp =>
        cases h'
        have hone : needle <+: [] ++ [c] := hp
        exact (List.prefix_concat_iff.mp hone).elim Eq.symm fun hn =>
          absurd (List.prefix_nil.mp hn) hne
      · rw [strstr, if_neg hne] at h'
        cases h'
  | cons d s ih =>
    rw [strstr] at h
    split at h
    · cases h
    · next hp =>
      rw [List.cons_append, strstr] at h'
      split at h'
      · next hp' =>
        cases h'
        rw [← List.cons_append] at hp' ⊢
        exact (List.prefix_concat_iff.mp hp').elim Eq.symm fun hn => absurd hn hp
      · exact ih h h'

/-- A needle without the character `c` is found before it or behind it. -/
theorem strstr_past {needle : List Char} {c : Char} (hne : needle ≠ []) (hc : c ∉ needle)
    (a b : List Char) :
    strstr (a ++ c :: b) needle =
      match strstr a needle with
      | some t => some (t ++ c :: b)
      | none => strstr b needle := by
  -- a needle at the start that reaches `c` would contain it
  have hshort : ∀ s : List Char, needle <+: s ++ c :: b → needle <+: s := by
    intro s h
    refine List.prefix_of_prefix_length_le h (List.prefix_append s _) (not_lt.mp fun hlong => hc ?_)
    have hsc : s ++ [c] <+: needle :=
      List.prefix_of_prefix_length_le (by simp) h (by rwa [List.length_append, List.length_singleton])
    exact hsc.subset (by simp)
  induction a with
  | nil =>
    have hno : ¬ needle <+: c :: b := fun h => hne (List.prefix_nil.mp (hshort [] h))
    have hnil : strstr [] needle = none := if_neg hne
    rw [List.nil_append, hnil, strstr, if_neg hno]
  | cons d a ih =>
    have hlong : needle <+: d :: (a ++ c :: b) ↔ needle <+: d :: a :=
      ⟨hshort (d :: a), fun h => h.trans (List.prefix_append (d :: a) _)⟩
    rw [List.cons_append, strstr, strstr, ih]
    by_cases hp : needle <+: d :: a
    · rw [if_pos hp, if_pos (hlong.mpr hp)]
      rfl
    · rw [if_neg hp, if_neg fun h => hp (hlong.mp h)]

end DataCommons.CString
