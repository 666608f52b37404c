import DataCommons.Flags.Numbers

/-!
# The sizes that are accepted

A size text is a run of digits with an optional letter for a power of 1024.

* `sizeMult_toUpper`: the letters, in either case;
* `parseSize_digits`: what the case `FLAG_SIZE` makes of a text that begins with a
  digit;
* `size_value`: what a size flag makes of it.
-/

namespace DataCommons.Flags

open CString

variable {F D : Type}

def suffixMult : List Char → Option ℕ
  | [] => some 1
  | ['K'] | ['k'] => some (2 ^ 10)
  | ['M'] | ['m'] => some (2 ^ 20)
  | ['G'] | ['g'] => some (2 ^ 30)
  | ['T'] | ['t'] => some (2 ^ 40)
  | ['P'] | ['p'] => some (2 ^ 50)
  | _ => none

/-- `text` is a run of digits and a suffix, and means `k`. -/
def SizeText (text : Str) (k : ℕ) : Prop :=
  ∃ ds suf m, text = ds ++ suf ∧ ds ≠ [] ∧ (∀ c ∈ ds, c.isDigit = true) ∧
    suffixMult suf = some m ∧ k = ofDigits ds * m

/-! ## Suffixes -/

/-- A character that is put into upper case was that letter in one of the cases. -/
theorem toUpper_cases {c u l : Char} (h : c.toUpper = u) (hl : u.val - ('A'.val - 'a'.val) = l.val) :
    c = u ∨ c = l := by
  unfold Char.toUpper at h
  split at h
  · have hval := congrArg Char.val h
    exact Or.inr (Char.ext (by rw [← hl, ← hval]; simp))
  · exact Or.inl h

theorem sizeMult_toUpper (c : Char) : sizeMult c.toUpper = suffixMult [c] := by
  unfold sizeMult
  split
  · rename_i h
    rcases @toUpper_cases c 'K' 'k' h rfl with rfl | rfl <;> rfl
  · rename_i h
    rcases @toUpper_cases c 'M' 'm' h rfl with rfl | rfl <;> rfl
  · rename_i h
    rcases @toUpper_cases c 'G' 'g' h rfl with rfl | rfl <;> rfl
  · rename_i h
    rcases @toUpper_cases c 'T' 't' h rfl with rfl | rfl <;> rfl
  · rename_i h
    rcases @toUpper_cases c 'P' 'p' h rfl with rfl | rfl <;> rfl
  · rename_i hK hM hG hT hP
    -- no letter of the table goes to upper case outside it
    unfold suffixMult
    split
    all_goals first
      | rfl
      | (rename_i heq
         cases heq <;> first
           | exact absurd rfl hK
           | exact absurd rfl hM
           | exact absurd rfl hG
           | exact absurd rfl hT
           | exact absurd rfl hP)

theorem suffix_scanner (suf : List Char) :
    (match suf with
      | [] => some 1
      | [s] => sizeMult s.toUpper
      | _ => none) = suffixMult suf := by
  match suf with
  | [] => rfl
  | [c] => exact sizeMult_toUpper c
  | a :: b :: rest =>
    rw [suffixMult]
    all_goals simp

theorem suffix_not_digit {suf : List Char} {m : ℕ} (h : suffixMult suf = some m) :
    ∀ c, suf.head? = some c → c.isDigit = false := by
  intro c hc
  unfold suffixMult at h
  split at h <;> first | (cases hc; rfl) | cases hc | cases h

/-! ## The conversion -/

/-- The digits and what follows them are the parts of a size text. -/
theorem sizeText_iff {ds suf : List Char} (hne : ds ≠ []) (hds : ∀ c ∈ ds, c.isDigit = true)
    (hsuf : ∀ c, suf.head? = some c → c.isDigit = false) (k : ℕ) :
    SizeText (ds ++ suf) k ↔ ∃ m, suffixMult suf = some m ∧ k = ofDigits ds * m := by
  constructor
  · rintro ⟨ds', suf', m, heq, -, hds', hm, rfl⟩
    have h := takeWhile_digits hds hsuf
    have h' := takeWhile_digits hds' (suffix_not_digit hm)
    rw [heq] at h
    rw [h.1.symm.trans h'.1, h.2.symm.trans h'.2]
    exact ⟨m, hm, rfl⟩
  · rintro ⟨m, hm, rfl⟩
    exact ⟨ds, suf, m, rfl, hne, hds, hm, rfl⟩

/-- **The case `FLAG_SIZE`** on digits and what follows them. -/
theorem parseSize_digits {ds suf : List Char} (hne : ds ≠ []) (hds : ∀ c ∈ ds, c.isDigit = true)
    (hsuf : ∀ c, suf.head? = some c → c.isDigit = false) :
    parseSize (ds ++ suf) =
      if ofDigits ds > ullongMax then .error .integerOverflow
      else
        match suffixMult suf with
        | none => .error .invalidNumber
        | some m =>
          if ofDigits ds * m > uint64Max then .error .integerOverflow else .ok (ofDigits ds * m) := by
  have hnum : numeral (ds ++ suf) = some (false, ofDigits ds, suf) :=
    numeral_digits (Or.inl ⟨Or.inl rfl, rfl⟩) hne hds hsuf
  simp only [parseSize, strtoull, hnum]
  by_cases hbig : ofDigits ds > ullongMax
  · rw [if_pos hbig, if_pos hbig, if_pos ⟨rfl, rfl⟩]
  · rw [if_neg hbig, if_neg hbig]
    simp only [Bool.false_eq_true, and_false, if_false]
    exact suffix_scanner suf ▸ rfl

/-- A text that begins with a digit is digits and what follows them. -/
theorem digits_and_rest {text : Str} (hdigit : ∃ d, text.head? = some d ∧ d.isDigit = true) :
    ∃ ds suf, text = ds ++ suf ∧ ds ≠ [] ∧ (∀ c ∈ ds, c.isDigit = true) ∧
      ∀ c, suf.head? = some c → c.isDigit = false := by
  obtain ⟨d, hd, hdig⟩ := hdigit
  obtain ⟨t, rfl⟩ := List.head?_eq_some_iff.mp hd
  refine ⟨_, _, List.takeWhile_append_dropWhile.symm, ?_, fun c hc => List.mem_takeWhile_imp hc,
    fun c hc => ?_⟩
  · rw [List.takeWhile_cons, if_pos hdig]
    exact List.cons_ne_nil _ _
  · have hnot := List.head?_dropWhile_not Char.isDigit (d :: t)
    rw [hc] at hnot
    exact hnot

theorem suffixMult_pos {suf : List Char} {m : ℕ} (h : suffixMult suf = some m) : 1 ≤ m := by
  unfold suffixMult at h
  split at h <;> cases h <;> decide

theorem parseSize_ok {text : Str} (hdigit : ∃ d, text.head? = some d ∧ d.isDigit = true) (k : ℕ) :
    parseSize text = .ok k ↔ SizeText text k ∧ k ≤ 2 ^ 64 - 1 := by
  have hmax : ullongMax = 2 ^ 64 - 1 := rfl
  have hmax' : uint64Max = 2 ^ 64 - 1 := rfl
  obtain ⟨ds, suf, rfl, hne, hds, hsuf⟩ := digits_and_rest hdigit
  rw [sizeText_iff hne hds hsuf, parseSize_digits hne hds hsuf]
  cases hm : suffixMult suf with
  | none =>
    refine ⟨fun h => ?_, fun ⟨⟨m, hm', _⟩, _⟩ => (by cases hm')⟩
    split at h <;> cases h
  | some m =>
    -- the digits alone are no more than the product
    have hle := Nat.le_mul_of_pos_right (ofDigits ds) (suffixMult_pos hm)
    simp only [Option.some.injEq, exists_eq_left']
    by_cases hbig : ofDigits ds > ullongMax
    · rw [if_pos hbig]
      exact ⟨fun h => (by cases h), fun ⟨hk, hle'⟩ => by omega⟩
    · rw [if_neg hbig]
      by_cases hprod : ofDigits ds * m > uint64Max
      · rw [if_pos hprod]
        exact ⟨fun h => (by cases h), fun ⟨hk, hle'⟩ => by omega⟩
      · rw [if_neg hprod]
        refine ⟨fun h => ?_, fun ⟨hk, _⟩ => by rw [hk]⟩
        cases h
        exact ⟨rfl, by omega⟩

theorem parseSize_overflow {text : Str} (hdigit : ∃ d, text.head? = some d ∧ d.isDigit = true)
    {k : ℕ} (hk : SizeText text k) (hlt : 2 ^ 64 - 1 < k) :
    parseSize text = .error .integerOverflow := by
  obtain ⟨ds, suf, rfl, hne, hds, hsuf⟩ := digits_and_rest hdigit
  obtain ⟨m, hm, rfl⟩ := (sizeText_iff hne hds hsuf k).mp hk
  rw [parseSize_digits hne hds hsuf, hm]
  dsimp only
  split
  · rfl
  · exact if_pos hlt

/-! ## The option -/

theorem flagStore_size {lib : FloatLib F D} {ignore : Bool} {text : Str} {v w : FlagVal F D}
    (hv : v.type = .size) :
    flagStore lib ignore text v = some (.ok w) ↔
      ∃ k, parseSize text = .ok k ∧ w = if ignore then v else .size (UInt64.ofNat k) := by
  cases v <;> cases hv
  rename_i old
  refine (storeNumber_ok ignore old (parseSize text) UInt64.ofNat .size w).trans ?_
  refine exists_congr fun k => and_congr_right fun _ => ?_
  cases ignore <;> rfl

theorem flagStore_size_error {lib : FloatLib F D} {ignore : Bool} {text : Str} {v : FlagVal F D}
    {e : FlagError} (hv : v.type = .size) (h : parseSize text = .error e) :
    flagStore lib ignore text v = some (.error e) := by
  cases v <;> cases hv
  rw [flagStore, h]
  rfl

/-- **Size values.**  A size flag accepts a text that begins with a digit if and only
if it is digits with a suffix and the product fits 64 bits; it then holds the
product.  A product that does not fit is reported as an overflow, and the flags
stay. -/
theorem size_value {lib : FloatLib F D} {c₀ c : FlagCtx F D} {argv args : List Str} {f : Flag F D}
    {ignore : Bool} {text : Str} (h : AtOption lib c₀ argv c args f ignore text)
    (hty : f.val.type = .size) (hdigit : ∃ d, text.head? = some d ∧ d.isDigit = true) :
    (AcceptsValue lib c args ↔ ∃ k, SizeText text k ∧ k ≤ 2 ^ 64 - 1) ∧
    (∀ c' rest, loopRound lib c args = .next c' rest → ignore = false →
      ∃ f' ∈ c'.flags, f'.name = f.name ∧
        ∃ v k, f'.val = .size v ∧ SizeText text k ∧ v.toNat = k) ∧
    ∀ k, SizeText text k → 2 ^ 64 - 1 < k → flagParse lib c₀ argv =
      some ({ c with flagError := .integerOverflow, flagErrorName := some f.name }, [], false) := by
  refine ⟨?_, fun c' rest hnext hig => ?_, fun k hk hlt => h.rejected ?_⟩
  · rw [h.accepts_iff]
    constructor
    · rintro ⟨w, hw⟩
      obtain ⟨k, hk, -⟩ := (flagStore_size hty).mp hw
      exact ⟨k, (parseSize_ok hdigit k).mp hk⟩
    · rintro ⟨k, hk⟩
      exact ⟨_, (flagStore_size hty).mpr ⟨k, (parseSize_ok hdigit k).mpr hk, rfl⟩⟩
  · obtain ⟨w, hw, hmem⟩ := h.stored hnext
    obtain ⟨k, hk, rfl⟩ := (flagStore_size hty).mp hw
    obtain ⟨htext, hle⟩ := (parseSize_ok hdigit k).mp hk
    subst hig
    have hval : (UInt64.ofNat k).toNat = k := UInt64.toNat_ofNat_of_lt' (Nat.lt_succ_of_le hle)
    exact ⟨_, hmem, rfl, UInt64.ofNat k, k, rfl, htext, hval⟩
  · exact flagStore_size_error hty (parseSize_overflow hdigit hk hlt)

def sizeFlag : FlagCtx Unit Unit :=
  { intFlags [] with flags := [⟨"s".toList, .size 5, false, false⟩] }

theorem size_value_10K :
    (AcceptsValue noFloat { sizeFlag with programName := some "prog".toList } ["-s=10K".toList] ↔
      ∃ k, SizeText "10K".toList k ∧ k ≤ 2 ^ 64 - 1) ∧
    (∀ c' rest, loopRound noFloat { sizeFlag with programName := some "prog".toList }
        ["-s=10K".toList] = .next c' rest → false = false →
      ∃ f' ∈ c'.flags, f'.name = "s".toList ∧
        ∃ v k, f'.val = .size v ∧ SizeText "10K".toList k ∧ v.toNat = k) ∧
    ∀ k, SizeText "10K".toList k → 2 ^ 64 - 1 < k →
      flagParse noFloat sizeFlag ["prog".toList, "-s=10K".toList] =
        some ({ sizeFlag with programName := some "prog".toList, flagError := .integerOverflow,
                              flagErrorName := some "s".toList }, [], false) :=
  @size_value _ _ noFloat sizeFlag _ _ _ ⟨"s".toList, .size 5, false, false⟩ false "10K".toList
    ⟨by decide, .refl _ _, by decide, List.mem_cons_self, by decide, _, _, _, _, rfl, rfl, rfl⟩ rfl
    ⟨'1', rfl, rfl⟩

end DataCommons.Flags
