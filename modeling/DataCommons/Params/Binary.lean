import DataCommons.Params.Single

/-!
# Saving and reading back a binary variable

A binary variable is written as `0x` and two hexadecimal digits for each byte.  The
parser converts two digits at a time from `temp`, whose third byte it never sets: the
conversion stops there unless that byte is a digit as well.

* `strtoul16_showByte`: what the conversion of one byte gives;
* `binLoop_hex`: the loop over all of them;
* `binary_restores_iff`: the condition under which the bytes come back.
-/

namespace DataCommons.Params

open CString

variable {F : Type}

/-! ## One byte -/

def hexDigit (n : ℕ) : Char :=
  if n < 10 then Char.ofNat ('0'.toNat + n) else Char.ofNat ('A'.toNat + n - 10)

theorem showByte_eq (b : UInt8) :
    showByte b = [hexDigit (b.toNat / 16), hexDigit (b.toNat % 16)] := by
  have hall : ∀ n < 256, showByte (UInt8.ofNat n)
      = [hexDigit ((UInt8.ofNat n).toNat / 16), hexDigit ((UInt8.ofNat n).toNat % 16)] := by
    decide +kernel
  have h := hall b.toNat b.toNat_lt
  rwa [UInt8.ofNat_toNat] at h

/-- A printed digit is read as one, and as nothing else. -/
theorem hexDigit_facts {n : ℕ} (h : n < 16) :
    hexVal (hexDigit n) = some n ∧ isSpace (hexDigit n) = false ∧ hexDigit n ≠ '-' ∧
      hexDigit n ≠ '+' ∧ hexDigit n ≠ 'x' ∧ hexDigit n ≠ 'X' ∧ hexDigit n ≠ ' ' ∧
        hexDigit n ≠ '\n' ∧ hexDigit n ≠ '=' := by
  have hall : ∀ n < 16, hexVal (hexDigit n) = some n ∧ isSpace (hexDigit n) = false ∧
      hexDigit n ≠ '-' ∧ hexDigit n ≠ '+' ∧ hexDigit n ≠ 'x' ∧ hexDigit n ≠ 'X' ∧
        hexDigit n ≠ ' ' ∧ hexDigit n ≠ '\n' ∧ hexDigit n ≠ '=' := by
    decide
  exact hall n h

/-- Two digits are converted up to the byte behind them. -/
theorem hexDigits_two {n m : ℕ} (hn : n < 16) (hm : m < 16) (t : Char) :
    hexDigits 0 [hexDigit n, hexDigit m, t]
      = if (hexVal t).isSome then none else some (16 * n + m) := by
  simp only [hexDigits, (hexDigit_facts hn).1, (hexDigit_facts hm).1, mul_zero, zero_add]
  cases hexVal t <;> rfl

/-- **The conversion of one byte** depends on what `temp` holds behind its digits. -/
theorem strtoul16_showByte (b : UInt8) (t : Char) :
    strtoul16 (showByte b ++ [t]) = if (hexVal t).isSome then none else some b.toNat := by
  have hb := b.toNat_lt
  have hn : b.toNat / 16 < 16 := by omega
  have hm : b.toNat % 16 < 16 := by omega
  obtain ⟨-, hsp, hminus, hplus, -⟩ := hexDigit_facts hn
  obtain ⟨-, -, -, -, hx, hX, -⟩ := hexDigit_facts hm
  have hdigits := hexDigits_two hn hm t
  rw [show 16 * (b.toNat / 16) + b.toNat % 16 = b.toNat by omega] at hdigits
  rw [showByte_eq, List.cons_append, List.cons_append, List.nil_append, ← hdigits, strtoul16,
    List.dropWhile_cons_of_neg (by rw [hsp]; exact Bool.false_ne_true)]
  -- neither a sign nor `0x` starts the digits
  generalize hexDigit (b.toNat / 16) = x at hminus hplus
  generalize hexDigit (b.toNat % 16) = y at hx hX
  split
  · next heq => exact absurd (List.cons.inj heq).1 hminus
  · next heq => exact absurd (List.cons.inj heq).1 hplus
  · unfold hexNumber
    split
    · next heq =>
      cases heq
      rw [if_neg (by simp only [hx, hX, or_self, not_false_eq_true])]
    · rfl

/-! ## All bytes -/

theorem flatMap_showByte_length (bytes : List UInt8) :
    (bytes.flatMap showByte).length = 2 * bytes.length := by
  induction bytes with
  | nil => rfl
  | cons b bytes ih =>
    rw [List.flatMap_cons, List.length_append, ih, showByte_eq, List.length_cons]
    simp only [List.length_cons, List.length_nil]
    omega

theorem flatMap_showByte_chars {bytes : List UInt8} {c : Char} (h : c ∈ bytes.flatMap showByte) :
    c ≠ ' ' ∧ c ≠ '\n' ∧ c ≠ '=' := by
  obtain ⟨b, -, hc⟩ := List.mem_flatMap.mp h
  have hb := b.toNat_lt
  rw [showByte_eq] at hc
  rcases List.mem_cons.mp hc with rfl | hc
  · exact (hexDigit_facts (by omega : b.toNat / 16 < 16)).2.2.2.2.2.2
  · rw [List.mem_singleton.mp hc]
    exact (hexDigit_facts (by omega : b.toNat % 16 < 16)).2.2.2.2.2.2

theorem binLoop_showByte (env : Env F) (b old : UInt8) (digits : Str) (bytes : List UInt8) :
    binLoop env (showByte b ++ digits) (old :: bytes)
      = if (hexVal env.tempByte).isSome then (old :: bytes, .undefined)
        else (b :: (binLoop env digits bytes).1, (binLoop env digits bytes).2) := by
  have hread := strtoul16_showByte b env.tempByte
  rw [showByte_eq] at hread ⊢
  simp only [List.cons_append, List.nil_append] at hread ⊢
  rw [binLoop, hread]
  by_cases ht : (hexVal env.tempByte).isSome = true
  · rw [if_pos ht, if_pos ht]
  · rw [if_neg ht, if_neg ht]
    dsimp only
    rw [UInt8.ofNat_toNat]

/-- **The loop over the digits of a saved variable** gives all bytes, unless `temp`
has a digit behind them. -/
theorem binLoop_hex (env : Env F) {bytes old : List UInt8} (hlen : old.length = bytes.length)
    (ht : bytes = [] ∨ hexVal env.tempByte = none) :
    binLoop env (bytes.flatMap showByte) old = (bytes, .done) := by
  induction bytes generalizing old with
  | nil =>
    rw [List.length_eq_zero_iff.mp hlen]
    rfl
  | cons b bytes ih =>
    have ht := ht.resolve_left (List.cons_ne_nil b bytes)
    cases old with
    | nil => cases hlen
    | cons o old =>
      rw [List.flatMap_cons, binLoop_showByte, if_neg (by simp [ht]),
        ih (Nat.succ.inj hlen) (Or.inr ht)]

theorem binLoop_hex_undefined (env : Env F) {bytes old : List UInt8}
    (hlen : old.length = bytes.length) (hne : bytes ≠ [])
    (ht : (hexVal env.tempByte).isSome = true) :
    (binLoop env (bytes.flatMap showByte) old).2 = .undefined := by
  obtain ⟨b, bytes, rfl⟩ := List.exists_cons_of_ne_nil hne
  cases old with
  | nil => cases hlen
  | cons o old => rw [List.flatMap_cons, binLoop_showByte, if_pos ht]

/-! ## The variable in its line -/

section Binary

variable {env : Env F} {p : Param F} {bytes : List UInt8}

theorem saveLine_binary (hv : p.var = .binary bytes) :
    saveLine env p = p.name ++ '=' :: (("0x".toList ++ bytes.flatMap showByte) ++ ['\n']) := by
  rw [saveLine_eq, saveValue, hv]

theorem binaryText_chars {c : Char} (h : c ∈ "0x".toList ++ bytes.flatMap showByte) :
    c ≠ ' ' ∧ c ≠ '\n' ∧ c ≠ '=' := by
  rcases List.mem_append.mp h with h | h
  · rcases List.mem_cons.mp h with rfl | h
    · decide
    · rw [List.mem_singleton.mp h]
      decide
  · exact flatMap_showByte_chars h

theorem valueOf_binary {old : List UInt8} :
    valueOf (F := F) (.binary old)
        ((("0x".toList ++ bytes.flatMap showByte) ++ ['\n']).dropWhile (· = ' '))
      = .value ("0x".toList ++ bytes.flatMap showByte) ['\n'] := by
  have hblank : ' ' ∉ ("0x".toList ++ bytes.flatMap showByte) ++ ['\n'] := by
    simpa using fun h => (flatMap_showByte_chars h).1 rfl
  have hnl : '\n' ∉ "0x".toList ++ bytes.flatMap showByte := fun h => (binaryText_chars h).2.1 rfl
  rw [dropWhile_blank (by simp) (fun h => (binaryText_chars h).1 rfl)]
  simp only [valueOf, cutAt, if_neg hblank]
  rw [← cutAt, cutAt_append hnl]

theorem binDigits_saved : binDigits ("0x".toList ++ bytes.flatMap showByte)
    = bytes.flatMap showByte := by
  rw [binDigits, strstr_at_start (List.prefix_append _ _)]
  rfl

theorem saveLine_binary_length (env : Env F) (hv : p.var = .binary bytes) :
    (saveLine env p).length = p.name.length + 2 * bytes.length + 4 := by
  rw [saveLine_binary hv]
  simp only [List.length_append, List.length_cons, List.length_nil, flatMap_showByte_length]
  have : "0x".toList.length = 2 := rfl
  omega

end Binary

/-- **A binary variable stays wrong** if `temp` has a digit behind the two. -/
theorem not_restores_binary {env : Env F} {c : ParamCtx F} {p : Param F} {bytes : List UInt8}
    {filename : Str} (hc : c.params = [p]) (hv : p.var = .binary bytes) (hname : Readable p.name)
    (hlen : (saveLine env p).length < nameSize)
    (hbad : ¬ (bytes = [] ∨ hexVal env.tempByte = none)) : ¬ Restores env c filename := by
  have hnl : '\n' ∉ "0x".toList ++ bytes.flatMap showByte := fun h => (binaryText_chars h).2.1 rfl
  rw [not_or] at hbad
  refine not_restores_of_value hc (saveLine_binary hv) hnl hname hlen (Registered.refl p)
    (fun text e htext => Or.inr ?_) (by rw [hv, valueOf_binary]; simp)
  rw [hv, valueOf_binary] at htext
  cases htext
  have hshort : ¬ (bytes.flatMap showByte).length / 2 > maxBin := by
    rw [saveLine_binary_length env hv] at hlen
    rw [flatMap_showByte_length]
    simp only [nameSize, maxBin] at hlen ⊢
    omega
  rw [hv, assignVar, binDigits_saved, if_neg hshort]
  dsimp only
  rw [binLoop_hex_undefined env rfl hbad.1 (Option.isSome_iff_ne_none.mpr hbad.2)]
  simp

/-- **A saved binary variable comes back exactly if** its name can be read, its line
fits `name`, and the byte behind the digits in `temp` is no digit, if there are any. -/
theorem binary_restores_iff {env : Env F} {c : ParamCtx F} {p : Param F} {bytes : List UInt8}
    {filename : Str} (hc : c.params = [p]) (hv : p.var = .binary bytes)
    (htxt : (strstr filename ".txt".toList).isSome) :
    Restores env c filename ↔
      Readable p.name ∧ p.name.length + 2 * bytes.length + 4 < nameSize ∧
        (bytes = [] ∨ hexVal env.tempByte = none) := by
  rw [← saveLine_binary_length env hv]
  have heq : '=' ∉ "0x".toList ++ bytes.flatMap showByte := fun h => (binaryText_chars h).2.2 rfl
  have hnl : '\n' ∉ "0x".toList ++ bytes.flatMap showByte := fun h => (binaryText_chars h).2.1 rfl
  constructor
  · intro h
    have hline : Readable p.name ∧ (saveLine env p).length < nameSize := by
      by_contra hbad
      exact not_restores hc (saveLine_binary hv) heq hnl hbad h
    refine ⟨hline.1, hline.2, ?_⟩
    by_contra hbad
    exact not_restores_binary hc hv hline.1 hline.2 hbad h
  · rintro ⟨hname, hlen, ht⟩
    have hrefuse : refusesSave p = false := by rw [refusesSave, hv]
    refine restores_of_value hc hrefuse (saveLine_binary hv) hnl hname hlen htxt fun q hq => ?_
    have hqt := hq.type
    cases hqv : q.var with
    | binary old =>
      rw [hqv, hv] at hqt
      have hold : old.length = bytes.length := VarType.binary.inj hqt
      have hshort : ¬ (bytes.flatMap showByte).length / 2 > maxBin := by
        rw [saveLine_binary_length env hv] at hlen
        rw [flatMap_showByte_length]
        simp only [nameSize, maxBin] at hlen ⊢
        omega
      refine ⟨_, _, valueOf_binary, ?_⟩
      rw [assignVar, binDigits_saved, if_neg hshort, binLoop_hex env hold ht, hv]
      rfl
    | _ =>
      rw [hqv, hv] at hqt
      cases hqt

def binParam (bytes : List UInt8) : Param Unit :=
  ⟨"PBIN".toList, "a binary".toList, true, false, .binary bytes⟩

def oneBin (bytes : List UInt8) : ParamCtx Unit := ⟨[binParam bytes], .noError⟩

theorem binary_restores_iff_two : Restores noFloats (oneBin [255, 0]) "params.txt".toList :=
  have hv : (binParam [255, 0]).var = .binary [255, 0] := rfl
  (binary_restores_iff rfl hv (by decide)).mpr
    ⟨readable_of_all (by decide) (by decide), by decide, Or.inr (by decide)⟩

/-- 124 bytes do not come back, nor does one byte where `temp` has a digit behind it. -/
theorem binary_lost :
    ¬ Restores noFloats (oneBin (List.replicate 124 0)) "params.txt".toList ∧
      ¬ Restores { noFloats with tempByte := '7' } (oneBin [255]) "params.txt".toList := by
  have hname : Readable "PBIN".toList := readable_of_all (by decide) (by decide)
  have hlong : (binParam (List.replicate 124 0)).var = .binary (List.replicate 124 0) := rfl
  have hone : (binParam [255]).var = .binary [255] := rfl
  constructor
  · refine not_restores rfl (saveLine_binary hlong) (fun h => (binaryText_chars h).2.2 rfl)
      (fun h => (binaryText_chars h).2.1 rfl) fun h => ?_
    have hlen := h.2
    rw [saveLine_binary_length noFloats hlong, List.length_replicate] at hlen
    exact absurd hlen (by decide)
  · exact not_restores_binary rfl hone hname (by decide) (by decide)

end DataCommons.Params
