import DataCommons.CBuffer.Dma

/-!
# A DMA transfer is a write

`CbWrite` stores bytes and counts up; a DMA transfer stores them behind the
driver's back, and `CbDmaWrInc` works out from the count-down register how many
there were.  Both make the same buffer, read index aside, which a full buffer
of one-byte writes leaves a whole number of revolutions away.

* `cbWriteOf_same`: what `CbWrite` does is to store and publish;
* `dmaTransfer_same`: so is what a transfer does;
* `dmaThBlock_eq`: one round of the loop of `dma_th` is a transfer;
* `dma_refines_write`: transfers and writes agree, one by one and in sequence.
-/

namespace DataCommons.CBuffer

open RingWindow CbT

/-- The hardware stores bytes from position `p` on. -/
def dmaStoreAll (cb : CbT) : ℕ → List UInt8 → CbT
  | _, [] => cb
  | p, x :: xs => dmaStoreAll (dmaStore cb p x) (p + 1) xs

/-- The bytes are stored from slot `dma_cnt` on, then published. -/
def dmaTransfer (cb : CbT) (xs : List UInt8) (ndtr : BitVec 32) : CbT :=
  cbDmaWrInc (dmaStoreAll cb cb.dmaCnt.toNat xs) ndtr

/-- `CbWrite`, and nothing for no bytes. -/
def cbWriteOf (cb : CbT) (xs : List UInt8) : Option CbT :=
  if xs = [] then some cb else (cbWrite cb xs).map Prod.fst

def cbWriteSeq : CbT → List (List UInt8) → Option CbT
  | cb, [] => some cb
  | cb, xs :: rest => (cbWriteOf cb xs).bind (cbWriteSeq · rest)

/-- `in_buffer[i] = x` in `dma_th`; `none` outside the array. -/
def inBufferSet (cb : CbT) (i : BitVec 32) (x : UInt8) : Option CbT :=
  if h : i.toNat < cb.size.toNat then some { cb with data := cb.data.set i.toNat x h } else none

/-- A copy loop of `dma_th`, from index `i` on. -/
def inBufferSetAll (cb : CbT) : BitVec 32 → List UInt8 → Option CbT
  | _, [] => some cb
  | i, x :: xs => (inBufferSet cb i x).bind (inBufferSetAll · (i + 1) xs)

/-- Both copy loops of `dma_th`: up to the end of the array, the rest from its
start. -/
def inBufferCopy (cb : CbT) (wPhys : BitVec 32) (bytes : List UInt8) : Option CbT :=
  let chunk : BitVec 32 := BitVec.ofNat 32 bytes.length
  let tillEnd := cb.size.truncate 32 - wPhys
  let n1 := if chunk < tillEnd then chunk else tillEnd
  (inBufferSetAll cb wPhys (bytes.take n1.toNat)).bind fun cb =>
    if chunk > n1 then inBufferSetAll cb 0 (bytes.drop n1.toNat) else some cb

/-- The body of the loop of `dma_th` for the `chunk` random bytes; `BUFFER_SZ`
is the size of the buffer.  Gives the buffer and the new `ndtr`. -/
def dmaThBlock (cb : CbT) (ndtr : BitVec 32) (bytes : List UInt8) : Option (CbT × BitVec 32) :=
  let bufferSz : BitVec 32 := cb.size.truncate 32
  let chunk : BitVec 32 := BitVec.ofNat 32 bytes.length
  let producedBefore := (bufferSz - ndtr) &&& (bufferSz - 1)
  let ndtr := if chunk ≤ ndtr then ndtr - chunk else bufferSz - (chunk - ndtr) % bufferSz
  (inBufferCopy cb producedBefore bytes).map fun cb => (cbDmaWrInc cb ndtr, ndtr)

/-- The loop of `dma_th`, a chunk in each round. -/
def dmaTh : CbT → BitVec 32 → List (List UInt8) → Option (CbT × BitVec 32)
  | cb, ndtr, [] => some (cb, ndtr)
  | cb, ndtr, xs :: rest => (dmaThBlock cb ndtr xs).bind fun (cb, ndtr) => dmaTh cb ndtr rest

/-- The driver's position stands at `write`. -/
def Aligned (cb : CbT) : Prop := cb.write.toNat ≡ cb.dmaCnt.toNat [MOD cb.slots]

/-- Equal memory and counters, the read index modulo the size. -/
structure SameRing (cb cb' : CbT) : Prop where
  size : cb'.size = cb.size
  data : cb'.data.toArray = cb.data.toArray
  write : cb'.write = cb.write
  fullCnt : cb'.fullCnt = cb.fullCnt
  read : cb'.read.toNat ≡ cb.read.toNat [MOD cb.slots]

namespace SameRing

variable {cb cb₁ cb₂ : CbT}

theorem rfl (cb : CbT) : SameRing cb cb := ⟨.refl _, .refl _, .refl _, .refl _, .refl _⟩

theorem slots (h : SameRing cb cb₁) : cb₁.slots = cb.slots := congrArg BitVec.toNat h.size

theorem trans (h : SameRing cb cb₁) (h' : SameRing cb₁ cb₂) : SameRing cb cb₂ :=
  ⟨h'.size.trans h.size, h'.data.trans h.data, h'.write.trans h.write,
    h'.fullCnt.trans h.fullCnt, (h.slots ▸ h'.read).trans h.read⟩

theorem mask (h : SameRing cb cb₁) : cb₁.mask = cb.mask := by
  rw [cb₁.maskEq, cb.maskEq, h.size]

theorem count (h : SameRing cb cb₁) : cb₁.count = cb.count := by
  apply count_unique
  · rw [h.slots]; exact cb.count_lt
  · rw [h.slots, h.write]
    exact (Nat.ModEq.add_right _ h.read).trans cb.count_modEq

end SameRing

/-! ## Storing -/

theorem dmaStore_eq_setByte (cb : CbT) {p : ℕ} {v : SizeT} (x : UInt8)
    (h : v.toNat ≡ p [MOD cb.slots]) : dmaStore cb p x = cb.setByte v x := by
  have hp : p % cb.slots = (v &&& cb.mask).toNat := by
    rw [cb.and_mask_toNat]
    exact h.symm
  simp only [dmaStore, setByte, hp]

/-- The hardware stores what the copy loop of `CbWrite` stores. -/
theorem dmaStoreAll_eq_cbStore (cb : CbT) {p : ℕ} {v : SizeT} (xs : List UInt8)
    (h : v.toNat ≡ p [MOD cb.slots]) : dmaStoreAll cb p xs = cbStore cb v xs := by
  induction xs generalizing cb p v with
  | nil => rfl
  | cons x xs ih =>
    rw [dmaStoreAll, cbStore, dmaStore_eq_setByte cb x h]
    exact ih _ ((cb.toNat_succ_modEq v).trans (Nat.ModEq.add_right 1 h))

theorem dmaStoreAll_congr (cb : CbT) {p p' : ℕ} (xs : List UInt8) (h : p ≡ p' [MOD cb.slots]) :
    dmaStoreAll cb p xs = dmaStoreAll cb p' xs := by
  have hv := cb.ofNat_modEq p
  rw [dmaStoreAll_eq_cbStore cb xs hv, dmaStoreAll_eq_cbStore cb xs (hv.trans h)]

theorem dmaStoreAll_append (cb : CbT) (p : ℕ) (xs ys : List UInt8) :
    dmaStoreAll cb p (xs ++ ys) = dmaStoreAll (dmaStoreAll cb p xs) (p + xs.length) ys := by
  induction xs generalizing cb p with
  | nil => rfl
  | cons x xs ih =>
    rw [List.cons_append, dmaStoreAll, dmaStoreAll, ih, List.length_cons,
      show p + 1 + xs.length = p + (xs.length + 1) by omega]

@[simp] theorem cbStore_dmaCnt (cb : CbT) (v : SizeT) (xs : List UInt8) :
    (cbStore cb v xs).dmaCnt = cb.dmaCnt := by
  induction xs generalizing cb v with
  | nil => rfl
  | cons x xs ih => exact ih _ _

@[simp] theorem cbStore_fullCnt (cb : CbT) (v : SizeT) (xs : List UInt8) :
    (cbStore cb v xs).fullCnt = cb.fullCnt := by
  induction xs generalizing cb v with
  | nil => rfl
  | cons x xs ih => exact ih _ _

theorem SameRing.setByte {cb cb₁ : CbT} (h : SameRing cb cb₁) (v : SizeT) (x : UInt8) :
    SameRing (cb.setByte v x) (cb₁.setByte v x) := by
  refine ⟨h.size, ?_, h.write, h.fullCnt, h.read⟩
  simp only [CbT.setByte, Vector.toArray_set, h.data, h.mask]

theorem SameRing.store {cb cb₁ : CbT} (h : SameRing cb cb₁) (v : SizeT) (xs : List UInt8) :
    SameRing (cbStore cb v xs) (cbStore cb₁ v xs) := by
  induction xs generalizing cb cb₁ v with
  | nil => exact h
  | cons x xs ih => exact ih (h.setByte v x) _

/-! ## Publishing -/

/-- Publishing reads the fill level and the write index only. -/
theorem SameRing.writeInc {cb cb₁ : CbT} (h : SameRing cb cb₁) (num : SizeT) :
    SameRing (cbWriteInc cb num) (cbWriteInc cb₁ num) := by
  have hgap : cbEmptyCount cb₁ = cbEmptyCount cb := by
    apply BitVec.eq_of_toNat_eq
    rw [cbEmptyCount_toNat, cbEmptyCount_toNat, h.slots, h.count]
  unfold cbWriteInc
  dsimp only
  rw [hgap, h.write]
  split
  · exact ⟨h.size, h.data, .refl _, congrArg (· + 1) h.fullCnt, .refl _⟩
  · exact ⟨h.size, h.data, .refl _, h.fullCnt, h.read⟩

/-- Store the bytes behind `write` and publish them. -/
def publish (cb : CbT) (xs : List UInt8) : CbT :=
  cbWriteInc (cbStore cb cb.write xs) (BitVec.ofNat 64 xs.length)

theorem SameRing.publish {cb cb₁ : CbT} (h : SameRing cb cb₁) (xs : List UInt8) :
    SameRing (publish cb xs) (publish cb₁ xs) := by
  unfold CBuffer.publish
  rw [h.write]
  exact (h.store _ xs).writeInc _

theorem cbWriteInc_of_gt {cb : CbT} {num : SizeT} (h : num > cbEmptyCount cb) :
    cbWriteInc cb num =
      { cb with write := cb.write + num, read := cb.write + num + 1,
                readLast := cb.write + num + 1, fullCnt := cb.fullCnt + 1 } := if_pos h

theorem cbWriteInc_of_not_gt {cb : CbT} {num : SizeT} (h : ¬ num > cbEmptyCount cb) :
    cbWriteInc cb num = { cb with write := cb.write + num } := if_neg h

theorem publish_nil (cb : CbT) : publish cb [] = cb := by
  have h : cbWriteInc cb 0 = { cb with write := cb.write + 0 } :=
    cbWriteInc_of_not_gt BitVec.not_lt_zero
  rw [show cb.write + 0 = cb.write from BitVec.add_zero _] at h
  exact h

/-- A one-byte `CbWrite` counts `read` up by one where `CbWriteInc` puts it
behind `write`: a whole revolution apart. -/
theorem cbWrite_one_same (cb : CbT) (x : UInt8) :
    ∃ cb', cbWrite cb [x] = some (cb', 1) ∧ SameRing cb' (publish cb [x]) := by
  have hlt := cb.count_lt
  have hone : (1 : SizeT).toNat = 1 := by rfl
  have hgap : (1 : SizeT) > cbEmptyCount (cb.setByte cb.write x) ↔ cb.count + 1 = cb.slots := by
    have hc : (cb.setByte cb.write x).count = cb.count := by rfl
    rw [gt_iff_lt, BitVec.lt_def, cbEmptyCount_toNat, hc, setByte_slots, hone]
    omega
  have hfull := write_succ_full cb
  rw [cbWrite_one]
  by_cases h : (cb.write + 1) &&& cb.mask = cb.read &&& cb.mask
  · have hg := hgap.mpr (hfull.mp h)
    refine ⟨_, if_pos h, ?_⟩
    change SameRing _ (cbWriteInc (cb.setByte cb.write x) 1)
    rw [cbWriteInc_of_gt hg]
    refine ⟨.refl _, .refl _, .refl _, .refl _, ?_⟩
    have hmod : (cb.write + 1).toNat ≡ cb.read.toNat [MOD cb.slots] := by
      rw [← BitVec.toNat_inj, cb.and_mask_toNat, cb.and_mask_toNat] at h
      exact h
    exact (cb.toNat_succ_modEq _).trans
      ((Nat.ModEq.add_right 1 hmod).trans (cb.toNat_succ_modEq _).symm)
  · have hg : ¬ (1 : SizeT) > cbEmptyCount (cb.setByte cb.write x) := fun hg =>
      h (hfull.mpr (hgap.mp hg))
    refine ⟨_, if_neg h, ?_⟩
    change SameRing _ (cbWriteInc (cb.setByte cb.write x) 1)
    rw [cbWriteInc_of_not_gt hg]
    exact ⟨.refl _, .refl _, .refl _, .refl _, .refl _⟩

/-- **A write stores and publishes.** -/
theorem cbWriteOf_same (cb : CbT) (xs : List UInt8) (hlt : xs.length < cb.slots) :
    ∃ cb', cbWriteOf cb xs = some cb' ∧ SameRing cb' (publish cb xs) := by
  match xs, hlt with
  | [], _ =>
    refine ⟨cb, rfl, ?_⟩
    rw [publish_nil]
    exact .rfl cb
  | [x], _ =>
    obtain ⟨cb', hw, hs⟩ := cbWrite_one_same cb x
    exact ⟨cb', by simp [cbWriteOf, hw], hs⟩
  | x :: y :: rest, hlt =>
    refine ⟨publish cb (x :: y :: rest), ?_, .rfl _⟩
    rw [cbWriteOf, if_neg (List.cons_ne_nil _ _),
      cbWrite_many cb _ (by simp only [List.length_cons]; omega), if_pos hlt]
    rfl

/-! ## A transfer -/

/-- The masked difference of the positions is the number of bytes. -/
theorem dmaDelta_eq (cb : CbT) (hsize : cb.slots ≤ 2 ^ 30) {k : ℕ} (hk : k < cb.slots)
    {ndtr : BitVec 32} (hn : NdtrMatches cb (cb.dmaCnt.toNat + k) ndtr) :
    ((cb.size - ndtr.signExtend 64) &&& cb.mask) - cb.dmaCnt &&& cb.mask = BitVec.ofNat 64 k := by
  apply BitVec.eq_of_toNat_eq
  rw [cb.ofNat_toNat hk]
  apply cb.sub_and_mask_unique hk
  rw [produced_toNat cb hsize hn]
  exact (Nat.mod_modEq _ _).symm

theorem dmaCnt_same (cb : CbT) (v : SizeT) : SameRing cb { cb with dmaCnt := v } :=
  ⟨.refl _, .refl _, .refl _, .refl _, .refl _⟩

/-- **A transfer stores and publishes.**  Afterwards `write` stands at the
driver's position again. -/
theorem dmaTransfer_same (cb : CbT) (hsize : cb.slots ≤ 2 ^ 30) (hal : Aligned cb)
    (xs : List UInt8) (hlt : xs.length < cb.slots) (ndtr : BitVec 32)
    (hn : NdtrMatches cb (cb.dmaCnt.toNat + xs.length) ndtr) :
    SameRing (publish cb xs) (dmaTransfer cb xs ndtr) ∧ Aligned (dmaTransfer cb xs ndtr) ∧
      (dmaTransfer cb xs ndtr).dmaCnt.toNat ≡ cb.dmaCnt.toNat + xs.length [MOD cb.slots] := by
  have hst := dmaStoreAll_eq_cbStore cb xs hal
  generalize hcb : cbStore cb cb.write xs = cb₁ at hst
  have hslots : cb₁.slots = cb.slots := by rw [← hcb, cbStore_slots]
  have hdma : cb₁.dmaCnt = cb.dmaCnt := by rw [← hcb, cbStore_dmaCnt]
  have hwrite : cb₁.write = cb.write := by rw [← hcb, cbStore_write]
  have hn₁ : NdtrMatches cb₁ (cb₁.dmaCnt.toNat + xs.length) ndtr := by
    simpa only [NdtrMatches, hslots, hdma] using hn
  have hk : xs.length < cb₁.slots := hslots ▸ hlt
  have htr : dmaTransfer cb xs ndtr =
      cbWriteInc { cb₁ with dmaCnt := (cb₁.size - ndtr.signExtend 64) &&& cb₁.mask }
        (BitVec.ofNat 64 xs.length) := by
    rw [dmaTransfer, hst, cbDmaWrInc_eq cb₁ (hslots ▸ hsize) hn₁,
      dmaDelta_eq cb₁ (hslots ▸ hsize) hk hn₁]
  have hprod := produced_toNat cb₁ (hslots ▸ hsize) hn₁
  rw [hslots, hdma] at hprod
  rw [htr]
  refine ⟨?_, ?_, ?_⟩
  · rw [publish, hcb]
    exact (dmaCnt_same cb₁ _).writeInc _
  · rw [Aligned, cbWriteInc_write, cbWriteInc_slots, cbWriteInc_dmaCnt]
    change (cb₁.write + BitVec.ofNat 64 xs.length).toNat ≡
      ((cb₁.size - ndtr.signExtend 64) &&& cb₁.mask).toNat [MOD cb₁.slots]
    rw [hprod, hslots, hwrite]
    have hw := cb.toNat_add_modEq cb.write (BitVec.ofNat 64 xs.length)
    rw [cb.ofNat_toNat hlt] at hw
    exact hw.trans ((Nat.ModEq.add_right _ hal).trans (Nat.mod_modEq _ _).symm)
  · rw [cbWriteInc_dmaCnt, hprod]
    exact Nat.mod_modEq _ _

/-! ## A round of `dma_th` -/

theorem inBufferSetAll_eq (cb : CbT) (hsize : cb.slots ≤ 2 ^ 30) (i : BitVec 32)
    (xs : List UInt8) (h : i.toNat + xs.length ≤ cb.slots) :
    inBufferSetAll cb i xs = some (dmaStoreAll cb i.toNat xs) := by
  induction xs generalizing cb i with
  | nil => rfl
  | cons x xs ih =>
    rw [List.length_cons] at h
    have hi : i.toNat < cb.size.toNat := Nat.lt_of_lt_of_le (by omega) h
    have hsucc : (i + 1).toNat = i.toNat + 1 := by
      rw [BitVec.toNat_add]
      exact Nat.mod_eq_of_lt (by simp; omega)
    have hset : inBufferSet cb i x = some (dmaStore cb i.toNat x) := by
      have hmod : i.toNat % cb.slots = i.toNat := Nat.mod_eq_of_lt hi
      simp only [inBufferSet, hi, ↓reduceDIte, dmaStore, hmod]
    rw [inBufferSetAll, hset, Option.bind_some, ih (dmaStore cb i.toNat x) hsize (i + 1)
      (by rw [hsucc]; change _ ≤ cb.slots; omega), hsucc]
    rfl

theorem bufferSz_toNat (cb : CbT) (hsize : cb.slots ≤ 2 ^ 30) :
    (cb.size.truncate 32).toNat = cb.slots := by
  rw [BitVec.truncate, BitVec.toNat_setWidth]
  exact Nat.mod_eq_of_lt (Nat.lt_of_le_of_lt hsize (by decide))

theorem wPhys_toNat (cb : CbT) (hsize : cb.slots ≤ 2 ^ 30) {hwpos : ℕ} {ndtr : BitVec 32}
    (hn : NdtrMatches cb hwpos ndtr) :
    ((cb.size.truncate 32 - ndtr) &&& (cb.size.truncate 32 - 1)).toNat = hwpos % cb.slots := by
  obtain ⟨k, -, hk⟩ := cbCheckSize_pow cb.sizeOk
  have hpos := cb.slots_pos
  have hlt := Nat.mod_lt hwpos hpos
  have hbuf := bufferSz_toNat cb hsize
  have hsub : (cb.size.truncate 32 - ndtr).toNat = cb.slots - ndtr.toNat := by
    rw [BitVec.toNat_sub_of_le (by rw [BitVec.le_def, hbuf]; exact ndtr_le cb hn), hbuf]
  have hone : (cb.size.truncate 32 - 1).toNat = 2 ^ k - 1 := by
    rw [BitVec.toNat_sub_of_le (by rw [BitVec.le_def, hbuf]; exact hpos), hbuf, slots, hk]
    rfl
  rw [BitVec.toNat_and, hsub, hone, Nat.and_two_pow_sub_one_eq_mod, ← hk]
  change (cb.slots - ndtr.toNat) % cb.slots = _
  rcases hn with hn | ⟨hn, h0⟩
  · rw [hn, show cb.slots - (cb.slots - hwpos % cb.slots) = hwpos % cb.slots by omega, Nat.mod_mod]
  · simp [hn, h0]

/-- The count-down and reload rule keeps `ndtr` at the hardware position. -/
theorem ndtr_reload (cb : CbT) (hsize : cb.slots ≤ 2 ^ 30) {hwpos k : ℕ} (hk : k < cb.slots)
    {ndtr : BitVec 32} (hn : NdtrMatches cb hwpos ndtr) :
    NdtrMatches cb (hwpos + k)
      (if BitVec.ofNat 32 k ≤ ndtr then ndtr - BitVec.ofNat 32 k
       else cb.size.truncate 32 - (BitVec.ofNat 32 k - ndtr) % cb.size.truncate 32) := by
  have hlt := Nat.mod_lt hwpos cb.slots_pos
  have hbuf := bufferSz_toNat cb hsize
  have hkn : (BitVec.ofNat 32 k).toNat = k := by
    rw [BitVec.toNat_ofNat]
    exact Nat.mod_eq_of_lt (by omega)
  have hmod : (hwpos + k) % cb.slots =
      if hwpos % cb.slots + k < cb.slots then hwpos % cb.slots + k
      else hwpos % cb.slots + k - cb.slots := by
    rw [Nat.add_mod, Nat.mod_eq_of_lt hk]
    split
    · rename_i h
      exact Nat.mod_eq_of_lt h
    · rename_i h
      rw [Nat.mod_eq_sub_mod (by omega)]
      exact Nat.mod_eq_of_lt (by omega)
  have hval : ndtr.toNat = cb.slots - hwpos % cb.slots ∨
      (ndtr.toNat = 0 ∧ hwpos % cb.slots = 0) := by
    rcases hn with hn | ⟨rfl, h0⟩
    · exact Or.inl hn
    · exact Or.inr ⟨rfl, h0⟩
  unfold NdtrMatches
  rw [hmod]
  split
  · rename_i hle
    have hle' : k ≤ ndtr.toNat := hkn ▸ BitVec.le_def.mp hle
    have hsub : (ndtr - BitVec.ofNat 32 k).toNat = ndtr.toNat - k := by
      rw [BitVec.toNat_sub_of_le hle, hkn]
    by_cases hz : ndtr.toNat = k
    · refine Or.inr ⟨BitVec.eq_of_toNat_eq (by rw [hsub, hz]; simp), ?_⟩
      split <;> omega
    · refine Or.inl ?_
      rw [hsub, if_pos (by omega)]
      omega
  · rename_i hle
    have hlt' : ndtr.toNat < k := by
      rw [BitVec.le_def, hkn] at hle
      exact Nat.lt_of_not_le hle
    have hover : ((BitVec.ofNat 32 k - ndtr) % cb.size.truncate 32).toNat = k - ndtr.toNat := by
      rw [BitVec.toNat_umod, BitVec.toNat_sub_of_le (by rw [BitVec.le_def, hkn]; omega), hkn, hbuf]
      exact Nat.mod_eq_of_lt (by omega)
    refine Or.inl ?_
    rw [BitVec.toNat_sub_of_le (by rw [BitVec.le_def, hover, hbuf]; omega), hover, hbuf]
    split <;> omega

theorem inBufferCopy_eq (cb : CbT) (hsize : cb.slots ≤ 2 ^ 30) (i : BitVec 32)
    (hi : i.toNat < cb.slots) (xs : List UInt8) (hlt : xs.length < cb.slots) :
    inBufferCopy cb i xs = some (dmaStoreAll cb i.toNat xs) := by
  have hbuf := bufferSz_toNat cb hsize
  have hlen : (BitVec.ofNat 32 xs.length).toNat = xs.length := by
    rw [BitVec.toNat_ofNat]
    exact Nat.mod_eq_of_lt (by omega)
  have hend : (cb.size.truncate 32 - i).toNat = cb.slots - i.toNat := by
    rw [BitVec.toNat_sub_of_le (by rw [BitVec.le_def, hbuf]; omega), hbuf]
  unfold inBufferCopy
  dsimp only
  by_cases hcut : BitVec.ofNat 32 xs.length < cb.size.truncate 32 - i
  · have hcut' : xs.length < cb.slots - i.toNat := by
      rwa [BitVec.lt_def, hlen, hend] at hcut
    rw [if_pos hcut, hlen, List.take_length, inBufferSetAll_eq cb hsize i xs (by omega),
      Option.bind_some, if_neg (BitVec.lt_irrefl _)]
  · have hcut' : cb.slots - i.toNat ≤ xs.length := by
      rw [BitVec.lt_def, hlen, hend] at hcut
      exact Nat.le_of_not_lt hcut
    rw [if_neg hcut, hend]
    generalize hn : cb.slots - i.toNat = n1 at hcut' hend
    have htake : (xs.take n1).length = n1 := List.length_take_of_le hcut'
    have hsplit : dmaStoreAll cb i.toNat xs =
        dmaStoreAll (dmaStoreAll cb i.toNat (xs.take n1)) (i.toNat + n1) (xs.drop n1) := by
      conv_lhs => rw [← List.take_append_drop n1 xs]
      rw [dmaStoreAll_append, htake]
    have hslots : (dmaStoreAll cb i.toNat (xs.take n1)).slots = cb.slots := by
      rw [dmaStoreAll_eq_cbStore cb _ (cb.ofNat_modEq i.toNat), cbStore_slots]
    rw [inBufferSetAll_eq cb hsize i _ (by omega), Option.bind_some, hsplit]
    generalize dmaStoreAll cb i.toNat (xs.take n1) = cb₁ at hslots
    split
    · rw [inBufferSetAll_eq cb₁ (by omega) 0 _ (by simp; omega)]
      refine congrArg some (dmaStoreAll_congr cb₁ _ ?_)
      rw [show i.toNat + n1 = 0 + cb₁.slots by simp; omega]
      exact Nat.add_modEq_right.symm
    · rename_i hrest
      have hall : xs.length = n1 := by
        rw [gt_iff_lt, BitVec.lt_def, hlen, hend] at hrest
        omega
      rw [← hall, List.drop_length]
      rfl

/-- **One round of `dma_th` is a transfer**, and its stores stay in the array. -/
theorem dmaThBlock_eq (cb : CbT) (hsize : cb.slots ≤ 2 ^ 30) (xs : List UInt8)
    (hlt : xs.length < cb.slots) (ndtr : BitVec 32) (hn : NdtrMatches cb cb.dmaCnt.toNat ndtr) :
    ∃ ndtr', dmaThBlock cb ndtr xs = some (dmaTransfer cb xs ndtr', ndtr') ∧
      NdtrMatches cb (cb.dmaCnt.toNat + xs.length) ndtr' := by
  refine ⟨_, ?_, ndtr_reload cb hsize hlt hn⟩
  have hw := wPhys_toNat cb hsize hn
  have hi := Nat.mod_lt cb.dmaCnt.toNat cb.slots_pos
  unfold dmaThBlock
  dsimp only
  rw [inBufferCopy_eq cb hsize _ (by rw [hw]; exact hi) xs hlt, hw, Option.map_some, dmaTransfer,
    dmaStoreAll_congr cb xs (Nat.mod_modEq cb.dmaCnt.toNat cb.slots)]

/-! ## Sequences -/

/-- **Step lemma.**  A round of `dma_th` and a write keep two buffers the same. -/
theorem dmaThBlock_step {cb cb₁ : CbT} (hs : SameRing cb cb₁) (hsize : cb₁.slots ≤ 2 ^ 30)
    (hal : Aligned cb₁) {xs : List UInt8} (hlt : xs.length < cb₁.slots) {ndtr : BitVec 32}
    (hn : NdtrMatches cb₁ cb₁.dmaCnt.toNat ndtr) :
    ∃ cb' cb₁' ndtr', cbWriteOf cb xs = some cb' ∧
      dmaThBlock cb₁ ndtr xs = some (cb₁', ndtr') ∧ SameRing cb' cb₁' ∧
      cb₁'.slots = cb₁.slots ∧ Aligned cb₁' ∧ NdtrMatches cb₁' cb₁'.dmaCnt.toNat ndtr' := by
  obtain ⟨ndtr', hb, hn'⟩ := dmaThBlock_eq cb₁ hsize xs hlt ndtr hn
  obtain ⟨cb', hw, hsw⟩ := cbWriteOf_same cb xs (hs.slots ▸ hlt)
  obtain ⟨hst, hal', hdma⟩ := dmaTransfer_same cb₁ hsize hal xs hlt ndtr' hn'
  have hslots : (dmaTransfer cb₁ xs ndtr').slots = cb₁.slots := by
    rw [hst.slots, publish, cbWriteInc_slots, cbStore_slots]
  refine ⟨cb', _, ndtr', hw, hb, (hsw.trans (hs.publish xs)).trans hst, hslots, hal', ?_⟩
  have hmod : (dmaTransfer cb₁ xs ndtr').dmaCnt.toNat % cb₁.slots =
      (cb₁.dmaCnt.toNat + xs.length) % cb₁.slots := hdma
  rwa [NdtrMatches, hslots, hmod]

theorem dmaTh_same {cb cb₁ : CbT} (hs : SameRing cb cb₁) (hsize : cb₁.slots ≤ 2 ^ 30)
    (hal : Aligned cb₁) {ndtr : BitVec 32} (hn : NdtrMatches cb₁ cb₁.dmaCnt.toNat ndtr)
    {chunks : List (List UInt8)} (hlt : ∀ xs ∈ chunks, xs.length < cb₁.slots) :
    ∃ cb' cb₁' ndtr', cbWriteSeq cb chunks = some cb' ∧
      dmaTh cb₁ ndtr chunks = some (cb₁', ndtr') ∧ SameRing cb' cb₁' ∧ Aligned cb₁' := by
  induction chunks generalizing cb cb₁ ndtr with
  | nil => exact ⟨cb, cb₁, ndtr, rfl, rfl, hs, hal⟩
  | cons xs rest ih =>
    obtain ⟨cb', cb₁', ndtr', hw, hb, hs', hslots, hal', hn'⟩ :=
      dmaThBlock_step hs hsize hal (hlt xs (List.mem_cons_self ..)) hn
    obtain ⟨cb₂, cb₃, ndtr₂, hw₂, hb₂, hs₂⟩ := ih hs' (hslots ▸ hsize) hal' hn'
      (fun ys hys => hslots ▸ hlt ys (List.mem_cons_of_mem _ hys))
    exact ⟨cb₂, cb₃, ndtr₂, by rw [cbWriteSeq, hw]; exact hw₂, by rw [dmaTh, hb]; exact hb₂, hs₂⟩

/-- **Transfers are writes.**  On a buffer of up to `2 ^ 30` slots whose `write`
stands at the driver's position, publishing bytes stored from slot `dma_cnt` on,
with an `ndtr` at the position behind them, makes the buffer of one `CbWrite` of
them and keeps the driver at `write`; a run of `dma_th` from a matching `ndtr`
makes the buffer of the sequence of writes. -/
theorem dma_refines_write (cb : CbT) (hsize : cb.slots ≤ 2 ^ 30) (hal : Aligned cb) :
    (∀ (xs : List UInt8) (ndtr : BitVec 32), xs.length < cb.slots →
      NdtrMatches cb (cb.dmaCnt.toNat + xs.length) ndtr →
      ∃ cb', cbWriteOf cb xs = some cb' ∧ SameRing cb' (dmaTransfer cb xs ndtr) ∧
        Aligned (dmaTransfer cb xs ndtr)) ∧
    ∀ (chunks : List (List UInt8)) (ndtr : BitVec 32), (∀ xs ∈ chunks, xs.length < cb.slots) →
      NdtrMatches cb cb.dmaCnt.toNat ndtr →
      ∃ cb' cb₁ ndtr', cbWriteSeq cb chunks = some cb' ∧
        dmaTh cb ndtr chunks = some (cb₁, ndtr') ∧ SameRing cb' cb₁ ∧ Aligned cb₁ := by
  constructor
  · intro xs ndtr hlt hn
    obtain ⟨cb', hw, hs⟩ := cbWriteOf_same cb xs hlt
    obtain ⟨hst, hal', -⟩ := dmaTransfer_same cb hsize hal xs hlt ndtr hn
    exact ⟨cb', hw, hs.trans hst, hal'⟩
  · intro chunks ndtr hlt hn
    exact dmaTh_same (.rfl cb) hsize hal hn hlt

/-- Three bytes on four slots, then chunks that wrap and overwrite. -/
theorem dma_refines_write_four :
    (∃ cb', cbWriteOf fourSlots [1, 2, 3] = some cb' ∧
      SameRing cb' (dmaTransfer fourSlots [1, 2, 3] 1) ∧
      Aligned (dmaTransfer fourSlots [1, 2, 3] 1)) ∧
    ∃ cb' cb₁ ndtr', cbWriteSeq fourSlots [[1, 2, 3], [], [4], [5, 6]] = some cb' ∧
      dmaTh fourSlots 4 [[1, 2, 3], [], [4], [5, 6]] = some (cb₁, ndtr') ∧ SameRing cb' cb₁ ∧
      Aligned cb₁ := by
  have h := dma_refines_write fourSlots (by decide) (.refl _)
  exact ⟨h.1 [1, 2, 3] 1 (by decide) (Or.inl rfl),
    h.2 [[1, 2, 3], [], [4], [5, 6]] 4 (by decide) (Or.inl rfl)⟩

end DataCommons.CBuffer
