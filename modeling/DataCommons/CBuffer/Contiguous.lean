import Mathlib.Data.BitVec
import DataCommons.CBuffer.Occupancy

/-!
# The contiguous runs

`CbContiguousDataCount` and `CbContiguousEmptyCount` ask how many bytes can be read or
written before the end of the memory.

* `cbContiguousEmptyCount_toNat`: the second is right in every buffer;
* `cbContiguousDataCount_iff`: the first takes the sign of a difference of two `size_t`s
  from an `int`, and is right exactly where that sign does not matter or is kept;
* `contiguous_right_iff`: where both are the longest runs;
* `fitsInt_of_small`: up to 2^31 slots they are.
-/

namespace DataCommons.CBuffer

open RingWindow CbT

namespace CbT

/-- The slot that is written next. -/
def writeSlot (cb : CbT) : ℕ := cb.write.toNat % cb.slots

/-- The slot that is read next. -/
def readSlot (cb : CbT) : ℕ := cb.read.toNat % cb.slots

theorem writeSlot_lt (cb : CbT) : cb.writeSlot < cb.slots := Nat.mod_lt _ cb.slots_pos

theorem readSlot_lt (cb : CbT) : cb.readSlot < cb.slots := Nat.mod_lt _ cb.slots_pos

theorem count_of_le {cb : CbT} (h : cb.readSlot ≤ cb.writeSlot) :
    cb.count = cb.writeSlot - cb.readSlot := by
  have hw := cb.writeSlot_lt
  refine cb.count_unique (by omega) ?_
  calc cb.read.toNat + (cb.writeSlot - cb.readSlot)
      ≡ cb.readSlot + (cb.writeSlot - cb.readSlot) [MOD cb.slots] :=
        Nat.ModEq.add_right _ (Nat.mod_modEq _ _).symm
    _ = cb.writeSlot := by omega
    _ ≡ cb.write.toNat [MOD cb.slots] := Nat.mod_modEq _ _

theorem count_of_lt {cb : CbT} (h : cb.writeSlot < cb.readSlot) :
    cb.count = cb.slots - cb.readSlot + cb.writeSlot := by
  have hr := cb.readSlot_lt
  refine cb.count_unique (by omega) ?_
  calc cb.read.toNat + (cb.slots - cb.readSlot + cb.writeSlot)
      ≡ cb.readSlot + (cb.slots - cb.readSlot + cb.writeSlot) [MOD cb.slots] :=
        Nat.ModEq.add_right _ (Nat.mod_modEq _ _).symm
    _ = cb.slots + cb.writeSlot := by omega
    _ ≡ cb.writeSlot [MOD cb.slots] := Nat.add_modEq_left
    _ ≡ cb.write.toNat [MOD cb.slots] := Nat.mod_modEq _ _

end CbT

/-! ## Runs -/

/-- `k` queued bytes are read before the end of the memory. -/
def ReadRun (cb : CbT) (k : ℕ) : Prop := k ≤ cb.queue.length ∧ cb.readSlot + k ≤ cb.slots

/-- `k` bytes are written without loss before the end of the memory. -/
def WriteRun (cb : CbT) (k : ℕ) : Prop := Room cb k ∧ cb.writeSlot + k ≤ cb.slots

theorem readRun_greatest (cb : CbT) :
    IsGreatest {k | ReadRun cb k} (min cb.count (cb.slots - cb.readSlot)) := by
  have hr := cb.readSlot_lt
  constructor
  · refine ⟨?_, ?_⟩
    · rw [queue_length]
      exact Nat.min_le_left _ _
    · omega
  · rintro k ⟨hlen, hend⟩
    rw [queue_length] at hlen
    exact Nat.le_min.mpr ⟨hlen, by omega⟩

theorem writeRun_greatest (cb : CbT) :
    IsGreatest {k | WriteRun cb k} (min (cbEmptyCount cb).toNat (cb.slots - cb.writeSlot)) := by
  have hw := cb.writeSlot_lt
  have hlt := cb.count_lt
  have hempty := cbEmptyCount_toNat cb
  constructor
  · refine ⟨(room_iff cb _).mpr ?_, ?_⟩
    · omega
    · omega
  · rintro k ⟨hroom, hend⟩
    have hfits := (room_iff cb k).mp hroom
    exact Nat.le_min.mpr ⟨by omega, by omega⟩

/-! ## `CbContiguousEmptyCount` -/

theorem cbContiguousEmptyCount_toNat (cb : CbT) :
    (cbContiguousEmptyCount cb).toNat
      = min (cbEmptyCount cb).toNat (cb.slots - cb.writeSlot) := by
  have hw := cb.writeSlot_lt
  have hr := cb.readSlot_lt
  have hsize : cb.slots < 2 ^ 64 := cb.size.isLt
  have hwrite : (cb.write &&& cb.mask).toNat = cb.writeSlot := cb.and_mask_toNat _
  have hread : (cb.read &&& cb.mask).toNat = cb.readSlot := cb.and_mask_toNat _
  have hslots : cb.size.toNat = cb.slots := rfl
  have hone : (1 : SizeT).toNat = 1 := rfl
  rw [cbContiguousEmptyCount, cbEmptyCount_toNat]
  dsimp only
  split
  · rename_i hlt
    rw [BitVec.lt_def, hwrite, hread] at hlt
    rw [count_of_lt hlt, BitVec.toNat_sub, BitVec.toNat_sub, hwrite, hread, hone]
    omega
  · rename_i hge
    rw [BitVec.lt_def, hwrite, hread, not_lt] at hge
    have hend : (cb.size - (cb.write &&& cb.mask)).toNat = cb.slots - cb.writeSlot := by
      rw [BitVec.toNat_sub, hwrite, hslots]
      omega
    rw [count_of_le hge]
    split
    · rename_i hzero
      rw [← BitVec.toNat_inj, hread] at hzero
      change cb.readSlot = 0 at hzero
      rw [BitVec.toNat_sub, hend, hone]
      omega
    · rename_i hpos
      rw [← BitVec.toNat_inj, hread] at hpos
      change cb.readSlot ≠ 0 at hpos
      rw [hend]
      omega

/-! ## `CbContiguousDataCount` -/

/-- The lower half of a difference, where the first number was an `int` before. -/
theorem low_half_sub (x y : SizeT) :
    (((x.truncate 32).signExtend 64 - y).truncate 32).toNat
      = (x.toNat + (2 ^ 64 - y.toNat)) % 2 ^ 32 := by
  have hx := x.isLt
  have hy := y.isLt
  rw [BitVec.truncate_eq_setWidth, BitVec.truncate_eq_setWidth, BitVec.toNat_setWidth,
    BitVec.toNat_sub, BitVec.toNat_signExtend, BitVec.toNat_setWidth, BitVec.toNat_setWidth]
  split
  · omega
  · omega

theorem low_half_neg (x y : SizeT) :
    (((x.truncate 32).signExtend 64 - y).truncate 32).slt 0 = true ↔
      2 ^ 31 ≤ (x.toNat + (2 ^ 64 - y.toNat)) % 2 ^ 32 := by
  rw [← low_half_sub]
  exact BitVec.slt_zero_iff_msb_cond.trans (by rw [BitVec.msb_eq_decide, decide_eq_true_eq])

/-- The difference of the slots keeps its sign in 32 bits, or the queue ends with the
memory, where both answers are the same. -/
def FitsInt (cb : CbT) : Prop :=
  (cb.readSlot ≤ cb.writeSlot → (cb.writeSlot - cb.readSlot) % 2 ^ 32 < 2 ^ 31) ∧
    (cb.writeSlot < cb.readSlot → cb.writeSlot = 0 ∨
      (0 < (cb.readSlot - cb.writeSlot) % 2 ^ 32 ∧
        (cb.readSlot - cb.writeSlot) % 2 ^ 32 ≤ 2 ^ 31))

instance (cb : CbT) : Decidable (FitsInt cb) := inferInstanceAs (Decidable (_ ∧ _))

theorem fitsInt_of_small {cb : CbT} (h : cb.slots ≤ 2 ^ 31) : FitsInt cb := by
  have hw := cb.writeSlot_lt
  have hr := cb.readSlot_lt
  constructor
  · intro hle
    omega
  · intro hlt
    exact Or.inr (by omega)

theorem cbContiguousDataCount_toNat (cb : CbT) :
    (cbContiguousDataCount cb).toNat =
      if 2 ^ 31 ≤ (cb.writeSlot + (2 ^ 64 - cb.readSlot)) % 2 ^ 32 then cb.slots - cb.readSlot
      else cb.count := by
  have hr := cb.readSlot_lt
  have hsize : cb.slots < 2 ^ 64 := cb.size.isLt
  have hwrite : (cb.write &&& cb.mask).toNat = cb.writeSlot := cb.and_mask_toNat _
  have hread : (cb.read &&& cb.mask).toNat = cb.readSlot := cb.and_mask_toNat _
  have hslots : cb.size.toNat = cb.slots := rfl
  have hneg := low_half_neg (cb.write &&& cb.mask) (cb.read &&& cb.mask)
  rw [hwrite, hread] at hneg
  rw [cbContiguousDataCount]
  split
  · rename_i haux
    rw [if_pos (hneg.mp haux), BitVec.toNat_sub, hread, hslots]
    omega
  · rename_i haux
    rw [if_neg (fun h => haux (hneg.mpr h))]
    rfl

theorem cbContiguousDataCount_iff (cb : CbT) :
    (cbContiguousDataCount cb).toNat = min (cbDataCount cb).toNat (cb.slots - cb.readSlot) ↔
      FitsInt cb := by
  have hw := cb.writeSlot_lt
  have hr := cb.readSlot_lt
  have hsize : cb.slots < 2 ^ 64 := cb.size.isLt
  have hdata : (cbDataCount cb).toNat = cb.count := rfl
  rw [cbContiguousDataCount_toNat, hdata, FitsInt]
  rcases Nat.lt_or_ge cb.writeSlot cb.readSlot with hlt | hge
  · -- the queue wraps
    rw [count_of_lt hlt]
    split
    · omega
    · omega
  · rw [count_of_le hge]
    split
    · omega
    · omega

/-! ## Both -/

/-- Both counts are what they say, the longest runs without wrapping. -/
structure ContiguousRight (cb : CbT) : Prop where
  data : (cbContiguousDataCount cb).toNat
    = min (cbDataCount cb).toNat (cb.size.toNat - cb.read.toNat % cb.size.toNat)
  empty : (cbContiguousEmptyCount cb).toNat
    = min (cbEmptyCount cb).toNat (cb.size.toNat - cb.write.toNat % cb.size.toNat)
  readRun : IsGreatest {k | ReadRun cb k} (cbContiguousDataCount cb).toNat
  writeRun : IsGreatest {k | WriteRun cb k} (cbContiguousEmptyCount cb).toNat

/-- **The contiguous counts.**  They are right for all counters of all buffers of up to
2^31 slots; in a larger one, exactly where `FitsInt`. -/
theorem contiguous_right_iff (cb : CbT) : ContiguousRight cb ↔ FitsInt cb := by
  constructor
  · intro h
    exact (cbContiguousDataCount_iff cb).mp h.data
  · intro h
    have hdata := (cbContiguousDataCount_iff cb).mpr h
    have hempty := cbContiguousEmptyCount_toNat cb
    exact ⟨hdata, hempty, hdata ▸ readRun_greatest cb, hempty ▸ writeRun_greatest cb⟩

/-- A buffer of 2^32 slots, as `CbInit` leaves it. -/
def bigBuffer : CbT where
  size := 2 ^ 32
  data := Vector.replicate _ 0
  write := 0
  read := 0
  mask := 2 ^ 32 - 1
  name := ""
  readLast := 0
  dmaCnt := 0
  fullCnt := 0
  sizeOk := by decide
  maskEq := rfl

theorem bigBuffer_write {item : List UInt8} (hlen : item.length = 2 ^ 31) :
    ∃ cb, cbWrite bigBuffer item = some (cb, 2 ^ 31) ∧ cb.slots = 2 ^ 32 ∧
      cb.writeSlot = 2 ^ 31 ∧ cb.readSlot = 0 := by
  have hslots : bigBuffer.slots = 2 ^ 32 := rfl
  have hwrite : bigBuffer.write = 0 := rfl
  have hread : bigBuffer.read = 0 := rfl
  have hcount : bigBuffer.count = 0 := bigBuffer.count_unique bigBuffer.slots_pos rfl
  have hmany := cbWrite_many bigBuffer item (by omega)
  rw [if_pos (by omega), hlen] at hmany
  refine ⟨_, hmany, ?_, ?_, ?_⟩
  · rw [cbWriteInc_slots, cbStore_slots, hslots]
  · rw [writeSlot, cbWriteInc_slots, cbStore_slots, hslots, cbWriteInc_write, cbStore_write, hwrite]
    rfl
  · have hmod := cbWriteInc_read (cbStore bigBuffer bigBuffer.write item) (BitVec.ofNat 64 (2 ^ 31))
    rw [cbStore_read, cbStore_slots, cbStore_count, hslots, hread, hcount] at hmod
    rw [readSlot, cbWriteInc_slots, cbStore_slots, hslots]
    exact hmod

theorem half_full_wraps :
    ∃ cb, cbInit (2 ^ 32) (Vector.replicate _ 0) none = some bigBuffer ∧
      cbWrite bigBuffer (List.replicate (2 ^ 31) 0) = some (cb, 2 ^ 31) ∧
      (cbDataCount cb).toNat = 2 ^ 31 ∧ (cbContiguousDataCount cb).toNat = 2 ^ 32 ∧
      ¬ ContiguousRight cb := by
  obtain ⟨cb, hw, hslots, hwrite, hread⟩ := bigBuffer_write (List.length_replicate ..)
  have hcount : cb.count = 2 ^ 31 := by
    rw [count_of_le (by omega), hwrite, hread, Nat.sub_zero]
  have hrun : (cbContiguousDataCount cb).toNat = 2 ^ 32 := by
    rw [cbContiguousDataCount_toNat, hwrite, hread, hslots, if_pos (by decide), Nat.sub_zero]
  refine ⟨cb, dif_pos (by decide), hw, hcount, hrun, fun h => ?_⟩
  have hle : (cbContiguousDataCount cb).toNat ≤ (cbDataCount cb).toNat :=
    h.data.trans_le (Nat.min_le_left _ _)
  rw [hrun] at hle
  exact absurd (hle.trans_eq hcount) (by decide)

end DataCommons.CBuffer
