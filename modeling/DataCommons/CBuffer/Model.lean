import Mathlib.Data.Nat.ModEq

/-!
# The circular buffer of `c_buffer.h`

`size_t` is 64 bits wide and its arithmetic wraps.  `CbT` is `cb_t`; the memory
behind the `data` pointer is the vector `data`, and what `CbInit` asserts about
`size` and `mask` are fields, so every `CbT` is one that `CbInit` can have set
up and every masked index is a slot of `data`.

A failed `CB_ASSERT` aborts the program and is the result `none`.
-/

namespace DataCommons.CBuffer

abbrev SizeT := BitVec 64

/-- `CbCheckSize`: not zero and only one bit set. -/
def cbCheckSize (size : SizeT) : Bool :=
  if size = 0 then false else size &&& (size - 1) == 0

structure CbT where
  size : SizeT
  data : Vector UInt8 size.toNat
  write : SizeT
  read : SizeT
  mask : SizeT
  name : String
  readLast : SizeT
  dmaCnt : SizeT
  fullCnt : SizeT
  sizeOk : cbCheckSize size = true
  maskEq : mask = size - 1
  deriving DecidableEq

/-- `CbInit`.  A null `name` becomes the empty string. -/
def cbInit (size : SizeT) (data : Vector UInt8 size.toNat) (name : Option String) : Option CbT :=
  if h : size ≠ 0 ∧ cbCheckSize size = true then
    some { size, data, write := 0, read := 0, mask := size - 1, name := name.getD "",
           readLast := 0, dmaCnt := 0, fullCnt := 0, sizeOk := h.2, maskEq := rfl }
  else none

/-- A size that passes `CbCheckSize` is a power of two. -/
theorem cbCheckSize_pow {size : SizeT} (h : cbCheckSize size = true) :
    ∃ k, k < 64 ∧ size.toNat = 2 ^ k := by
  unfold cbCheckSize at h
  split at h
  · cases h
  · rename_i h0
    have hne : size.toNat ≠ 0 := fun e => h0 (BitVec.eq_of_toNat_eq e)
    have hle : 1 ≤ size.toNat := Nat.one_le_iff_ne_zero.mpr hne
    have hsub : (size - 1).toNat = size.toNat - 1 := by
      rw [BitVec.toNat_sub_of_le (by simpa [BitVec.le_def] using hle)]
      rfl
    have hand : size.toNat &&& (size.toNat - 1) = 0 := by
      have hz := congrArg BitVec.toNat (eq_of_beq h)
      rw [BitVec.toNat_and, hsub] at hz
      exact hz
    obtain ⟨k, hk⟩ := (Nat.and_sub_one_eq_zero_iff_isPowerOfTwo hne).mp hand
    refine ⟨k, ?_, hk⟩
    have : 2 ^ k < 2 ^ 64 := hk ▸ size.isLt
    exact (Nat.pow_lt_pow_iff_right (by decide)).mp this

namespace CbT

def slots (cb : CbT) : ℕ := cb.size.toNat

theorem slots_pos (cb : CbT) : 0 < cb.slots := by
  obtain ⟨k, -, hk⟩ := cbCheckSize_pow cb.sizeOk
  rw [slots, hk]
  exact Nat.two_pow_pos k

/-- The counters wrap at a multiple of the number of slots. -/
theorem slots_dvd (cb : CbT) : cb.slots ∣ 2 ^ 64 := by
  obtain ⟨k, hk, h⟩ := cbCheckSize_pow cb.sizeOk
  rw [slots, h]
  exact Nat.pow_dvd_pow 2 (Nat.le_of_lt hk)

/-- Masking is reduction modulo the number of slots. -/
theorem and_mask_toNat (cb : CbT) (v : SizeT) : (v &&& cb.mask).toNat = v.toNat % cb.slots := by
  obtain ⟨k, -, h⟩ := cbCheckSize_pow cb.sizeOk
  have hpos : 1 ≤ cb.size.toNat := by rw [h]; exact Nat.one_le_two_pow
  have hmask : cb.mask.toNat = 2 ^ k - 1 := by
    rw [cb.maskEq, BitVec.toNat_sub_of_le (by simpa [BitVec.le_def] using hpos), h]
    rfl
  rw [BitVec.toNat_and, hmask, Nat.and_two_pow_sub_one_eq_mod, slots, h]

theorem mask_toNat (cb : CbT) : cb.mask.toNat = cb.slots - 1 := by
  have hpos : 1 ≤ cb.size.toNat := cb.slots_pos
  rw [cb.maskEq, BitVec.toNat_sub_of_le (by simpa [BitVec.le_def] using hpos)]
  rfl

theorem slot_lt (cb : CbT) (v : SizeT) : (v &&& cb.mask).toNat < cb.size.toNat := by
  rw [and_mask_toNat]
  exact Nat.mod_lt _ cb.slots_pos

/-- `data[v & mask]`. -/
def byteAt (cb : CbT) (v : SizeT) : UInt8 := cb.data.get ⟨(v &&& cb.mask).toNat, cb.slot_lt v⟩

/-- `data[v & mask] = x`. -/
def setByte (cb : CbT) (v : SizeT) (x : UInt8) : CbT :=
  { cb with data := cb.data.set (v &&& cb.mask).toNat x (cb.slot_lt v) }

end CbT

def cbIsEmpty (cb : CbT) : Bool := cb.write &&& cb.mask == cb.read &&& cb.mask

def cbIsFull (cb : CbT) : Bool := (cb.read + 1) &&& cb.mask == cb.write &&& cb.mask

def cbDataCount (cb : CbT) : SizeT := (cb.write - cb.read) &&& cb.mask

/-- `CbContiguousDataCount`.  `aux` is an `int`; `(int)(write & mask)` becomes a `size_t`
again for the subtraction. -/
def cbContiguousDataCount (cb : CbT) : SizeT :=
  let aux : BitVec 32 :=
    (((cb.write &&& cb.mask).truncate 32).signExtend 64 - (cb.read &&& cb.mask)).truncate 32
  if aux.slt 0 then cb.size - (cb.read &&& cb.mask)  -- read after write
  else cbDataCount cb

def cbEmptyCount (cb : CbT) : SizeT := cb.mask - ((cb.write - cb.read) &&& cb.mask)

/-- `CbContiguousEmptyCount`; `toEnd` is its `end`. -/
def cbContiguousEmptyCount (cb : CbT) : SizeT :=
  let w := cb.write &&& cb.mask
  let r := cb.read &&& cb.mask
  if w < r then r - w - 1
  else
    let toEnd := cb.size - w
    if r = 0 then toEnd - 1 else toEnd

/-- `CbWriteInc`: publish `num` bytes; past the free space, `read` jumps behind
`write` by one slot. -/
def cbWriteInc (cb : CbT) (num : SizeT) : CbT :=
  let gap := cbEmptyCount cb
  let write := cb.write + num
  if num > gap then
    { cb with write, read := write + 1, readLast := write + 1, fullCnt := cb.fullCnt + 1 }
  else { cb with write }

def cbReadInc (cb : CbT) (num : SizeT) : CbT :=
  let avail := (cb.write - cb.read) &&& cb.mask
  let num := if num > avail then avail else num
  { cb with read := cb.read + num, readLast := cb.read + num }

def cbStore (cb : CbT) (vWrite : SizeT) : List UInt8 → CbT
  | [] => cb
  | x :: xs => cbStore (cb.setByte vWrite x) (vWrite + 1) xs

/-- `CbWrite` of the `n` bytes of `item`: the new buffer and the return value. -/
def cbWrite (cb : CbT) (item : List UInt8) : Option (CbT × SizeT) :=
  match item with
  | [] => none  -- CB_ASSERT(n > 0)
  | [x] =>
    let cb := cb.setByte cb.write x
    let cb := { cb with write := cb.write + 1 }
    if cb.write &&& cb.mask = cb.read &&& cb.mask then
      some ({ cb with read := cb.read + 1, readLast := cb.read + 1, fullCnt := cb.fullCnt + 1 }, 1)
    else some (cb, 1)
  | item =>
    if item.length < cb.size.toNat then
      let n : SizeT := BitVec.ofNat 64 item.length
      some (cbWriteInc (cbStore cb cb.write item) n, n)
    else some (cb, 0)

/-- The copy loop of `CbRead`: `n` bytes from `vRead` on. -/
def cbLoad (cb : CbT) (vRead : SizeT) : ℕ → List UInt8
  | 0 => []
  | n + 1 => cb.byteAt vRead :: cbLoad cb (vRead + 1) n

/-- `CbRead`: the new buffer, the bytes put into `out` and the return value. -/
def cbRead (cb : CbT) (n : SizeT) : Option (CbT × List UInt8 × SizeT) :=
  if n = 0 then none  -- CB_ASSERT(n > 0)
  else if cbIsEmpty cb then some (cb, [], 0)
  else if n = 1 then
    some ({ cb with read := cb.read + 1, readLast := cb.read + 1 }, [cb.byteAt cb.read], 1)
  else
    let availableBytes := cbDataCount cb
    let n := if availableBytes < n then availableBytes else n
    some (cbReadInc cb n, cbLoad cb cb.read n.toNat, n)

/-- The copy loop of `CbReadUntil`: at most `max` bytes, up to `byte`. -/
def cbLoadUntil (cb : CbT) (v : SizeT) (byte : UInt8) : ℕ → List UInt8
  | 0 => []
  | max + 1 => if cb.byteAt v = byte then [cb.byteAt v] else cb.byteAt v :: cbLoadUntil cb (v + 1) byte max

def cbReadUntil (cb : CbT) (max : SizeT) (byte : UInt8) : Option (CbT × List UInt8 × SizeT) :=
  if max = 0 then none  -- CB_ASSERT(max > 0)
  else if cbIsEmpty cb then some (cb, [], 0)
  else
    let avail := (cb.write - cb.read) &&& cb.mask
    let max := if max > avail then avail else max
    let out := cbLoadUntil cb cb.read byte max.toNat
    let i : SizeT := BitVec.ofNat 64 out.length
    some (cbReadInc cb i, out, i)

/-- The loop of `CbDmaSynStart`; `none` when the fuel runs out. -/
def cbDmaSynLoop (startB : UInt8) : ℕ → CbT → Option CbT
  | 0, _ => none
  | fuel + 1, cb =>
    if !cbIsEmpty cb && cb.byteAt cb.read != startB then
      cbDmaSynLoop startB fuel (cbReadInc cb 1)
    else some cb

/-- `CbDmaSynStart`.  The loop drops queued bytes, of which there are fewer than
slots. -/
def cbDmaSynStart (cb : CbT) (startB : UInt8) : Option CbT := cbDmaSynLoop startB cb.slots cb

/-- `CbDmaWrInc`; `ndtr` is an `int32_t`. -/
def cbDmaWrInc (cb : CbT) (ndtr : BitVec 32) : CbT :=
  let ndtr := if ndtr.slt 0 then 0 else ndtr
  let ndtr := if ndtr.signExtend 64 > cb.size then cb.size.truncate 32 else ndtr
  let produced := (cb.size - ndtr.signExtend 64) &&& cb.mask
  let delta := (produced - cb.dmaCnt) &&& cb.mask
  cbWriteInc { cb with dmaCnt := produced } delta

end DataCommons.CBuffer
