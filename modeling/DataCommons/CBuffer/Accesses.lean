import DataCommons.Lib.RelyGuarantee
import DataCommons.CBuffer.Transfer

/-!
# The calls of the circular buffer, access by access

In `main.c` the consumer calls `CbRead` while the thread `dma_th` stores and
publishes, with no lock.  Here every call is a program whose actions are the single
loads and stores of `write`, `read`, `read_last`, `dma_cnt`, `full_cnt` and of the
bytes, in the order of the source.  Where C leaves open which operand of
`write`/`read` is loaded first, a Boolean says.  `size`, `mask` and `data` are never
stored to after `CbInit`; a load of them is no action.

Without another thread these programs are the functions of the model: the `_run`
theorems.
-/

namespace DataCommons.CBuffer

open RelyGuarantee CbT

/-- The buffer, and how many bytes the producer stored, published and the consumer
gave back.  No program reads the three numbers. -/
structure Shared where
  cb : CbT
  stored : ℕ
  published : ℕ
  consumed : ℕ

namespace Access

/-! ## Loads and stores -/

def write : Prog Shared SizeT := .load fun s => s.cb.write

def read : Prog Shared SizeT := .load fun s => s.cb.read

def dmaCnt : Prog Shared SizeT := .load fun s => s.cb.dmaCnt

def fullCnt : Prog Shared SizeT := .load fun s => s.cb.fullCnt

/-- `data[v & mask]`. -/
def byte (v : SizeT) : Prog Shared UInt8 := .load fun s => s.cb.byteAt v

/-- `data[v & mask] = x`. -/
def setByte (v : SizeT) (x : UInt8) : Prog Shared Unit :=
  .modify fun s => { s with cb := s.cb.setByte v x, stored := s.stored + 1 }

/-- `in_buffer[i] = x`, which aborts outside the array. -/
def setSlot (i : BitVec 32) (x : UInt8) : Prog Shared Unit :=
  .act (fun s => { s with cb := (inBufferSet s.cb i x).getD s.cb, stored := s.stored + 1 })
    fun s => if (inBufferSet s.cb i x).isSome then .ret () else .abort

/-- A store to `write` that publishes `num` bytes. -/
def setWrite (v num : SizeT) : Prog Shared Unit :=
  .modify fun s => { s with cb := { s.cb with write := v }, published := s.published + num.toNat }

/-- A store to `read` that gives `num` bytes back. -/
def setRead (v num : SizeT) : Prog Shared Unit :=
  .modify fun s => { s with cb := { s.cb with read := v }, consumed := s.consumed + num.toNat }

/-- The producer's store to `read` when it overruns the consumer. -/
def jumpRead (v : SizeT) : Prog Shared Unit :=
  .modify fun s => { s with cb := { s.cb with read := v },
                            consumed := s.published - (s.cb.slots - 1) }

def setReadLast (v : SizeT) : Prog Shared Unit :=
  .modify fun s => { s with cb := { s.cb with readLast := v } }

def setDmaCnt (v : SizeT) : Prog Shared Unit :=
  .modify fun s => { s with cb := { s.cb with dmaCnt := v } }

def setFullCnt (v : SizeT) : Prog Shared Unit :=
  .modify fun s => { s with cb := { s.cb with fullCnt := v } }

/-- Both counters, `write` first if `writeFirst`. -/
def counters (writeFirst : Bool) : Prog Shared (SizeT × SizeT) :=
  if writeFirst then do
    let w ← write
    let r ← read
    pure (w, r)
  else do
    let r ← read
    let w ← write
    pure (w, r)

/-! ## The consumer -/

variable (mask : SizeT)

def cbIsEmpty (writeFirst : Bool) : Prog Shared Bool := do
  let (w, r) ← counters writeFirst
  pure (w &&& mask == r &&& mask)

/-- `CbDataCount`, also written out in `CbReadInc` and `CbReadUntil`. -/
def cbDataCount (writeFirst : Bool) : Prog Shared SizeT := do
  let (w, r) ← counters writeFirst
  pure ((w - r) &&& mask)

def cbEmptyCount (writeFirst : Bool) : Prog Shared SizeT := do
  let (w, r) ← counters writeFirst
  pure (mask - ((w - r) &&& mask))

/-- `cb->read += num; cb->read_last = cb->read;`. -/
def advanceRead (num : SizeT) : Prog Shared Unit := do
  let r ← read
  setRead (r + num) num
  let r ← read
  setReadLast r

def cbReadInc (writeFirst : Bool) (num : SizeT) : Prog Shared Unit := do
  let avail ← cbDataCount mask writeFirst
  advanceRead (if num > avail then avail else num)

def cbLoad (vRead : SizeT) : ℕ → Prog Shared (List UInt8)
  | 0 => pure []
  | n + 1 => do
    let x ← byte vRead
    let xs ← cbLoad (vRead + 1) n
    pure (x :: xs)

def cbLoadUntil (v : SizeT) (byte' : UInt8) : ℕ → Prog Shared (List UInt8)
  | 0 => pure []
  | max + 1 => do
    let x ← byte v
    if x = byte' then pure [x]
    else do
      let xs ← cbLoadUntil (v + 1) byte' max
      pure (x :: xs)

/-- Which counter is loaded first in `CbIsEmpty`, in the count of the bytes and in
`CbReadInc`. -/
structure Order where
  isEmpty : Bool
  count : Bool
  inc : Bool

def cbRead (o : Order) (n : SizeT) : Prog Shared (List UInt8 × SizeT) :=
  if n = 0 then .abort  -- CB_ASSERT(n > 0)
  else do
    let empty ← cbIsEmpty mask o.isEmpty
    if empty then pure ([], 0)
    else if n = 1 then do
      let r ← read
      let x ← byte r
      advanceRead 1
      pure ([x], 1)
    else do
      let availableBytes ← cbDataCount mask o.count
      let n := if availableBytes < n then availableBytes else n
      let vRead ← read
      let out ← cbLoad vRead n.toNat
      cbReadInc mask o.inc n
      pure (out, n)

def cbReadUntil (o : Order) (max : SizeT) (byte' : UInt8) : Prog Shared (List UInt8 × SizeT) :=
  if max = 0 then .abort  -- CB_ASSERT(max > 0)
  else do
    let empty ← cbIsEmpty mask o.isEmpty
    if empty then pure ([], 0)
    else do
      let avail ← cbDataCount mask o.count
      let max := if max > avail then avail else max
      let v ← read
      let out ← cbLoadUntil v byte' max.toNat
      let i : SizeT := BitVec.ofNat 64 out.length
      cbReadInc mask o.inc i
      pure (out, i)

/-! ## The producer -/

def cbWriteInc (writeFirst : Bool) (num : SizeT) : Prog Shared Unit := do
  let gap ← cbEmptyCount mask writeFirst
  let w ← write
  setWrite (w + num) num
  if num > gap then do
    let w ← write
    jumpRead (w + 1)
    let r ← read
    setReadLast r
    let c ← fullCnt
    setFullCnt (c + 1)
  else pure ()

def cbStore (vWrite : SizeT) : List UInt8 → Prog Shared Unit
  | [] => pure ()
  | x :: xs => do
    setByte vWrite x
    cbStore (vWrite + 1) xs

variable (size : SizeT)

/-- `CbWrite` of the bytes of `item`. -/
def cbWrite (writeFirst : Bool) : List UInt8 → Prog Shared SizeT
  | [] => .abort  -- CB_ASSERT(n > 0)
  | [x] => do
    let w ← write
    setByte w x
    let w ← write
    setWrite (w + 1) 1
    let (w, r) ← counters writeFirst
    if w &&& mask = r &&& mask then do
      let r ← read
      jumpRead (r + 1)
      let r ← read
      setReadLast r
      let c ← fullCnt
      setFullCnt (c + 1)
      pure 1
    else pure 1
  | item =>
    if item.length < size.toNat then do
      let vWrite ← write
      cbStore vWrite item
      let n : SizeT := BitVec.ofNat 64 item.length
      cbWriteInc mask writeFirst n
      pure n
    else pure 0

def cbDmaWrInc (writeFirst : Bool) (ndtr : BitVec 32) : Prog Shared Unit := do
  let ndtr := if ndtr.slt 0 then 0 else ndtr
  let ndtr := if ndtr.signExtend 64 > size then size.truncate 32 else ndtr
  let produced := (size - ndtr.signExtend 64) &&& mask
  let d ← dmaCnt
  let delta := (produced - d) &&& mask
  setDmaCnt produced
  cbWriteInc mask writeFirst delta

def inBufferSetAll : BitVec 32 → List UInt8 → Prog Shared Unit
  | _, [] => pure ()
  | i, x :: xs => do
    setSlot i x
    inBufferSetAll (i + 1) xs

def inBufferCopy (wPhys : BitVec 32) (bytes : List UInt8) : Prog Shared Unit := do
  let chunk : BitVec 32 := BitVec.ofNat 32 bytes.length
  let tillEnd := size.truncate 32 - wPhys
  let n1 := if chunk < tillEnd then chunk else tillEnd
  inBufferSetAll wPhys (bytes.take n1.toNat)
  if chunk > n1 then inBufferSetAll 0 (bytes.drop n1.toNat) else pure ()

/-- The body of the loop of `dma_th`; the result is the new `ndtr`. -/
def dmaThBlock (writeFirst : Bool) (ndtr : BitVec 32) (bytes : List UInt8) :
    Prog Shared (BitVec 32) := do
  let bufferSz : BitVec 32 := size.truncate 32
  let chunk : BitVec 32 := BitVec.ofNat 32 bytes.length
  let producedBefore := (bufferSz - ndtr) &&& (bufferSz - 1)
  let ndtr := if chunk ≤ ndtr then ndtr - chunk else bufferSz - (chunk - ndtr) % bufferSz
  inBufferCopy size producedBefore bytes
  cbDmaWrInc mask size writeFirst ndtr
  pure ndtr

/-! ## Without another thread -/

theorem counters_run (writeFirst : Bool) (s : Shared) :
    (counters writeFirst).run s = some ((s.cb.write, s.cb.read), s) := by
  cases writeFirst <;> rfl

@[simp] theorem cbIsEmpty_run (writeFirst : Bool) (s : Shared) :
    (cbIsEmpty s.cb.mask writeFirst).run s = some (CBuffer.cbIsEmpty s.cb, s) := by
  simp only [cbIsEmpty, Prog.run_bind, counters_run, Option.bind_some, Prog.run_pure]
  rfl

@[simp] theorem cbDataCount_run (writeFirst : Bool) (s : Shared) :
    (cbDataCount s.cb.mask writeFirst).run s = some (CBuffer.cbDataCount s.cb, s) := by
  simp only [cbDataCount, Prog.run_bind, counters_run, Option.bind_some, Prog.run_pure]
  rfl

@[simp] theorem cbEmptyCount_run (writeFirst : Bool) (s : Shared) :
    (cbEmptyCount s.cb.mask writeFirst).run s = some (CBuffer.cbEmptyCount s.cb, s) := by
  simp only [cbEmptyCount, Prog.run_bind, counters_run, Option.bind_some, Prog.run_pure]
  rfl

/-- The result and the buffer of a program that runs alone. -/
def alone {α : Type} (p : Prog Shared α) (s : Shared) : Option (CbT × α) :=
  (p.run s).map fun x => (x.2.cb, x.1)

theorem cbReadInc_run (writeFirst : Bool) (num : SizeT) (s : Shared) :
    ∃ k, (cbReadInc s.cb.mask writeFirst num).run s =
      some ((), { s with cb := CBuffer.cbReadInc s.cb num, consumed := k }) := by
  simp only [cbReadInc, Prog.run_bind, cbDataCount_run, Option.bind_some]
  exact ⟨_, rfl⟩

theorem cbLoad_run (v : SizeT) (n : ℕ) (s : Shared) :
    (cbLoad v n).run s = some (CBuffer.cbLoad s.cb v n, s) := by
  induction n generalizing v with
  | zero => rfl
  | succ n ih =>
    simp only [cbLoad, byte, Prog.run_bind, Prog.run_load, Option.bind_some, ih, Prog.run_pure]
    rfl

theorem cbLoadUntil_run (v : SizeT) (byte' : UInt8) (n : ℕ) (s : Shared) :
    (cbLoadUntil v byte' n).run s = some (CBuffer.cbLoadUntil s.cb v byte' n, s) := by
  induction n generalizing v with
  | zero => rfl
  | succ n ih =>
    simp only [cbLoadUntil, byte, Prog.run_bind, Prog.run_load, Option.bind_some,
      CBuffer.cbLoadUntil]
    split
    · rfl
    · simp only [Prog.run_bind, ih, Option.bind_some, Prog.run_pure]

theorem cbRead_alone (o : Order) (n : SizeT) (s : Shared) :
    alone (cbRead s.cb.mask o n) s = CBuffer.cbRead s.cb n := by
  unfold alone cbRead CBuffer.cbRead
  split
  · rfl
  · simp only [Prog.run_bind, cbIsEmpty_run, Option.bind_some]
    split
    · rfl
    · split
      · rfl
      · simp only [Prog.run_bind, cbDataCount_run, Option.bind_some, read, Prog.run_load,
          cbLoad_run]
        obtain ⟨k, hk⟩ := cbReadInc_run o.inc (if CBuffer.cbDataCount s.cb < n then
          CBuffer.cbDataCount s.cb else n) s
        rw [hk]
        rfl

theorem cbReadUntil_alone (o : Order) (max : SizeT) (byte' : UInt8) (s : Shared) :
    alone (cbReadUntil s.cb.mask o max byte') s = CBuffer.cbReadUntil s.cb max byte' := by
  unfold alone cbReadUntil CBuffer.cbReadUntil
  split
  · rfl
  · simp only [Prog.run_bind, cbIsEmpty_run, Option.bind_some]
    split
    · rfl
    · simp only [Prog.run_bind, cbDataCount_run, Option.bind_some, read, Prog.run_load,
        cbLoadUntil_run]
      obtain ⟨k, hk⟩ := cbReadInc_run o.inc (BitVec.ofNat 64 (CBuffer.cbLoadUntil s.cb s.cb.read
        byte' (if max > CBuffer.cbDataCount s.cb then CBuffer.cbDataCount s.cb
          else max).toNat).length) s
      rw [hk]
      rfl

theorem cbWriteInc_run (writeFirst : Bool) (num : SizeT) (s : Shared) :
    ∃ k l, (cbWriteInc s.cb.mask writeFirst num).run s =
      some ((), { s with cb := CBuffer.cbWriteInc s.cb num, published := k, consumed := l }) := by
  simp only [cbWriteInc, Prog.run_bind, cbEmptyCount_run, Option.bind_some, write, Prog.run_load,
    setWrite, Prog.run_modify, CBuffer.cbWriteInc]
  split
  · exact ⟨_, _, rfl⟩
  · exact ⟨_, _, rfl⟩

theorem cbStore_run (v : SizeT) (xs : List UInt8) (s : Shared) :
    ∃ k, (cbStore v xs).run s = some ((), { s with cb := CBuffer.cbStore s.cb v xs, stored := k }) := by
  induction xs generalizing v s with
  | nil => exact ⟨_, rfl⟩
  | cons x xs ih =>
    simp only [cbStore, setByte, Prog.run_bind, Prog.run_modify, Option.bind_some]
    exact ih (v + 1) _

theorem cbWrite_alone (writeFirst : Bool) (item : List UInt8) (s : Shared) :
    alone (cbWrite s.cb.mask s.cb.size writeFirst item) s = CBuffer.cbWrite s.cb item := by
  match item with
  | [] => rfl
  | [x] =>
    simp only [alone, cbWrite, Prog.run_bind, write, setByte, setWrite, Prog.run_load,
      Prog.run_modify, Option.bind_some, counters_run, CBuffer.cbWrite]
    split
    · rename_i h
      exact (if_pos h).symm
    · rename_i h
      exact (if_neg h).symm
  | x :: y :: rest =>
    simp only [alone, cbWrite, CBuffer.cbWrite]
    split
    · simp only [Prog.run_bind, write, Prog.run_load, Option.bind_some]
      obtain ⟨k, hk⟩ := cbStore_run s.cb.write (x :: y :: rest) s
      rw [hk]
      simp only [Option.bind_some]
      have hmask : s.cb.mask = (CBuffer.cbStore s.cb s.cb.write (x :: y :: rest)).mask := by
        rw [CbT.maskEq, CbT.maskEq, cbStore_size]
      obtain ⟨l, m, hl⟩ := cbWriteInc_run writeFirst (BitVec.ofNat 64 (x :: y :: rest).length)
        { s with cb := CBuffer.cbStore s.cb s.cb.write (x :: y :: rest), stored := k }
      rw [hmask, hl]
      rfl
    · rfl

theorem cbDmaWrInc_run (writeFirst : Bool) (ndtr : BitVec 32) (s : Shared) :
    ∃ k l, (cbDmaWrInc s.cb.mask s.cb.size writeFirst ndtr).run s =
      some ((), { s with cb := CBuffer.cbDmaWrInc s.cb ndtr, published := k, consumed := l }) := by
  simp only [cbDmaWrInc, Prog.run_bind, dmaCnt, Prog.run_load, Option.bind_some, setDmaCnt,
    Prog.run_modify]
  generalize hp : (s.cb.size - _) &&& s.cb.mask = produced
  obtain ⟨k, l, h⟩ := cbWriteInc_run writeFirst ((produced - s.cb.dmaCnt) &&& s.cb.mask)
    { s with cb := { s.cb with dmaCnt := produced } }
  refine ⟨k, l, h.trans ?_⟩
  rw [← hp]
  rfl

theorem setSlot_run (i : BitVec 32) (x : UInt8) (s : Shared) :
    (setSlot i x).run s = (inBufferSet s.cb i x).map fun cb =>
      ((), { s with cb, stored := s.stored + 1 }) := by
  cases h : inBufferSet s.cb i x <;> simp [setSlot, Prog.run, h]

theorem inBufferSetAll_run (i : BitVec 32) (xs : List UInt8) (s : Shared) :
    (inBufferSetAll i xs).run s = (CBuffer.inBufferSetAll s.cb i xs).map fun cb =>
      ((), { s with cb, stored := s.stored + xs.length }) := by
  induction xs generalizing i s with
  | nil => rfl
  | cons x xs ih =>
    rw [inBufferSetAll, CBuffer.inBufferSetAll, Prog.run_bind, setSlot_run]
    cases inBufferSet s.cb i x with
    | none => rfl
    | some cb =>
      simp only [Option.map_some, Option.bind_some, ih, List.length_cons, Nat.add_assoc,
        Nat.add_comm 1]

theorem inBufferSet_size {cb cb' : CbT} {i : BitVec 32} {x : UInt8}
    (h : inBufferSet cb i x = some cb') : cb'.size = cb.size := by
  unfold inBufferSet at h
  split at h
  · cases h
    rfl
  · cases h

theorem inBufferSetAll_size {cb cb' : CbT} {i : BitVec 32} {xs : List UInt8}
    (h : CBuffer.inBufferSetAll cb i xs = some cb') : cb'.size = cb.size := by
  induction xs generalizing cb i with
  | nil =>
    cases h
    rfl
  | cons x xs ih =>
    obtain ⟨cb₁, h₁, h₂⟩ := Option.bind_eq_some_iff.mp h
    rw [ih h₂, inBufferSet_size h₁]

theorem inBufferCopy_size {cb cb' : CbT} {i : BitVec 32} {xs : List UInt8}
    (h : CBuffer.inBufferCopy cb i xs = some cb') : cb'.size = cb.size := by
  unfold CBuffer.inBufferCopy at h
  dsimp only at h
  generalize (if BitVec.ofNat 32 xs.length < cb.size.truncate 32 - i then
    BitVec.ofNat 32 xs.length else cb.size.truncate 32 - i) = n1 at h
  obtain ⟨cb₁, h₁, h₂⟩ := Option.bind_eq_some_iff.mp h
  rw [← inBufferSetAll_size h₁]
  split at h₂
  · exact inBufferSetAll_size h₂
  · cases h₂
    rfl

theorem inBufferCopy_run (wPhys : BitVec 32) (xs : List UInt8) (s : Shared) :
    ∃ k, (inBufferCopy s.cb.size wPhys xs).run s = (CBuffer.inBufferCopy s.cb wPhys xs).map
      fun cb => ((), { s with cb, stored := k }) := by
  unfold inBufferCopy CBuffer.inBufferCopy
  dsimp only
  generalize (if BitVec.ofNat 32 xs.length < s.cb.size.truncate 32 - wPhys then
    BitVec.ofNat 32 xs.length else s.cb.size.truncate 32 - wPhys) = n1
  rw [Prog.run_bind, inBufferSetAll_run]
  cases CBuffer.inBufferSetAll s.cb wPhys (xs.take n1.toNat) with
  | none => exact ⟨0, rfl⟩
  | some cb =>
    simp only [Option.map_some, Option.bind_some]
    split
    · exact ⟨_, inBufferSetAll_run _ _ _⟩
    · exact ⟨_, rfl⟩

theorem dmaThBlock_alone (writeFirst : Bool) (ndtr : BitVec 32) (xs : List UInt8) (s : Shared) :
    alone (dmaThBlock s.cb.mask s.cb.size writeFirst ndtr xs) s =
      CBuffer.dmaThBlock s.cb ndtr xs := by
  unfold alone dmaThBlock CBuffer.dmaThBlock
  dsimp only
  generalize (if BitVec.ofNat 32 xs.length ≤ ndtr then ndtr - BitVec.ofNat 32 xs.length
    else _) = ndtr'
  generalize s.cb.size.truncate 32 - ndtr &&& s.cb.size.truncate 32 - 1 = wPhys
  obtain ⟨k, hk⟩ := inBufferCopy_run wPhys xs s
  rw [Prog.run_bind, hk]
  cases hcopy : CBuffer.inBufferCopy s.cb wPhys xs with
  | none => rfl
  | some cb =>
    have hsize : cb.size = s.cb.size := inBufferCopy_size hcopy
    have hmask : cb.mask = s.cb.mask := by rw [cb.maskEq, s.cb.maskEq, hsize]
    obtain ⟨l, m, hl⟩ := cbDmaWrInc_run writeFirst ndtr' { s with cb, stored := k }
    rw [← hsize, ← hmask, Option.map_some, Option.bind_some, Prog.run_bind, hl]
    rfl

end Access

end DataCommons.CBuffer
