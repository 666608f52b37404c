import DataCommons.CBuffer.Contiguous

/-!
# Copying past the calls

`CbContiguousEmptyCount` and `CbContiguousDataCount` let a caller copy straight to and
from `data`, and publish with `CbWriteInc` and `CbReadInc`.  A copy goes up to the end of
the memory, a second one on from its start.

* `cbFill_eq`, `cbCopyOut_eq`: a plain copy is what the masked loops do;
* `cbPut_spec`, `cbGet_spec`: one copy, up to the end of the memory;
* `cbPutAll_spec`, `cbGetAll_spec`: two copies take all that fits, and all there is;
* `zero_copy_refines`: in any mix with the other calls the buffer stays a queue.
-/

namespace DataCommons.CBuffer

open RingWindow OverwriteQueue CbT

/-! ## Copies -/

/-- `memcpy(data + i, xs, ..)`; none past the end of the memory. -/
def cbFill (cb : CbT) (i : ℕ) : List UInt8 → Option CbT
  | [] => some cb
  | x :: xs =>
    if h : i < cb.size.toNat then cbFill { cb with data := cb.data.set i x h } (i + 1) xs else none

/-- `memcpy(.., data + i, n)`. -/
def cbCopyOut (cb : CbT) (i : ℕ) : ℕ → Option (List UInt8)
  | 0 => some []
  | n + 1 =>
    match cb.data[i]?, cbCopyOut cb (i + 1) n with
    | some x, some xs => some (x :: xs)
    | _, _ => none

/-- As many of the bytes as `CbContiguousEmptyCount` allows, and their number. -/
def cbPut (cb : CbT) (bytes : List UInt8) : Option (CbT × ℕ) :=
  let n := min bytes.length (cbContiguousEmptyCount cb).toNat
  match cbFill cb (cb.write &&& cb.mask).toNat (bytes.take n) with
  | none => none
  | some cb => some (cbWriteInc cb (BitVec.ofNat 64 n), n)

/-- At most `n` bytes, as many as `CbContiguousDataCount` says. -/
def cbGet (cb : CbT) (n : ℕ) : Option (CbT × List UInt8) :=
  let k := min n (cbContiguousDataCount cb).toNat
  match cbCopyOut cb (cb.read &&& cb.mask).toNat k with
  | none => none
  | some out => some (cbReadInc cb (BitVec.ofNat 64 k), out)

/-- A copy up to the end of the memory and one from its start. -/
def cbPutAll (cb : CbT) (bytes : List UInt8) : Option (CbT × ℕ) :=
  match cbPut cb bytes with
  | none => none
  | some (cb, n) => (cbPut cb (bytes.drop n)).map fun (cb, m) => (cb, n + m)

def cbGetAll (cb : CbT) (n : ℕ) : Option (CbT × List UInt8) :=
  match cbGet cb n with
  | none => none
  | some (cb, out) =>
    (cbGet cb (n - out.length)).map fun (cb, out') => (cb, out ++ out')

section Copies

variable {cb : CbT}

theorem next_slot {cb : CbT} {v : SizeT} (h : (v &&& cb.mask).toNat + 1 < cb.slots) :
    ((v + 1) &&& cb.mask).toNat = (v &&& cb.mask).toNat + 1 := by
  rw [and_mask_toNat] at h ⊢
  have hnext : (v + 1).toNat % cb.slots = (v.toNat + 1) % cb.slots := cb.toNat_succ_modEq v
  rw [and_mask_toNat, hnext, Nat.add_mod, Nat.mod_eq_of_lt (by omega : 1 < cb.slots)]
  exact Nat.mod_eq_of_lt h

/-- **A copy that ends with the memory at the latest** is the loop of `CbWrite`. -/
theorem cbFill_eq {v : SizeT} {xs : List UInt8}
    (h : (v &&& cb.mask).toNat + xs.length ≤ cb.slots) :
    cbFill cb (v &&& cb.mask).toNat xs = some (cbStore cb v xs) := by
  induction xs generalizing cb v with
  | nil => rfl
  | cons x xs ih =>
    rw [List.length_cons] at h
    have hin : (v &&& cb.mask).toNat < cb.size.toNat := cb.slot_lt v
    rw [cbFill, dif_pos hin, cbStore]
    cases xs with
    | nil => rfl
    | cons y ys =>
      rw [List.length_cons] at h
      have hnext := @next_slot cb v (by omega)
      have hrest := @ih (cb.setByte v x) (v + 1) (by
        rw [show (cb.setByte v x).mask = cb.mask from rfl, hnext, List.length_cons, setByte_slots]
        omega)
      rw [show (cb.setByte v x).mask = cb.mask from rfl, hnext] at hrest
      exact hrest

/-- So is a copy out of it, and the loop of `CbRead`. -/
theorem cbCopyOut_eq {v : SizeT} {n : ℕ} (h : (v &&& cb.mask).toNat + n ≤ cb.slots) :
    cbCopyOut cb (v &&& cb.mask).toNat n = some (cbLoad cb v n) := by
  induction n generalizing v with
  | zero => rfl
  | succ n ih =>
    have hbyte : cb.data[(v &&& cb.mask).toNat]? = some (cb.byteAt v) :=
      Vector.getElem?_eq_getElem (cb.slot_lt v)
    rw [cbCopyOut, hbyte, cbLoad]
    cases n with
    | zero => rfl
    | succ n =>
      have hnext := @next_slot cb v (by omega)
      rw [← hnext, ih (by omega)]

/-! ## One copy -/

/-- **One copy in** publishes its bytes and loses none. -/
theorem cbPut_spec (cb : CbT) (bytes : List UInt8) :
    ∃ cb' n, cbPut cb bytes = some (cb', n) ∧
      n = min bytes.length (min (cb.slots - 1 - cb.count) (cb.slots - cb.writeSlot)) ∧
      cb'.size = cb.size ∧ cb'.queue = cb.queue ++ bytes.take n ∧
      cb'.write.toNat ≡ cb.write.toNat + n [MOD cb.slots] := by
  have hlt := cb.count_lt
  have hn : min bytes.length (cbContiguousEmptyCount cb).toNat
      = min bytes.length (min (cb.slots - 1 - cb.count) (cb.slots - cb.writeSlot)) := by
    rw [cbContiguousEmptyCount_toNat, cbEmptyCount_toNat]
  generalize hk : min bytes.length (cbContiguousEmptyCount cb).toNat = n at hn
  have hlen : (bytes.take n).length = n := by
    rw [List.length_take]
    omega
  have hslot : (cb.write &&& cb.mask).toNat = cb.writeSlot := cb.and_mask_toNat _
  have hw := cb.writeSlot_lt
  have hfill := @cbFill_eq cb cb.write (bytes.take n) (by rw [hlen, hslot]; omega)
  have hsmall := cb.ofNat_toNat (show n < cb.slots by omega)
  have hwrite : (cbWriteInc (cbStore cb cb.write (bytes.take n)) (BitVec.ofNat 64 n)).write.toNat
      ≡ cb.write.toNat + n [MOD cb.slots] := by
    have h := cb.toNat_add_modEq cb.write (BitVec.ofNat 64 n)
    rw [cbWriteInc_write, cbStore_write]
    rwa [hsmall] at h
  refine ⟨_, n, ?_, hn, ?_, ?_, hwrite⟩
  · rw [cbPut, hk, hfill]
  · rw [cbWriteInc_size, cbStore_size]
  · have hqueue := queue_after_store cb
      (cbWriteInc (cbStore cb cb.write (bytes.take n)) (BitVec.ofNat 64 n)) (bytes.take n)
      (by omega) (by simp) (by rw [cbWriteInc_cells, cbStore_cells])
      (by
        have hr := cbWriteInc_read (cbStore cb cb.write (bytes.take n)) (BitVec.ofNat 64 n)
        simpa only [cbStore_read, cbStore_slots, cbStore_count, hsmall, hlen] using hr)
      (by rw [hlen]; exact hwrite)
    -- nothing has to go
    have hfits : (cb.queue ++ bytes.take n).length - (cb.slots - 1) = 0 := by
      rw [List.length_append, queue_length, hlen]
      omega
    rw [hqueue, List.rtake, hfits, List.drop_zero]

/-- **One copy out** is a read of the queue that stops at the end of the memory. -/
theorem cbGet_spec (cb : CbT) (hsize : cb.slots ≤ 2 ^ 31) (n : ℕ) :
    ∃ cb' k, cbGet cb n = some (cb', cb.queue.take k) ∧
      k = min n (min cb.count (cb.slots - cb.readSlot)) ∧
      cb'.size = cb.size ∧ cb'.queue = cb.queue.drop k ∧
      cb'.read.toNat ≡ cb.read.toNat + k [MOD cb.slots] := by
  have hlt := cb.count_lt
  have hr := cb.readSlot_lt
  have hk : min n (cbContiguousDataCount cb).toNat
      = min n (min cb.count (cb.slots - cb.readSlot)) := by
    rw [(cbContiguousDataCount_iff cb).mpr (fitsInt_of_small hsize)]
    rfl
  generalize hk' : min n (cbContiguousDataCount cb).toNat = k at hk
  have hslot : (cb.read &&& cb.mask).toNat = cb.readSlot := cb.and_mask_toNat _
  have hout := @cbCopyOut_eq cb cb.read k (by rw [hslot]; omega)
  have hsmall := cb.ofNat_toNat (show k < cb.slots by omega)
  have hnum : ¬ BitVec.ofNat 64 k > (cb.write - cb.read) &&& cb.mask := fun hgt => by
    have hgt' : cb.count < (BitVec.ofNat 64 k).toNat := BitVec.lt_def.mp hgt
    omega
  refine ⟨cbReadInc cb (BitVec.ofNat 64 k), k, ?_, hk, rfl, ?_, ?_⟩
  · rw [cbGet, hk', hout, cbLoad_eq, queue_eq_window, take_window,
      Nat.min_eq_left (show k ≤ cb.count by omega)]
  · rw [cbReadInc_queue cb _ (by omega), hsmall]
  · have hread : (cbReadInc cb (BitVec.ofNat 64 k)).read = cb.read + BitVec.ofNat 64 k := by
      simp only [cbReadInc, hnum, ↓reduceIte]
    have h := cb.toNat_add_modEq cb.read (BitVec.ofNat 64 k)
    rwa [hsmall, ← hread] at h

/-! ## Two copies -/

theorem slot_after_end {slots v w k : ℕ} (h : w ≡ v + k [MOD slots]) (hk : k = slots - v % slots)
    (hpos : 0 < slots) : w % slots = 0 := by
  have hlt := Nat.mod_lt v hpos
  calc w % slots = (v + k) % slots := h
    _ = (v % slots + k) % slots := (Nat.mod_add_mod v slots k).symm
    _ = slots % slots := by rw [hk, Nat.add_sub_cancel' (Nat.le_of_lt hlt)]
    _ = 0 := Nat.mod_self slots

/-- **Two copies in** fill the buffer. -/
theorem cbPutAll_spec (cb : CbT) (bytes : List UInt8) :
    ∃ cb', cbPutAll cb bytes = some (cb', min bytes.length (cb.slots - 1 - cb.count)) ∧
      cb'.size = cb.size ∧ cb'.queue = cb.queue ++ bytes.take (cb.slots - 1 - cb.count) := by
  obtain ⟨cb₁, n, h₁, hn, hs₁, hq₁, hw₁⟩ := cbPut_spec cb bytes
  obtain ⟨cb₂, m, h₂, hm, hs₂, hq₂, -⟩ := cbPut_spec cb₁ (bytes.drop n)
  have hlt := cb.count_lt
  have hw := cb.writeSlot_lt
  have hslots : cb₁.slots = cb.slots := congrArg BitVec.toNat hs₁
  have hcount : cb₁.count = cb.count + n := by
    rw [← queue_length, hq₁, List.length_append, queue_length, List.length_take]
    omega
  have hend : n = cb.slots - cb.writeSlot → cb₁.writeSlot = 0 := fun h => by
    rw [writeSlot, hslots]
    exact slot_after_end hw₁ h cb.slots_pos
  rw [List.length_drop, hslots, hcount] at hm
  have hsum : n + m = min bytes.length (cb.slots - 1 - cb.count) := by
    by_cases h : n = cb.slots - cb.writeSlot
    · have h0 := hend h
      omega
    · omega
  refine ⟨cb₂, ?_, hs₂.trans hs₁, ?_⟩
  · rw [cbPutAll, h₁]
    simp only [h₂, Option.map_some, hsum]
  · have htake : bytes.take (n + m) = bytes.take (cb.slots - 1 - cb.count) := by
      rw [hsum, Nat.min_comm, ← List.take_take, List.take_length]
    rw [hq₂, hq₁, List.append_assoc, ← List.take_add, htake]

/-- **Two copies out** are a read of the queue. -/
theorem cbGetAll_spec (cb : CbT) (hsize : cb.slots ≤ 2 ^ 31) (n : ℕ) :
    ∃ cb', cbGetAll cb n = some (cb', cb.queue.take n) ∧
      cb'.size = cb.size ∧ cb'.queue = cb.queue.drop n := by
  obtain ⟨cb₁, k, h₁, hk, hs₁, hq₁, hr₁⟩ := cbGet_spec cb hsize n
  have hslots : cb₁.slots = cb.slots := congrArg BitVec.toNat hs₁
  have hr := cb.readSlot_lt
  have hlt := cb.count_lt
  have hlen : (cb.queue.take k).length = k := by
    rw [List.length_take, queue_length]
    omega
  obtain ⟨cb₂, m, h₂, hm, hs₂, hq₂, -⟩ := cbGet_spec cb₁ (hslots ▸ hsize) (n - k)
  have hcount : cb₁.count = cb.count - k := by
    rw [← queue_length, hq₁, List.length_drop, queue_length]
  have hend : k = cb.slots - cb.readSlot → cb₁.readSlot = 0 := fun h => by
    rw [readSlot, hslots]
    exact slot_after_end hr₁ h cb.slots_pos
  rw [hslots, hcount] at hm
  have hsum : k + m = min n cb.queue.length := by
    rw [queue_length]
    by_cases h : k = cb.slots - cb.readSlot
    · have h0 := hend h
      omega
    · omega
  refine ⟨cb₂, ?_, hs₂.trans hs₁, ?_⟩
  · have htake : cb.queue.take k ++ (cb.queue.drop k).take m = cb.queue.take n := by
      rw [← List.take_add, hsum, ← List.take_take, List.take_length]
    rw [cbGetAll, h₁]
    simp only [hlen, h₂, Option.map_some, hq₁, htake]
  · rw [hq₂, hq₁, List.drop_drop, hsum]
    rcases Nat.le_total n cb.queue.length with h | h
    · rw [Nat.min_eq_left h]
    · rw [Nat.min_eq_right h, List.drop_length, List.drop_eq_nil_of_le h]

end Copies

/-! ## Runs -/

/-- A call of the buffer, or copies round it. -/
inductive CopyCall where
  | call (c : CbCall)
  | put (bytes : List UInt8)
  | get (n : ℕ)
  deriving DecidableEq

def CopyCall.Ok : CopyCall → Prop
  | .call c => c.Ok
  | _ => True

def copyStep (cb : CbT) : CopyCall → Option (CbT × QueueOut UInt8)
  | .call c => cbStep cb c
  | .put bytes => (cbPutAll cb bytes).map fun (cb, n) => (cb, ⟨n, []⟩)
  | .get n => (cbGetAll cb n).map fun (cb, out) => (cb, ⟨out.length, out⟩)

/-- On a queue of up to `cap` bytes.  A copy overwrites nothing: it takes what fits. -/
def copyQueueStep (cap : ℕ) (q : List UInt8) : CopyCall → List UInt8 × QueueOut UInt8
  | .call c => step cap q c.toOp
  | .put bytes => (q ++ bytes.take (cap - q.length), ⟨min bytes.length (cap - q.length), []⟩)
  | .get n => (q.drop n, ⟨(q.take n).length, q.take n⟩)

/-- **Step lemma.** -/
theorem copyStep_refines (cb : CbT) (hsize : cb.slots ≤ 2 ^ 31) (c : CopyCall) (hc : c.Ok) :
    ∃ cb', copyStep cb c = some (cb', (copyQueueStep (cb.slots - 1) cb.queue c).2) ∧
      cb'.size = cb.size ∧ cb'.queue = (copyQueueStep (cb.slots - 1) cb.queue c).1 := by
  cases c with
  | call c => exact cbStep_refines cb c hc
  | put bytes =>
    obtain ⟨cb', h, hs, hq⟩ := cbPutAll_spec cb bytes
    rw [← queue_length] at h hq
    exact ⟨cb', by simp [copyStep, copyQueueStep, h], hs, hq⟩
  | get n =>
    obtain ⟨cb', h, hs, hq⟩ := cbGetAll_spec cb hsize n
    exact ⟨cb', by simp only [copyStep, h, Option.map_some, copyQueueStep], hs, hq⟩

/-- **Copying past the calls.**  With up to 2^31 slots, every run from `CbInit` of calls and
of copies sized by the contiguous counts gives what the queue does, and no copy leaves the
memory. -/
theorem zero_copy_refines {size : SizeT} {data : Vector UInt8 size.toNat} {name : Option String}
    {cb₀ : CbT} (hinit : cbInit size data name = some cb₀) (hsize : size.toNat ≤ 2 ^ 31)
    {calls : List CopyCall} (hcalls : ∀ c ∈ calls, c.Ok) :
    ∃ cb outs, Machine.exec copyStep cb₀ calls = some (cb, outs) ∧
      Machine.exec (fun q c => some (copyQueueStep (size.toNat - 1) q c)) [] calls
        = some (cb.queue, outs) := by
  obtain ⟨hsize₀, -, -, -, hq₀⟩ := cbInit_eq_some hinit
  have hstep : ∀ (cb : CbT) (q : List UInt8) (c : CopyCall), cb.size = size ∧ q = cb.queue → c.Ok →
      ∃ cb', copyStep cb c = some (cb', (copyQueueStep (size.toNat - 1) q c).2) ∧
        cb'.size = size ∧ (copyQueueStep (size.toNat - 1) q c).1 = cb'.queue := by
    rintro cb q c ⟨rfl, rfl⟩ hc
    obtain ⟨cb', h, hs, hq⟩ := copyStep_refines cb hsize c hc
    exact ⟨cb', h, hs, hq.symm⟩
  obtain ⟨cb, q, outs, hrun, hq, -, rfl⟩ :=
    Machine.exec_simulates (f := id) hstep ⟨hsize₀, hq₀.symm⟩ hcalls
  rw [List.map_id] at hq
  exact ⟨cb, outs, hrun, hq⟩

/-- Two bytes are copied in past the end of the memory, and out again behind a call. -/
theorem zero_copy_refines_four : ∃ cb outs,
    Machine.exec copyStep fourSlots [.call (.write [1, 2, 3]), .get 2, .put [4, 5, 6], .get 9]
      = some (cb, outs) ∧
    Machine.exec (fun q c => some (copyQueueStep 3 q c)) []
      [.call (.write [1, 2, 3]), .get 2, .put [4, 5, 6], .get 9] = some (cb.queue, outs) :=
  have hinit : cbInit 4 (Vector.replicate _ 0) none = some fourSlots := rfl
  zero_copy_refines hinit (by decide) (by simp [CopyCall.Ok, CbCall.Ok])

end DataCommons.CBuffer
