import DataCommons.CBuffer.Refinement

/-!
# DMA transfers into the circular buffer

The DMA hardware stores bytes round the memory of the buffer without touching
its counters; the driver publishes them with `CbDmaWrInc`; a consumer reads.
`DmaStep` interleaves the three in any order.  `DmaSt` keeps, beside the buffer,
what the statement of no loss speaks about: the bytes stored so far, the hardware
position of the last publish, and what the reads returned.

The invariant `DmaInv` ties the three positions (`hwpos`, `dma_cnt`, `write`)
together modulo the number of slots.  It holds as long as the bytes not yet read
fit the buffer, and gives `dma_no_loss`.
-/

namespace DataCommons.CBuffer

open RingWindow CbT

/-- The buffer, the bytes the hardware stored, its position at the last publish
and the bytes the reads returned. -/
structure DmaSt where
  cb : CbT
  stored : List UInt8
  published : ℕ
  out : List UInt8

namespace DmaSt

/-- The hardware position: the number of bytes stored. -/
def hwpos (s : DmaSt) : ℕ := s.stored.length

/-- The bytes in memory from the last publish up to the hardware position. -/
def pending (s : DmaSt) : List UInt8 :=
  window s.cb.slots s.cb.cells s.published (s.hwpos - s.published)

/-- At most `size - 1` of the bytes stored are not yet read. -/
def Fits (s : DmaSt) : Prop := s.stored.length ≤ s.out.length + (s.cb.slots - 1)

end DmaSt

/-- The hardware stores a byte at slot `hwpos mod size`. -/
def dmaStore (cb : CbT) (hwpos : ℕ) (x : UInt8) : CbT :=
  { cb with data := cb.data.set (hwpos % cb.slots) x (Nat.mod_lt _ cb.slots_pos) }

/-- `ndtr` matches the hardware position: it counts down from `size`, and reads
`size` or `0` at a multiple of `size`. -/
def NdtrMatches (cb : CbT) (hwpos : ℕ) (ndtr : BitVec 32) : Prop :=
  ndtr.toNat = cb.slots - hwpos % cb.slots ∨ (ndtr = 0 ∧ hwpos % cb.slots = 0)

inductive DmaStep : DmaSt → DmaSt → Prop
  | store (s : DmaSt) (x : UInt8) :
      DmaStep s { s with cb := dmaStore s.cb s.hwpos x, stored := s.stored ++ [x] }
  | publish (s : DmaSt) (ndtr : BitVec 32) : NdtrMatches s.cb s.hwpos ndtr →
      DmaStep s { s with cb := cbDmaWrInc s.cb ndtr, published := s.hwpos }
  | read (s : DmaSt) (n : SizeT) (cb : CbT) (out : List UInt8) (r : SizeT) :
      n ≠ 0 → cbRead s.cb n = some (cb, out, r) →
      DmaStep s { s with cb, out := s.out ++ out }
  | readUntil (s : DmaSt) (max : SizeT) (byte : UInt8) (cb : CbT) (out : List UInt8) (r : SizeT) :
      max ≠ 0 → cbReadUntil s.cb max byte = some (cb, out, r) →
      DmaStep s { s with cb, out := s.out ++ out }

/-- A run in which the bytes not yet read always fit. -/
def DmaRun : DmaSt → DmaSt → Prop :=
  Relation.ReflTransGen fun s s' => DmaStep s s' ∧ s'.Fits

/-! ## Frames of the reads -/

/-- A read changes neither the memory nor the producer's counters. -/
structure ReadFrame (cb cb' : CbT) : Prop where
  size : cb'.size = cb.size
  write : cb'.write = cb.write
  dmaCnt : cb'.dmaCnt = cb.dmaCnt
  cells : cb'.cells = cb.cells

theorem ReadFrame.rfl (cb : CbT) : ReadFrame cb cb := ⟨.refl _, .refl _, .refl _, .refl _⟩

theorem cbReadInc_frame (cb : CbT) (num : SizeT) : ReadFrame cb (cbReadInc cb num) :=
  ⟨.refl _, .refl _, .refl _, .refl _⟩

theorem cbRead_frame {cb cb' : CbT} {n : SizeT} {out : List UInt8} {r : SizeT}
    (h : cbRead cb n = some (cb', out, r)) : ReadFrame cb cb' := by
  unfold cbRead at h
  split at h
  · cases h
  · split at h
    · cases h; exact .rfl cb
    · split at h
      · cases h; exact ⟨.refl _, .refl _, .refl _, .refl _⟩
      · cases h; exact cbReadInc_frame cb _

theorem cbReadUntil_frame {cb cb' : CbT} {max : SizeT} {byte : UInt8} {out : List UInt8}
    {r : SizeT} (h : cbReadUntil cb max byte = some (cb', out, r)) : ReadFrame cb cb' := by
  unfold cbReadUntil at h
  split at h
  · cases h
  · split at h
    · cases h; exact .rfl cb
    · cases h; exact cbReadInc_frame cb _

/-- A read outputs a prefix of the queue and leaves the rest. -/
theorem cbRead_queue {cb cb' : CbT} {n : SizeT} {out : List UInt8} {r : SizeT} (hn : n ≠ 0)
    (h : cbRead cb n = some (cb', out, r)) : cb.queue = out ++ cb'.queue := by
  obtain ⟨cb₁, out₁, r₁, h₁, -, hq⟩ := cbRead_refines cb n hn
  rw [h] at h₁
  cases h₁
  simp only [OverwriteQueue.step, Prod.mk.injEq, OverwriteQueue.QueueOut.mk.injEq] at hq
  rw [← hq.1, ← hq.2.2, List.take_append_drop]

theorem cbReadUntil_queue {cb cb' : CbT} {max : SizeT} {byte : UInt8} {out : List UInt8}
    {r : SizeT} (hmax : max ≠ 0) (h : cbReadUntil cb max byte = some (cb', out, r)) :
    cb.queue = out ++ cb'.queue := by
  obtain ⟨cb₁, out₁, r₁, h₁, -, hq⟩ := cbReadUntil_refines cb max byte hmax
  rw [h] at h₁
  cases h₁
  simp only [OverwriteQueue.step, Prod.mk.injEq, OverwriteQueue.QueueOut.mk.injEq] at hq
  rw [← hq.1, ← hq.2.2]
  exact (OverwriteQueue.takeUntil_append_drop ..).symm

/-! ## Storing and publishing -/

theorem dmaStore_cells (cb : CbT) (p : ℕ) (x : UInt8) :
    (dmaStore cb p x).cells = put cb.slots cb.cells p x :=
  cells_set cb (p % cb.slots) (Nat.mod_lt _ cb.slots_pos) x

/-- A matching `ndtr` survives the clamping of `CbDmaWrInc`. -/
theorem ndtr_le (cb : CbT) {hwpos : ℕ} {ndtr : BitVec 32} (h : NdtrMatches cb hwpos ndtr) :
    ndtr.toNat ≤ cb.slots := by
  rcases h with h | ⟨h, -⟩
  · omega
  · simp [h]

/-- An `int32_t` up to `2 ^ 30` is not negative and keeps its value as a `size_t`. -/
theorem signExtend_toNat {ndtr : BitVec 32} (h : ndtr.toNat ≤ 2 ^ 30) :
    ndtr.slt 0 = false ∧ (ndtr.signExtend 64).toNat = ndtr.toNat := by
  have hmsb : ndtr.msb = false := BitVec.msb_eq_false_iff_two_mul_lt.mpr (by omega)
  refine ⟨(BitVec.slt_zero_eq_msb).trans hmsb, ?_⟩
  rw [BitVec.signExtend_eq_setWidth_of_msb_false hmsb, BitVec.toNat_setWidth]
  exact Nat.mod_eq_of_lt (by omega)

/-- The position that `CbDmaWrInc` computes from a matching `ndtr`. -/
theorem produced_toNat (cb : CbT) (hsize : cb.slots ≤ 2 ^ 30) {hwpos : ℕ} {ndtr : BitVec 32}
    (h : NdtrMatches cb hwpos ndtr) :
    ((cb.size - ndtr.signExtend 64) &&& cb.mask).toNat = hwpos % cb.slots := by
  have hle := ndtr_le cb h
  have hext := (signExtend_toNat (hle.trans hsize)).2
  have hlt := Nat.mod_lt hwpos cb.slots_pos
  have hsub : (cb.size - ndtr.signExtend 64).toNat = cb.slots - ndtr.toNat := by
    rw [BitVec.toNat_sub_of_le (by rw [BitVec.le_def, hext]; exact hle), hext]
    rfl
  rw [cb.and_mask_toNat, hsub]
  rcases h with h | ⟨h, h0⟩
  · rw [h, show cb.slots - (cb.slots - hwpos % cb.slots) = hwpos % cb.slots by omega, Nat.mod_mod]
  · simp [h, h0]

theorem cbDmaWrInc_eq (cb : CbT) (hsize : cb.slots ≤ 2 ^ 30) {hwpos : ℕ} {ndtr : BitVec 32}
    (h : NdtrMatches cb hwpos ndtr) :
    cbDmaWrInc cb ndtr =
      cbWriteInc { cb with dmaCnt := (cb.size - ndtr.signExtend 64) &&& cb.mask }
        (((cb.size - ndtr.signExtend 64) &&& cb.mask) - cb.dmaCnt &&& cb.mask) := by
  have hle := ndtr_le cb h
  obtain ⟨hslt, hext⟩ := signExtend_toNat (hle.trans hsize)
  have hgt : ¬ ndtr.signExtend 64 > cb.size := fun hgt => by
    have := BitVec.lt_def.mp hgt
    rw [hext] at this
    exact absurd this (Nat.not_lt.mpr hle)
  simp only [cbDmaWrInc, hslt, Bool.false_eq_true, ↓reduceIte, hgt]

@[simp] theorem cbWriteInc_dmaCnt (cb : CbT) (num : SizeT) :
    (cbWriteInc cb num).dmaCnt = cb.dmaCnt := by
  unfold cbWriteInc
  dsimp only
  split <;> rfl

/-! ## The invariant -/

/-- Memory, counters and positions of a run whose unread bytes fit: the slots
between what was read and `hwpos` hold the stored bytes, `write` and `dma_cnt`
stand at the last publish, and the queue is what was published and not read. -/
structure DmaInv (s : DmaSt) : Prop where
  fits : s.Fits
  size : s.cb.slots ≤ 2 ^ 30
  read_le : s.out.length ≤ s.published
  published_le : s.published ≤ s.hwpos
  out_eq : s.out = s.stored.take s.out.length
  count : s.cb.count = s.published - s.out.length
  write : s.cb.write.toNat ≡ s.published [MOD s.cb.slots]
  dmaCnt : s.cb.dmaCnt.toNat ≡ s.published [MOD s.cb.slots]
  memory : window s.cb.slots s.cb.cells s.out.length (s.hwpos - s.out.length) =
    s.stored.drop s.out.length

namespace DmaInv

variable {s : DmaSt}

theorem read (h : DmaInv s) : s.cb.read.toNat ≡ s.out.length [MOD s.cb.slots] := by
  have hle := h.read_le
  have hc := s.cb.count_modEq.trans h.write
  rw [h.count] at hc
  apply Nat.ModEq.add_right_cancel' (s.published - s.out.length)
  rwa [show s.out.length + (s.published - s.out.length) = s.published by omega]

theorem queue_eq (h : DmaInv s) :
    s.cb.queue = window s.cb.slots s.cb.cells s.out.length (s.published - s.out.length) := by
  rw [queue_eq_window, h.count]
  exact window_congr _ _ h.read

/-- What was read, is queued and is pending is what was stored. -/
theorem no_loss (h : DmaInv s) : s.out ++ s.cb.queue ++ s.pending = s.stored := by
  have h₁ := h.read_le
  have h₂ := h.published_le
  have hsplit : s.hwpos - s.out.length =
      (s.published - s.out.length) + (s.hwpos - s.published) := by omega
  have hmem := h.memory
  rw [hsplit, window_add, ← h.queue_eq,
    show s.out.length + (s.published - s.out.length) = s.published by omega] at hmem
  change s.cb.queue ++ s.pending = _ at hmem
  rw [List.append_assoc, hmem]
  conv_lhs => rw [h.out_eq, List.length_take_of_le (h₁.trans h₂), List.take_append_drop]

theorem queue_length (h : DmaInv s) : s.out.length + s.cb.queue.length = s.published := by
  have := h.read_le
  rw [CbT.queue_length, h.count]
  omega

theorem published_eq (h : DmaInv s) : s.out ++ s.cb.queue = s.stored.take s.published := by
  have hq := h.queue_length
  rw [← h.no_loss, List.take_append_of_le_length (by rw [List.length_append]; omega),
    List.take_of_length_le (by rw [List.length_append]; omega)]

/-! ## One step keeps the invariant -/

theorem store (h : DmaInv s) (x : UInt8)
    (hfits : DmaSt.Fits { s with cb := dmaStore s.cb s.hwpos x, stored := s.stored ++ [x] }) :
    DmaInv { s with cb := dmaStore s.cb s.hwpos x, stored := s.stored ++ [x] } := by
  have h₁ := h.read_le
  have h₂ := h.published_le
  have hpos := s.cb.slots_pos
  have hlen : (s.stored ++ [x]).length = s.hwpos + 1 := by simp [DmaSt.hwpos]
  have hout : s.out.length ≤ s.stored.length := h₁.trans h₂
  have hroom : s.hwpos + 1 ≤ s.out.length + (s.cb.slots - 1) := hlen ▸ hfits
  refine ⟨hfits, h.size, h₁, ?_, ?_, h.count, h.write, h.dmaCnt, ?_⟩
  · change s.published ≤ (s.stored ++ [x]).length
    omega
  · rw [List.take_append_of_le_length hout]
    exact h.out_eq
  · change window s.cb.slots (dmaStore s.cb s.hwpos x).cells s.out.length
      ((s.stored ++ [x]).length - s.out.length) = (s.stored ++ [x]).drop s.out.length
    have happ := window_putAll s.cb.cells s.out.length (s.hwpos - s.out.length) 0 [x] hpos
      (by simp only [List.length_singleton]; omega)
    rw [show s.out.length + (s.hwpos - s.out.length) = s.hwpos by
      simp only [DmaSt.hwpos]; omega] at happ
    rw [dmaStore_cells, List.drop_append_of_le_length hout, ← h.memory, hlen,
      show s.hwpos + 1 - s.out.length = s.hwpos - s.out.length + 1 by
        simp only [DmaSt.hwpos]; omega]
    exact happ

theorem publish (h : DmaInv s) (ndtr : BitVec 32) (hn : NdtrMatches s.cb s.hwpos ndtr) :
    DmaInv { s with cb := cbDmaWrInc s.cb ndtr, published := s.hwpos } := by
  have h₁ := h.read_le
  have h₂ := h.published_le
  have hfits : s.hwpos ≤ s.out.length + (s.cb.slots - 1) := h.fits
  have hprod := produced_toNat s.cb h.size hn
  have hpos := s.cb.slots_pos
  rw [cbDmaWrInc_eq s.cb h.size hn]
  generalize (s.cb.size - ndtr.signExtend 64) &&& s.cb.mask = produced at hprod
  -- the masked difference of the two positions is the number of new bytes
  have hdelta : (produced - s.cb.dmaCnt &&& s.cb.mask).toNat = s.hwpos - s.published := by
    apply s.cb.sub_and_mask_unique (by omega)
    refine (Nat.ModEq.add_right _ h.dmaCnt).trans ?_
    rw [show s.published + (s.hwpos - s.published) = s.hwpos by omega, hprod]
    exact (Nat.mod_modEq _ _).symm
  generalize hcb : ({ s.cb with dmaCnt := produced } : CbT) = cb₁
  generalize (produced - s.cb.dmaCnt &&& s.cb.mask) = delta at hdelta
  have hslots : cb₁.slots = s.cb.slots := by rw [← hcb]; rfl
  have hcount : cb₁.count = s.cb.count := by rw [← hcb]; rfl
  have hcells : cb₁.cells = s.cb.cells := by rw [← hcb]; rfl
  have hr₁ : cb₁.read = s.cb.read := by rw [← hcb]
  have hw₁ : cb₁.write = s.cb.write := by rw [← hcb]
  have hroom : cb₁.count + delta.toNat - (cb₁.slots - 1) = 0 := by
    rw [hcount, h.count, hdelta, hslots]; omega
  have hread : (cbWriteInc cb₁ delta).read.toNat ≡ s.out.length [MOD s.cb.slots] := by
    have hr := cbWriteInc_read cb₁ delta
    rw [hroom, hslots, Nat.add_zero, hr₁] at hr
    exact hr.trans h.read
  have hwrite : (cbWriteInc cb₁ delta).write.toNat ≡ s.hwpos [MOD s.cb.slots] := by
    have hw := cb₁.toNat_add_modEq cb₁.write delta
    rw [← cbWriteInc_write, hslots, hdelta, hw₁] at hw
    refine hw.trans ((Nat.ModEq.add_right _ h.write).trans ?_)
    rw [show s.published + (s.hwpos - s.published) = s.hwpos by omega]
  refine ⟨?_, ?_, h₁.trans h₂, Nat.le_refl _, h.out_eq, ?_, ?_, ?_, ?_⟩
  · rw [DmaSt.Fits, cbWriteInc_slots, hslots]
    exact hfits
  · rw [cbWriteInc_slots, hslots]
    exact h.size
  · change (cbWriteInc cb₁ delta).count = s.hwpos - s.out.length
    apply count_unique
    · rw [cbWriteInc_slots, hslots]; omega
    · rw [cbWriteInc_slots, hslots]
      refine (Nat.ModEq.add_right _ hread).trans ?_
      rw [show s.out.length + (s.hwpos - s.out.length) = s.hwpos by omega]
      exact hwrite.symm
  · rw [cbWriteInc_slots, hslots]
    exact hwrite
  · rw [cbWriteInc_slots, hslots, cbWriteInc_dmaCnt, ← hcb]
    change produced.toNat ≡ _ [MOD _]
    rw [hprod]
    exact Nat.mod_modEq _ _
  · rw [cbWriteInc_slots, cbWriteInc_cells, hslots, hcells]
    exact h.memory

/-- A read that outputs a prefix of the queue and keeps memory and producer. -/
theorem consume (h : DmaInv s) {cb : CbT} {out : List UInt8} (hf : ReadFrame s.cb cb)
    (hq : s.cb.queue = out ++ cb.queue) : DmaInv { s with cb, out := s.out ++ out } := by
  have h₁ := h.read_le
  have h₂ := h.published_le
  have hfits : s.hwpos ≤ s.out.length + (s.cb.slots - 1) := h.fits
  have hslots : cb.slots = s.cb.slots := congrArg BitVec.toNat hf.size
  have hlen : s.out.length + (out.length + cb.queue.length) = s.published := by
    rw [← List.length_append, ← hq]
    exact h.queue_length
  have hall := h.no_loss
  rw [hq] at hall
  refine ⟨?_, ?_, ?_, h₂, ?_, ?_, ?_, ?_, ?_⟩
  · change s.hwpos ≤ (s.out ++ out).length + (cb.slots - 1)
    rw [List.length_append, hslots]
    omega
  · rw [hslots]
    exact h.size
  · change (s.out ++ out).length ≤ s.published
    rw [List.length_append]
    omega
  · change s.out ++ out = s.stored.take (s.out ++ out).length
    rw [← hall, ← List.append_assoc s.out, List.append_assoc (s.out ++ out), List.take_left]
  · change cb.count = s.published - (s.out ++ out).length
    rw [← CbT.queue_length, List.length_append]
    omega
  · rw [hslots, hf.write]
    exact h.write
  · rw [hslots, hf.dmaCnt]
    exact h.dmaCnt
  · have hmem := congrArg (List.drop out.length) h.memory
    rw [drop_window, List.drop_drop] at hmem
    rw [hslots, hf.cells, List.length_append]
    change window _ _ _ (s.hwpos - (s.out.length + out.length)) = _
    rwa [show s.hwpos - (s.out.length + out.length) = s.hwpos - s.out.length - out.length by omega]

/-- **Step lemma.**  Every step into a state whose unread bytes fit keeps the
invariant. -/
theorem step {s' : DmaSt} (h : DmaInv s) (hs : DmaStep s s') (hfits : s'.Fits) : DmaInv s' := by
  cases hs with
  | store x => exact h.store x hfits
  | publish ndtr hn => exact h.publish ndtr hn
  | read n cb out r hn hr => exact h.consume (cbRead_frame hr) (cbRead_queue hn hr)
  | readUntil max byte cb out r hm hr =>
    exact h.consume (cbReadUntil_frame hr) (cbReadUntil_queue hm hr)

end DmaInv

/-! ## Runs -/

def dmaInit (cb : CbT) : DmaSt := ⟨cb, [], 0, []⟩

theorem dmaInit_inv {size : SizeT} {data : Vector UInt8 size.toNat} {name : Option String}
    {cb : CbT} (h : cbInit size data name = some cb) (hsize : size.toNat ≤ 2 ^ 30) :
    DmaInv (dmaInit cb) := by
  obtain ⟨hs, hw, -, hd, hq⟩ := cbInit_eq_some h
  have hslots : cb.slots = size.toNat := congrArg BitVec.toNat hs
  refine ⟨Nat.zero_le _, hslots ▸ hsize, Nat.le_refl _, Nat.le_refl _, rfl, ?_, ?_, ?_, rfl⟩
  · exact (CbT.queue_length cb).symm.trans (by rw [hq]; rfl)
  · change cb.write.toNat ≡ 0 [MOD _]
    rw [hw]
    rfl
  · change cb.dmaCnt.toNat ≡ 0 [MOD _]
    rw [hd]
    rfl

/-- **No DMA byte is lost.**  In every interleaving of stores, publishes and
reads from `CbInit` whose unread bytes always fit the buffer, what the reads
returned, what is published and what is pending make up exactly the bytes the
hardware stored, and only published bytes have been read. -/
theorem dma_no_loss (size : SizeT) (data : Vector UInt8 size.toNat) (name : Option String)
    (cb : CbT) (hinit : cbInit size data name = some cb) (hsize : size.toNat ≤ 2 ^ 30) (s : DmaSt)
    (hrun : DmaRun (dmaInit cb) s) :
    s.out ++ s.cb.queue ++ s.pending = s.stored ∧
      s.out ++ s.cb.queue = s.stored.take s.published := by
  have hinv : DmaInv s :=
    Machine.reachable_invariant (fun _ _ h hs => h.step hs.1 hs.2) hrun (dmaInit_inv hinit hsize)
  exact ⟨hinv.no_loss, hinv.published_eq⟩

/-- Seven bytes in four slots: the hardware wraps behind the fourth, which is published with
`ndtr` 0, two more before the next publish, and the last is not published. -/
theorem dma_no_loss_four :
    ∃ s, DmaRun (dmaInit fourSlots) s ∧ s.stored = [1, 2, 3, 4, 5, 6, 7] ∧
      s.out = [1, 2, 3, 4] ∧ s.published = 6 ∧
      s.out ++ s.cb.queue ++ s.pending = s.stored ∧
      s.out ++ s.cb.queue = s.stored.take s.published := by
  have h₁ : DmaRun (dmaInit fourSlots) _ :=
    .single ⟨.store _ 1, (by decide : (1 : ℕ) ≤ 0 + 3)⟩
  have h₂ : DmaRun (dmaInit fourSlots) _ := h₁.tail ⟨.store _ 2, (by decide : (2 : ℕ) ≤ 0 + 3)⟩
  have h₃ : DmaRun (dmaInit fourSlots) _ := h₂.tail ⟨.store _ 3, (by decide : (3 : ℕ) ≤ 0 + 3)⟩
  have h₄ : DmaRun (dmaInit fourSlots) _ :=
    h₃.tail ⟨.publish _ 1 (Or.inl rfl), (by decide : (3 : ℕ) ≤ 0 + 3)⟩
  have h₅ : DmaRun (dmaInit fourSlots) _ :=
    h₄.tail ⟨.read _ 2 _ [1, 2] _ (by decide) rfl, (by decide : (3 : ℕ) ≤ 2 + 3)⟩
  have h₆ : DmaRun (dmaInit fourSlots) _ := h₅.tail ⟨.store _ 4, (by decide : (4 : ℕ) ≤ 2 + 3)⟩
  have h₇ : DmaRun (dmaInit fourSlots) _ :=
    h₆.tail ⟨.publish _ 0 (Or.inr ⟨rfl, rfl⟩), (by decide : (4 : ℕ) ≤ 2 + 3)⟩
  have h₈ : DmaRun (dmaInit fourSlots) _ := h₇.tail ⟨.store _ 5, (by decide : (5 : ℕ) ≤ 2 + 3)⟩
  have h₉ : DmaRun (dmaInit fourSlots) _ :=
    h₈.tail ⟨.readUntil _ 3 4 _ [3, 4] _ (by decide) rfl, (by decide : (5 : ℕ) ≤ 4 + 3)⟩
  have h₁₀ : DmaRun (dmaInit fourSlots) _ := h₉.tail ⟨.store _ 6, (by decide : (6 : ℕ) ≤ 4 + 3)⟩
  have h₁₁ : DmaRun (dmaInit fourSlots) _ :=
    h₁₀.tail ⟨.publish _ 2 (Or.inl rfl), (by decide : (6 : ℕ) ≤ 4 + 3)⟩
  have h₁₂ : DmaRun (dmaInit fourSlots) _ := h₁₁.tail ⟨.store _ 7, (by decide : (7 : ℕ) ≤ 4 + 3)⟩
  exact ⟨_, h₁₂, rfl, rfl, rfl,
    dma_no_loss 4 (Vector.replicate _ 0) none fourSlots rfl (by decide) _ h₁₂⟩

end DataCommons.CBuffer
