import DataCommons.CBuffer.Accounting
import DataCommons.CBuffer.Transfer

/-!
# The program `main.c`

A round of `dma_th` stores and publishes the bytes that have come in; a round of the
consumer (mode B) reads up to 512 bytes and prints how full the buffer is.  The two
take turns in any order.  `main_refines_queue`: what is read and printed is what the
overwriting queue says, also when the consumer is too slow and bytes are lost.
-/

namespace DataCommons.CBuffer

open RingWindow OverwriteQueue CbT

/-- `cb` and the local `ndtr` of `dma_th`. -/
structure MainSt where
  cb : CbT
  ndtr : BitVec 32

inductive MainRound where
  | dma (chunk : List UInt8)
  | consume
  deriving DecidableEq

/-- What a round of the consumer puts into `tmp` and prints: `read`, `used`, `free` and
`full_cnt`. -/
structure MainLine where
  tmp : List UInt8
  read : SizeT
  used : SizeT
  free : SizeT
  fullCnt : SizeT
  deriving DecidableEq

/-- One round; only the consumer prints. -/
def mainStep (s : MainSt) : MainRound → Option (MainSt × Option MainLine)
  | .dma chunk => (dmaThBlock s.cb s.ndtr chunk).map fun (cb, ndtr) => (⟨cb, ndtr⟩, none)
  | .consume => (cbRead s.cb 512).map fun (cb, tmp, got) =>
      (⟨cb, s.ndtr⟩, some ⟨tmp, got, (cb.write - cb.read) &&& cb.mask,
        cb.mask - ((cb.write - cb.read) &&& cb.mask), cb.fullCnt⟩)

/-- The queue and the number of writes that overwrote something. -/
structure CountingQueue where
  queue : List UInt8
  losses : ℕ

/-- The same rounds on a queue that holds up to `cap` bytes. -/
def CountingQueue.step (cap : ℕ) (q : CountingQueue) :
    MainRound → CountingQueue × Option MainLine
  | .dma chunk => (⟨(q.queue ++ chunk).rtake cap,
      if cap < q.queue.length + chunk.length then q.losses + 1 else q.losses⟩, none)
  | .consume =>
    let rest := q.queue.drop 512
    (⟨rest, q.losses⟩, some ⟨q.queue.take 512, BitVec.ofNat 64 (q.queue.take 512).length,
      BitVec.ofNat 64 rest.length, BitVec.ofNat 64 (cap - rest.length), BitVec.ofNat 64 q.losses⟩)

/-! ## Queues of equal rings -/

theorem SameRing.cells {cb cb' : CbT} (h : SameRing cb cb') : cb'.cells = cb.cells := by
  funext i
  have := congrArg (fun a : Array UInt8 => a[i]?.getD 0) h.data
  simpa only [CbT.cells, Vector.getElem?_toArray] using this

theorem SameRing.queue {cb cb' : CbT} (h : SameRing cb cb') : cb'.queue = cb.queue := by
  rw [queue_eq_window, queue_eq_window, h.count, h.cells, h.slots]
  exact window_congr _ _ h.read

/-- Chunks of less than a revolution are written to the queue. -/
theorem cbWriteOf_queue (cb : CbT) (xs : List UInt8) (hlt : xs.length < cb.slots) :
    ∃ cb', cbWriteOf cb xs = some cb' ∧ cb'.queue = (cb.queue ++ xs).rtake (cb.slots - 1) ∧
      cb'.fullCnt =
        if cb.slots - 1 < cb.count + xs.length then cb.fullCnt + 1 else cb.fullCnt := by
  have hc := cb.count_lt
  by_cases hne : xs = []
  · refine ⟨cb, by rw [cbWriteOf, if_pos hne], ?_, ?_⟩
    · rw [hne, List.append_nil, List.rtake, queue_length,
        show cb.count - (cb.slots - 1) = 0 by omega, List.drop_zero]
    · rw [hne, if_neg (by simp; omega)]
  · obtain ⟨cb', r, hw, -, hfull⟩ := cbWrite_wrote cb xs hne hlt
    obtain ⟨cb₁, r₁, hw₁, -, hstep, -⟩ := cbWrite_refines cb xs hne
    cases hw.symm.trans hw₁
    have hacc : Accepts (cb.slots - 1) xs := Or.inr (by omega)
    simp only [step, hacc, ↓reduceIte, Prod.mk.injEq] at hstep
    exact ⟨cb', by rw [cbWriteOf, if_neg hne, hw]; rfl, hstep.1.symm, hfull⟩

/-! ## The simulation -/

/-- The buffer holds the queue, and the driver stands at `write`. -/
structure MainRel (cap : ℕ) (s : MainSt) (q : CountingQueue) : Prop where
  slots : s.cb.slots = cap + 1
  queue : s.cb.queue = q.queue
  fullCnt : s.cb.fullCnt = BitVec.ofNat 64 q.losses
  aligned : Aligned s.cb
  ndtr : NdtrMatches s.cb s.cb.dmaCnt.toNat s.ndtr

/-- The chunk is shorter than the buffer. -/
def MainRound.Ok (cap : ℕ) : MainRound → Prop
  | .dma chunk => chunk.length ≤ cap
  | .consume => True

theorem MainRel.dma {cap : ℕ} {s : MainSt} {q : CountingQueue} (h : MainRel cap s q)
    (hcap : cap < 2 ^ 30) {chunk : List UInt8} (hok : chunk.length ≤ cap) :
    ∃ s₁, mainStep s (.dma chunk) = some (s₁, none) ∧ MainRel cap s₁ (q.step cap (.dma chunk)).1 := by
  have hslots := h.slots
  obtain ⟨cb', cb₁, ndtr', hw, hb, hs, hslots', hal, hn⟩ :=
    dmaThBlock_step (.rfl s.cb) (by omega) h.aligned
      (show chunk.length < s.cb.slots by omega) h.ndtr
  obtain ⟨cb₂, hw₂, hq, hfull⟩ := cbWriteOf_queue s.cb chunk (by omega)
  cases hw.symm.trans hw₂
  have hcount : s.cb.count = q.queue.length := by rw [← h.queue, queue_length]
  refine ⟨⟨cb₁, ndtr'⟩, by rw [mainStep, hb]; rfl, hslots'.trans hslots, ?_, ?_, hal, hn⟩
  · change cb₁.queue = (q.queue ++ chunk).rtake cap
    rw [hs.queue, hq, h.queue, hslots, Nat.add_sub_cancel]
  · change cb₁.fullCnt = BitVec.ofNat 64 (if _ then _ else _)
    rw [hs.fullCnt, hfull, hslots, hcount, Nat.add_sub_cancel, h.fullCnt]
    split
    · rw [BitVec.ofNat_add]
      rfl
    · rfl

theorem MainRel.consume {cap : ℕ} {s : MainSt} {q : CountingQueue} (h : MainRel cap s q) :
    ∃ s₁, mainStep s .consume = some (s₁, (q.step cap .consume).2) ∧
      MainRel cap s₁ (q.step cap .consume).1 := by
  obtain ⟨cb', out, r, hr, hsize, hstep⟩ := cbRead_refines s.cb 512 (by decide)
  have hframe := cbRead_frame hr
  simp only [step, Prod.mk.injEq, QueueOut.mk.injEq] at hstep
  obtain ⟨hq, hret, hout⟩ := hstep
  have hslots : cb'.slots = cap + 1 := (congrArg BitVec.toNat hsize).trans h.slots
  have h512 : (512 : SizeT).toNat = 512 := rfl
  rw [h.queue, h512] at hq hret hout
  have hdrop : cb'.queue = q.queue.drop 512 := by
    rw [← hq]
    rcases Nat.le_total 512 q.queue.length with hle | hle
    · rw [Nat.min_eq_left hle]
    · rw [Nat.min_eq_right hle, List.drop_length, List.drop_eq_nil_of_le hle]
  have htake : out = q.queue.take 512 := by
    rw [← hout, ← List.take_take, List.take_length]
  have hcount : cb'.count = (q.queue.drop 512).length := by rw [← hdrop, queue_length]
  have hlt := cb'.count_lt
  refine ⟨⟨cb', s.ndtr⟩, ?_, hslots, hdrop, (cbRead_fullCnt hr).trans h.fullCnt, ?_, ?_⟩
  · rw [mainStep, hr]
    have hused : (cb'.write - cb'.read) &&& cb'.mask = BitVec.ofNat 64 (q.queue.drop 512).length := by
      apply BitVec.eq_of_toNat_eq
      rw [cb'.ofNat_toNat (by omega), ← hcount]
      rfl
    have hfree : cb'.mask - ((cb'.write - cb'.read) &&& cb'.mask) =
        BitVec.ofNat 64 (cap - (q.queue.drop 512).length) := by
      apply BitVec.eq_of_toNat_eq
      rw [cb'.ofNat_toNat (by omega), ← hcount]
      exact (cbEmptyCount_toNat cb').trans (by omega)
    have hgot : r = BitVec.ofNat 64 (q.queue.take 512).length := by
      apply BitVec.eq_of_toNat_eq
      have hlen : q.queue.length = s.cb.count := by rw [← h.queue, queue_length]
      have hold := s.cb.count_lt
      have hcap := h.slots
      rw [cb'.ofNat_toNat (by rw [List.length_take]; omega), List.length_take, ← hret]
    rw [hused] at hfree
    simp only [Option.map_some, hused, hfree, hgot, htake, cbRead_fullCnt hr, h.fullCnt]
    rfl
  · rw [Aligned, hframe.write, hframe.dmaCnt, hslots, ← h.slots]
    exact h.aligned
  · have hn := h.ndtr
    rw [NdtrMatches, h.slots] at hn
    rwa [NdtrMatches, hslots, hframe.dmaCnt]

/-- **`main.c` is an overwriting queue.**  After `CbInit`, with `ndtr` full, every
order of rounds in which the chunks are shorter than the buffer reads and prints what
the queue does: `read` bytes in order, `used` of them left, `free` slots, and in
`full_cnt` how many chunks pushed out bytes that were not read. -/
theorem main_refines_queue {size : SizeT} {data : Vector UInt8 size.toNat} {name : Option String}
    {cb : CbT} (hinit : cbInit size data name = some cb) (hsize : size.toNat ≤ 2 ^ 30)
    {rounds : List MainRound} (hok : ∀ r ∈ rounds, r.Ok (size.toNat - 1)) :
    ∃ s q lines, Machine.exec mainStep ⟨cb, size.truncate 32⟩ rounds = some (s, lines) ∧
      Machine.exec (fun q r => some (CountingQueue.step (size.toNat - 1) q r)) ⟨[], 0⟩ rounds =
        some (q, lines) ∧
      s.cb.queue = q.queue ∧ s.cb.fullCnt = BitVec.ofNat 64 q.losses := by
  obtain ⟨hs, hw, -, hd, hq⟩ := cbInit_eq_some hinit
  have hslots : cb.slots = size.toNat := congrArg BitVec.toNat hs
  have hpos := cb.slots_pos
  have hfull := (CbLog.start_inv hinit).fullCnt
  have hrel : MainRel (size.toNat - 1) ⟨cb, size.truncate 32⟩ ⟨[], 0⟩ := by
    refine ⟨by rw [hslots]; omega, hq, hfull, ?_, ?_⟩
    · rw [Aligned, hw, hd]
    · rw [hd]
      refine Or.inl ?_
      have hbuf := bufferSz_toNat cb (hslots ▸ hsize)
      rw [hs] at hbuf
      change (size.truncate 32).toNat = cb.slots - 0 % cb.slots
      rw [hbuf, Nat.zero_mod, Nat.sub_zero]
  have hstep : ∀ s q r, MainRel (size.toNat - 1) s q → r.Ok (size.toNat - 1) →
      ∃ s₁, mainStep s r = some (s₁, (q.step (size.toNat - 1) r).2) ∧
        MainRel (size.toNat - 1) s₁ (q.step (size.toNat - 1) r).1 := by
    intro s q r h hr
    cases r with
    | dma chunk => exact h.dma (by omega) hr
    | consume => exact h.consume
  obtain ⟨s, q, lines, hrun, habs, hend⟩ := Machine.exec_simulates (f := id) hstep hrel hok
  rw [List.map_id] at habs
  exact ⟨s, q, lines, hrun, habs, hend.queue, hend.fullCnt⟩

/-- Two chunks on four slots, of which the first is partly lost. -/
theorem main_refines_queue_four : ∃ s q lines,
    Machine.exec mainStep ⟨fourSlots, 4⟩ [.dma [1, 2], .dma [3, 4], .consume] = some (s, lines) ∧
      Machine.exec (fun q r => some (CountingQueue.step 3 q r)) ⟨[], 0⟩
        [.dma [1, 2], .dma [3, 4], .consume] = some (q, lines) ∧
      s.cb.queue = q.queue ∧ s.cb.fullCnt = BitVec.ofNat 64 q.losses :=
  have hinit : cbInit 4 (Vector.replicate _ 0) none = some fourSlots := rfl
  main_refines_queue hinit (by decide) (by simp [MainRound.Ok])

end DataCommons.CBuffer
