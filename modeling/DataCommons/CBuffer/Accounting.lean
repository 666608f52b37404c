import DataCommons.CBuffer.Chunks
import DataCommons.CBuffer.Frames

/-!
# Loss is counted

A `CbLog` is a buffer with the record of its calls: the bytes that `CbWrite`
accepted, those that were read or skipped, those that were overwritten, and how
many writes overwrote something.

* `cbWrite_accepted`: an accepted write, what it drops and what it counts;
* `CbLog.Inv`, `logStep_inv`: the balance, kept by every call;
* `cb_loss_counted`: the balance after every run from `CbInit`.
-/

namespace DataCommons.CBuffer

open RingWindow OverwriteQueue CbT

/-- The bytes that a write of `item` dropped: what the old queue and `item` have in
front of the new queue. -/
def overwritten (cb cb' : CbT) (item : List UInt8) : List UInt8 :=
  (cb.queue ++ item).take (cb.count + item.length - cb'.count)

/-- The bytes that a read or a resynchronisation took off the queue. -/
def passed (cb cb' : CbT) : List UInt8 := cb.queue.take (cb.count - cb'.count)

/-- A buffer and the record of its calls. -/
structure CbLog where
  cb : CbT
  /-- The bytes accepted by `CbWrite`. -/
  accepted : List UInt8
  /-- The bytes put out by `CbRead` and `CbReadUntil`. -/
  output : List UInt8
  /-- The bytes skipped by `CbDmaSynStart`. -/
  skipped : List UInt8
  /-- Both, in the order in which they left the queue. -/
  taken : List UInt8
  /-- The bytes dropped by overwriting. -/
  dropped : List UInt8
  /-- The calls of `CbWrite`. -/
  writes : ℕ
  /-- Those of them that dropped at least one byte. -/
  losses : ℕ

/-- The calls of producer and consumer, and `CbDmaSynStart`. -/
inductive LogCall where
  | call (c : CbCall)
  | dmaSynStart (startB : UInt8)
  deriving DecidableEq

def LogCall.Ok : LogCall → Prop
  | .call c => c.Ok
  | .dmaSynStart _ => True

def CbLog.recordWrite (l : CbLog) (item : List UInt8) (cb : CbT) (r : SizeT) : CbLog :=
  let item := item.take r.toNat
  let lost := overwritten l.cb cb item
  { l with cb, accepted := l.accepted ++ item, dropped := l.dropped ++ lost,
           writes := l.writes + 1, losses := if lost = [] then l.losses else l.losses + 1 }

def CbLog.recordRead (l : CbLog) (cb : CbT) (out : List UInt8) : CbLog :=
  { l with cb, output := l.output ++ out, taken := l.taken ++ out }

def CbLog.recordSkip (l : CbLog) (cb : CbT) : CbLog :=
  { l with cb, skipped := l.skipped ++ passed l.cb cb, taken := l.taken ++ passed l.cb cb }

def logStep (l : CbLog) : LogCall → Option (CbLog × SizeT)
  | .call (.write item) => (cbWrite l.cb item).map fun (cb, r) => (l.recordWrite item cb r, r)
  | .call (.read n) => (cbRead l.cb n).map fun (cb, out, r) => (l.recordRead cb out, r)
  | .call (.readUntil max byte) =>
    (cbReadUntil l.cb max byte).map fun (cb, out, r) => (l.recordRead cb out, r)
  | .dmaSynStart startB => (cbDmaSynStart l.cb startB).map fun cb => (l.recordSkip cb, 0)

def startLog (cb : CbT) : CbLog := ⟨cb, [], [], [], [], [], 0, 0⟩

/-! ## One write -/

/-- **An accepted write** drops what does not fit, and counts that. -/
theorem cbWrite_accepted (cb : CbT) (item : List UInt8) (hne : item ≠ [])
    (hacc : Accepts (cb.slots - 1) item) :
    ∃ cb' r, cbWrite cb item = some (cb', r) ∧ r.toNat = item.length ∧ cb'.size = cb.size ∧
      cb'.count = min (cb.count + item.length) (cb.slots - 1) ∧
      overwritten cb cb' item ++ cb'.queue = cb.queue ++ item ∧
      cb'.fullCnt =
        if cb.slots - 1 < cb.count + item.length then cb.fullCnt + 1 else cb.fullCnt := by
  have hlt := cb.count_lt
  obtain ⟨cb', r, hw, hsize, hstep, -⟩ := cbWrite_refines cb item hne
  simp only [step, hacc, ↓reduceIte, Prod.mk.injEq, QueueOut.mk.injEq, and_true] at hstep
  obtain ⟨hq, hr⟩ := hstep
  have hcount : cb'.count = min (cb.count + item.length) (cb.slots - 1) := by
    rw [← queue_length, ← hq, List.rtake, List.length_drop, List.length_append, queue_length]
    omega
  refine ⟨cb', r, hw, hr.symm, hsize, hcount, ?_, ?_⟩
  · rw [overwritten, ← hq, List.rtake, List.length_append, queue_length, hcount,
      show cb.count + item.length - min (cb.count + item.length) (cb.slots - 1) =
        cb.count + item.length - (cb.slots - 1) by omega, List.take_append_drop]
  · by_cases hl : item.length < cb.slots
    · obtain ⟨cb₁, r₁, hw₁, -, hfull⟩ := cbWrite_wrote cb item hne hl
      cases hw.symm.trans hw₁
      exact hfull
    · -- one byte on a single slot
      obtain ⟨x, rfl⟩ : ∃ x, item = [x] :=
        List.length_eq_one_iff.mp (hacc.resolve_right (by have := cb.slots_pos; omega))
      have hfull := (write_succ_full cb).mpr (by simp at hl; omega)
      rw [cbWrite_one, if_pos hfull] at hw
      cases hw
      rw [if_pos (by simp at hl ⊢; omega)]

theorem overwritten_length {cb cb' : CbT} {item : List UInt8}
    (h : overwritten cb cb' item ++ cb'.queue = cb.queue ++ item)
    (hc : cb'.count = min (cb.count + item.length) (cb.slots - 1)) :
    (overwritten cb cb' item).length = cb.count + item.length - (cb.slots - 1) := by
  have hlen := congrArg List.length h
  rw [List.length_append, List.length_append, queue_length, queue_length] at hlen
  omega

/-! ## The balance -/

namespace CbLog

/-- The balance of a record. -/
structure Inv (l : CbLog) : Prop where
  balance : l.accepted.length =
    l.output.length + l.skipped.length + l.cb.queue.length + l.dropped.length
  taken : l.taken.length = l.output.length + l.skipped.length
  fullCnt : l.cb.fullCnt = BitVec.ofNat 64 l.losses
  losses_le : l.losses ≤ l.writes
  losses_zero : l.losses = 0 ↔ l.dropped = []
  in_order : l.losses = 0 → l.accepted = l.taken ++ l.cb.queue

theorem start_inv {size : SizeT} {data : Vector UInt8 size.toNat} {name : Option String}
    {cb : CbT} (h : cbInit size data name = some cb) : (startLog cb).Inv := by
  obtain ⟨-, -, -, -, hq⟩ := cbInit_eq_some h
  have hf : cb.fullCnt = 0 := by
    unfold cbInit at h
    split at h
    · cases h
      rfl
    · cases h
  exact ⟨by simp [startLog, hq], rfl, hf, Nat.le_refl _, by simp [startLog],
    fun _ => by simp [startLog, hq]⟩

variable {l : CbLog}

theorem Inv.refuse (h : l.Inv) (item : List UInt8) : (l.recordWrite item l.cb 0).Inv := by
  have hrec : l.recordWrite item l.cb 0 = { l with writes := l.writes + 1 } := by
    simp [recordWrite, overwritten]
  rw [hrec]
  exact ⟨h.balance, h.taken, h.fullCnt, Nat.le_succ_of_le h.losses_le, h.losses_zero, h.in_order⟩

theorem Inv.write (h : l.Inv) {item : List UInt8} (hne : item ≠ [])
    (hacc : Accepts (l.cb.slots - 1) item) :
    ∃ cb' r, cbWrite l.cb item = some (cb', r) ∧ cb'.size = l.cb.size ∧
      (l.recordWrite item cb' r).Inv := by
  obtain ⟨cb', r, hw, hr, hsize, hcount, hsplit, hfull⟩ := cbWrite_accepted l.cb item hne hacc
  refine ⟨cb', r, hw, hsize, ?_⟩
  have hlen := overwritten_length hsplit hcount
  have hlost : overwritten l.cb cb' item = [] ↔
      ¬ l.cb.slots - 1 < l.cb.count + item.length := by
    rw [← List.length_eq_zero_iff, hlen]
    omega
  have hbal := h.balance
  rw [queue_length] at hbal
  have hz := h.losses_zero
  by_cases hl : l.cb.slots - 1 < l.cb.count + item.length
  · have hne' : overwritten l.cb cb' item ≠ [] := fun h0 => hlost.mp h0 hl
    have hrec : l.recordWrite item cb' r =
        { l with cb := cb', accepted := l.accepted ++ item,
                 dropped := l.dropped ++ overwritten l.cb cb' item,
                 writes := l.writes + 1, losses := l.losses + 1 } := by
      simp only [recordWrite, hr, List.take_length, hne', ↓reduceIte]
    rw [hrec]
    refine ⟨?_, h.taken, ?_, Nat.succ_le_succ h.losses_le, ?_, fun h0 => by cases h0⟩
    · simp only [List.length_append, queue_length, hlen, hcount]
      omega
    · rw [hfull, if_pos hl, h.fullCnt, BitVec.ofNat_add]
      rfl
    · simp [hne']
  · have hnil := hlost.mpr hl
    have hrec : l.recordWrite item cb' r =
        { l with cb := cb', accepted := l.accepted ++ item, writes := l.writes + 1 } := by
      simp only [recordWrite, hr, List.take_length, hnil, ↓reduceIte, List.append_nil]
    rw [hrec]
    rw [hnil, List.nil_append] at hsplit
    refine ⟨?_, h.taken, ?_, Nat.le_succ_of_le h.losses_le, hz, fun h0 => ?_⟩
    · simp only [List.length_append, queue_length, hcount]
      omega
    · rw [hfull, if_neg hl, h.fullCnt]
    · simp only [hsplit, h.in_order h0, List.append_assoc]

/-- Bytes that leave the queue at its head, read or skipped. -/
theorem Inv.take (h : l.Inv) {cb : CbT} {out : List UInt8} (hq : l.cb.queue = out ++ cb.queue)
    (hfull : cb.fullCnt = l.cb.fullCnt) :
    (l.recordRead cb out).Inv ∧ (passed l.cb cb = out → (l.recordSkip cb).Inv) := by
  have hbal := h.balance
  have htak := h.taken
  rw [hq, List.length_append] at hbal
  have horder : l.losses = 0 → l.accepted = (l.taken ++ out) ++ cb.queue := fun h0 => by
    rw [h.in_order h0, hq, List.append_assoc]
  constructor
  · refine ⟨?_, ?_, hfull.trans h.fullCnt, h.losses_le, h.losses_zero, horder⟩
    · simp only [recordRead, List.length_append]
      omega
    · simp only [recordRead, List.length_append]
      omega
  · intro hp
    refine ⟨?_, ?_, hfull.trans h.fullCnt, h.losses_le, h.losses_zero, fun h0 => ?_⟩
    · simp only [recordSkip, hp, List.length_append]
      omega
    · simp only [recordSkip, hp, List.length_append]
      omega
    · simp only [recordSkip, hp]
      exact horder h0

end CbLog

theorem passed_eq {cb cb' : CbT} {out : List UInt8} (h : cb.queue = out ++ cb'.queue) :
    passed cb cb' = out := by
  have hlen := congrArg List.length h
  rw [List.length_append, queue_length, queue_length] at hlen
  rw [passed, h, show cb.count - cb'.count = out.length by omega, List.take_left]

theorem cbRead_fullCnt {cb cb' : CbT} {n r : SizeT} {out : List UInt8}
    (h : cbRead cb n = some (cb', out, r)) : cb'.fullCnt = cb.fullCnt := by
  unfold cbRead at h
  split at h
  · cases h
  · split at h
    · cases h
      rfl
    · split at h <;>
        · cases h
          rfl

theorem cbReadUntil_fullCnt {cb cb' : CbT} {max r : SizeT} {byte : UInt8} {out : List UInt8}
    (h : cbReadUntil cb max byte = some (cb', out, r)) : cb'.fullCnt = cb.fullCnt := by
  unfold cbReadUntil at h
  split at h
  · cases h
  · split at h <;>
      · cases h
        rfl

/-- **Step lemma.** -/
theorem logStep_inv (l : CbLog) (c : LogCall) (h : l.Inv) (hc : c.Ok) :
    ∃ l' r, logStep l c = some (l', r) ∧ l'.Inv ∧ l'.cb.size = l.cb.size := by
  cases c with
  | dmaSynStart startB =>
    obtain ⟨cb', hsyn, honly, hq⟩ := cbDmaSynStart_spec l.cb startB
    have hsplit : l.cb.queue = l.cb.queue.takeWhile (· != startB) ++ cb'.queue := by
      rw [hq, List.takeWhile_append_dropWhile]
    have hfull : cb'.fullCnt = l.cb.fullCnt := by rw [honly]
    have hsize : cb'.size = l.cb.size := by rw [honly]
    exact ⟨l.recordSkip cb', 0, by simp [logStep, hsyn],
      (h.take hsplit hfull).2 (passed_eq hsplit), hsize⟩
  | call c =>
    cases c with
    | write item =>
      by_cases hacc : Accepts (l.cb.slots - 1) item
      · obtain ⟨cb', r, hw, hsize, hinv⟩ := h.write hc hacc
        exact ⟨_, r, by simp [logStep, hw], hinv, hsize⟩
      · obtain ⟨cb', r, hw, -, -, hrefused⟩ := cbWrite_refines l.cb item hc
        obtain ⟨rfl, rfl⟩ := hrefused hacc
        exact ⟨_, 0, by simp [logStep, hw], h.refuse item, rfl⟩
    | read n =>
      obtain ⟨cb', out, r, hread, hsize, -⟩ := cbRead_refines l.cb n hc
      have hq := cbRead_queue hc hread
      exact ⟨_, r, by simp [logStep, hread],
        (h.take hq (cbRead_fullCnt hread)).1, hsize⟩
    | readUntil max byte =>
      obtain ⟨cb', out, r, hread, hsize, -⟩ := cbReadUntil_refines l.cb max byte hc
      have hq := cbReadUntil_queue hc hread
      exact ⟨_, r, by simp [logStep, hread],
        (h.take hq (cbReadUntil_fullCnt hread)).1, hsize⟩

theorem logRun_inv {l : CbLog} (h : l.Inv) (calls : List LogCall) (hcalls : ∀ c ∈ calls, c.Ok) :
    ∃ l' rets, Machine.exec logStep l calls = some (l', rets) ∧ l'.Inv ∧
      l'.cb.size = l.cb.size := by
  have hstep : ∀ l₁ c, (l₁.Inv ∧ l₁.cb.size = l.cb.size) → c.Ok →
      ∃ l₂ r, logStep l₁ c = some (l₂, r) ∧ l₂.Inv ∧ l₂.cb.size = l.cb.size := by
    intro l₁ c hl₁ hc
    obtain ⟨l₂, r, hs, hinv, hsize⟩ := logStep_inv l₁ c hl₁.1 hc
    exact ⟨l₂, r, hs, hinv, hsize.trans hl₁.2⟩
  exact Machine.exec_enabled hstep ⟨h, rfl⟩ hcalls

/-- **Loss is never silent and is counted exactly.**  After every run of calls
from `CbInit` the bytes accepted are those read, skipped, still queued and
dropped; an accepted write drops what does not fit, from the front; `full_cnt`
is the number of writes that dropped something; and as long as it cannot have
come round it is zero exactly when everything accepted was read, skipped or is
still queued, in order. -/
theorem cb_loss_counted (size : SizeT) (data : Vector UInt8 size.toNat) (name : Option String)
    (cb₀ : CbT) (hinit : cbInit size data name = some cb₀) (calls : List LogCall)
    (hcalls : ∀ c ∈ calls, c.Ok) :
    ∃ l rets, Machine.exec logStep (startLog cb₀) calls = some (l, rets) ∧
      l.accepted.length =
        l.output.length + l.skipped.length + l.cb.queue.length + l.dropped.length ∧
      (∀ item cb' r, cbWrite l.cb item = some (cb', r) → r ≠ 0 →
        overwritten l.cb cb' item ++ cb'.queue = l.cb.queue ++ item ∧
        (overwritten l.cb cb' item).length =
          l.cb.queue.length + item.length - (size.toNat - 1)) ∧
      l.cb.fullCnt.toNat = l.losses % 2 ^ 64 ∧
      (l.writes < 2 ^ 64 → (l.cb.fullCnt = 0 ↔ l.accepted = l.taken ++ l.cb.queue)) := by
  obtain ⟨l, rets, hrun, hinv, hsize⟩ := logRun_inv (CbLog.start_inv hinit) calls hcalls
  replace hsize : l.cb.size = size := hsize.trans (cbInit_eq_some hinit).1
  refine ⟨l, rets, hrun, hinv.balance, fun item cb' r hw hr => ?_, ?_, fun hwr => ?_⟩
  · have hne : item ≠ [] := fun h0 => by
      rw [h0] at hw
      cases hw
    have hacc : Accepts (l.cb.slots - 1) item := by
      by_contra hacc
      obtain ⟨cb₁, r₁, hw₁, -, -, hrefused⟩ := cbWrite_refines l.cb item hne
      cases hw.symm.trans hw₁
      exact hr (hrefused hacc).2
    obtain ⟨cb₁, r₁, hw₁, -, -, hcount, hsplit, -⟩ := cbWrite_accepted l.cb item hne hacc
    cases hw.symm.trans hw₁
    have hlen := overwritten_length hsplit hcount
    rw [slots, hsize] at hlen
    exact ⟨hsplit, by rw [hlen, queue_length]⟩
  · rw [hinv.fullCnt, BitVec.toNat_ofNat]
  · have hlt := Nat.lt_of_le_of_lt hinv.losses_le hwr
    have hzero : l.cb.fullCnt = 0 ↔ l.losses = 0 := by
      rw [hinv.fullCnt, ← BitVec.toNat_inj, BitVec.toNat_ofNat, Nat.mod_eq_of_lt hlt]
      rfl
    refine hzero.trans ⟨hinv.in_order, fun hall => hinv.losses_zero.mpr ?_⟩
    have hbal := hinv.balance
    rw [hall, List.length_append, hinv.taken] at hbal
    exact List.length_eq_zero_iff.mp (by omega)

/-- Four bytes written on four slots, of which one is lost, one skipped and one
read. -/
theorem cb_loss_counted_four :
    ∃ l rets, Machine.exec logStep (startLog fourSlots)
        [.call (.write [1, 2, 3]), .call (.write [4]), .dmaSynStart 3, .call (.read 1)] =
          some (l, rets) ∧
      l.accepted.length =
        l.output.length + l.skipped.length + l.cb.queue.length + l.dropped.length ∧
      (∀ item cb' r, cbWrite l.cb item = some (cb', r) → r ≠ 0 →
        overwritten l.cb cb' item ++ cb'.queue = l.cb.queue ++ item ∧
        (overwritten l.cb cb' item).length =
          l.cb.queue.length + item.length - ((4 : SizeT).toNat - 1)) ∧
      l.cb.fullCnt.toNat = l.losses % 2 ^ 64 ∧
      (l.writes < 2 ^ 64 → (l.cb.fullCnt = 0 ↔ l.accepted = l.taken ++ l.cb.queue)) :=
  cb_loss_counted 4 (Vector.replicate _ 0) none fourSlots rfl _
    (by simp [LogCall.Ok, CbCall.Ok])

end DataCommons.CBuffer
