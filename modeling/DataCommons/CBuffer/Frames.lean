import DataCommons.CBuffer.Dma

/-!
# Resynchronising and reading frames

`CbDmaSynStart` drops queued bytes until a start byte heads the queue.  A reader
that calls it before every `CbReadUntil` gets the frames of the queue.

* `queue_cons`: the head of the queue and what `CbReadInc(1)` leaves;
* `cbDmaSynLoop_spec`, `cbDmaSynStart_spec`: the loop ends, and what it drops;
* `cb_frames`: `CbDmaSynStart` alone, and reading to the end of the buffer.
-/

namespace DataCommons.CBuffer

open RingWindow OverwriteQueue CbT

/-- `CbDmaSynStart(s)` followed by `CbReadUntil(max, e)`, until the latter returns
`0`: the buffer at the end and the frames read. -/
def cbFrames (s e : UInt8) (max : SizeT) : ℕ → CbT → Option (CbT × List (List UInt8))
  | 0, _ => none
  | fuel + 1, cb =>
    (cbDmaSynStart cb s).bind fun cb =>
      (cbReadUntil cb max e).bind fun (cb, out, r) =>
        if r = 0 then some (cb, [])
        else (cbFrames s e max fuel cb).map fun (cb, fs) => (cb, out :: fs)

/-- Nothing but the read index has moved. -/
def OnlyRead (cb cb' : CbT) : Prop := cb' = { cb with read := cb'.read, readLast := cb'.readLast }

theorem OnlyRead.trans {cb cb₁ cb₂ : CbT} (h : OnlyRead cb cb₁) (h' : OnlyRead cb₁ cb₂) :
    OnlyRead cb cb₂ := by
  unfold OnlyRead at h h' ⊢
  rw [h'.trans (congrArg (fun c : CbT => { c with read := cb₂.read, readLast := cb₂.readLast }) h)]

/-! ## One byte -/

/-- A queue that is not empty begins with the byte at `read`. -/
theorem queue_cons {cb : CbT} (h : cbIsEmpty cb = false) :
    cb.queue = cb.byteAt cb.read :: (cbReadInc cb 1).queue := by
  have hc : cb.count ≠ 0 := fun h0 => by
    rw [(cbIsEmpty_iff cb).mpr h0] at h
    cases h
  obtain ⟨c, hc'⟩ := Nat.exists_eq_succ_of_ne_zero hc
  have hone : (1 : SizeT).toNat = 1 := by rfl
  rw [cbReadInc_queue cb 1 (by rw [hone]; omega), hone, queue_eq_window, hc', window_succ,
    byteAt_eq]
  rfl

theorem queue_eq_nil {cb : CbT} : cb.queue = [] ↔ cbIsEmpty cb = true := by
  rw [cbIsEmpty_iff, ← queue_length, List.length_eq_zero_iff]

/-! ## Resynchronising -/

/-- **The loop of `CbDmaSynStart`** needs a round for every byte it drops, and one
more. -/
theorem cbDmaSynLoop_spec (startB : UInt8) (cb : CbT) :
    ∃ cb', (∀ fuel, cb.count < fuel → cbDmaSynLoop startB fuel cb = some cb') ∧
      OnlyRead cb cb' ∧ cb'.queue = cb.queue.dropWhile (· != startB) := by
  induction hq : cb.queue generalizing cb with
  | nil =>
    have he := queue_eq_nil.mp hq
    refine ⟨cb, fun fuel hfuel => ?_, rfl, hq⟩
    obtain ⟨f, rfl⟩ : ∃ f, fuel = f + 1 := ⟨fuel - 1, by omega⟩
    simp [cbDmaSynLoop, he]
  | cons x xs ih =>
    have he : cbIsEmpty cb = false := by
      rw [← Bool.not_eq_true, ← queue_eq_nil, hq]
      exact List.cons_ne_nil _ _
    have hcons := queue_cons he
    rw [hq] at hcons
    obtain ⟨rfl, hxs⟩ := List.cons.inj hcons
    by_cases hx : cb.byteAt cb.read = startB
    · refine ⟨cb, fun fuel hfuel => ?_, rfl, by simp [hq, hx]⟩
      obtain ⟨f, rfl⟩ : ∃ f, fuel = f + 1 := ⟨fuel - 1, by omega⟩
      simp [cbDmaSynLoop, hx]
    · obtain ⟨cb', hloop, hread, hq'⟩ := ih (cbReadInc cb 1) hxs.symm
      have hstep : OnlyRead cb (cbReadInc cb 1) := rfl
      refine ⟨cb', fun fuel hfuel => ?_, hstep.trans hread, by simp [hq', hx]⟩
      obtain ⟨f, rfl⟩ : ∃ f, fuel = f + 1 := ⟨fuel - 1, by omega⟩
      have hlen : (cbReadInc cb 1).count < f := by
        have h₁ := congrArg List.length hxs
        have h₂ := congrArg List.length hq
        rw [queue_length] at h₁ h₂
        rw [List.length_cons] at h₂
        omega
      simpa [cbDmaSynLoop, he, hx] using hloop f hlen

theorem cbDmaSynStart_spec (cb : CbT) (startB : UInt8) :
    ∃ cb', cbDmaSynStart cb startB = some cb' ∧ OnlyRead cb cb' ∧
      cb'.queue = cb.queue.dropWhile (· != startB) := by
  obtain ⟨cb', hloop, hread, hq⟩ := cbDmaSynLoop_spec startB cb
  exact ⟨cb', hloop cb.slots cb.count_lt, hread, hq⟩

/-! ## Reading frames -/

/-- One round: skip to a start byte and take a frame. -/
theorem frame_round (s e : UInt8) {max : SizeT} (hmax : max ≠ 0) (cb : CbT) :
    ∃ cb₁ cb₂ out r, cbDmaSynStart cb s = some cb₁ ∧ cbReadUntil cb₁ max e = some (cb₂, out, r) ∧
      out = takeUntil max.toNat e (cb.queue.dropWhile (· != s)) ∧ r.toNat = out.length ∧
      cb₂.queue = (cb.queue.dropWhile (· != s)).drop out.length := by
  obtain ⟨cb₁, hsyn, -, hq₁⟩ := cbDmaSynStart_spec cb s
  obtain ⟨cb₂, out, r, hread, -, hstep⟩ := cbReadUntil_refines cb₁ max e hmax
  simp only [step, Prod.mk.injEq, QueueOut.mk.injEq, hq₁] at hstep
  obtain ⟨hq₂, hr, hout⟩ := hstep
  exact ⟨cb₁, cb₂, out, r, hsyn, hread, hout.symm, by rw [← hr, hout], by rw [← hq₂, hout]⟩

theorem cbFrames_spec (s e : UInt8) {max : SizeT} (hmax : max ≠ 0) (cb : CbT) :
    ∃ cb', (∀ fuel, cb.count < fuel →
        cbFrames s e max fuel cb = some (cb', frames s e max.toNat cb.queue)) ∧
      cbIsEmpty cb' = true := by
  have hpos : 0 < max.toNat := Nat.pos_of_ne_zero fun h => hmax (BitVec.eq_of_toNat_eq h)
  induction hn : cb.count using Nat.strong_induction_on generalizing cb with
  | _ n ih =>
    obtain ⟨cb₁, cb₂, out, r, hsyn, hread, hout, hr, hq₂⟩ := frame_round s e hmax cb
    rw [frames, ← hout]
    have hround : ∀ f, cbFrames s e max (f + 1) cb =
        if r = 0 then some (cb₂, [])
        else (cbFrames s e max f cb₂).map fun (cb, fs) => (cb, out :: fs) := fun f => by
      simp [cbFrames, hsyn, hread]
    by_cases h0 : out = []
    · have hr0 : r = 0 := BitVec.eq_of_toNat_eq (by rw [hr, h0]; rfl)
      refine ⟨cb₂, fun fuel hfuel => ?_, ?_⟩
      · obtain ⟨f, rfl⟩ : ∃ f, fuel = f + 1 := ⟨fuel - 1, by omega⟩
        rw [hround, if_pos hr0, dif_pos h0]
      · rw [← queue_eq_nil, hq₂, (takeUntil_eq_nil hpos e _).mp (hout.symm.trans h0), List.drop_nil]
    · have hr0 : r ≠ 0 := fun h => h0 (List.length_eq_zero_iff.mp (by rw [← hr, h]; rfl))
      -- the frame is taken out of the queue
      have hlt : cb₂.count < n := by
        have := frame_shrinks s e max.toNat cb.queue (hout ▸ h0)
        rwa [← hout, ← hq₂, queue_length, queue_length, hn] at this
      obtain ⟨cb', hloop, hempty⟩ := ih _ hlt cb₂ rfl
      refine ⟨cb', fun fuel hfuel => ?_, hempty⟩
      obtain ⟨f, rfl⟩ : ∃ f, fuel = f + 1 := ⟨fuel - 1, by omega⟩
      rw [hround, if_neg hr0, dif_neg h0, hloop f (by omega), ← hq₂]
      rfl

/-- **Resynchronising and reading frames.**  From any buffer `CbDmaSynStart`
ends, moves nothing but the read index, and drops the queued bytes in front of
the first `s`; repeating it with `CbReadUntil` until that returns `0` ends with
an empty buffer and gives the frames of the queue. -/
theorem cb_frames (cb : CbT) (s e : UInt8) (max : SizeT) (hmax : max ≠ 0) :
    (∃ cb', cbDmaSynStart cb s = some cb' ∧
      (∀ fuel, cb.count < fuel → cbDmaSynLoop s fuel cb = some cb') ∧
      cb' = { cb with read := cb'.read, readLast := cb'.readLast } ∧
      cb'.queue = cb.queue.dropWhile (· != s)) ∧
    ∃ cb', (∀ fuel, cb.count < fuel →
        cbFrames s e max fuel cb = some (cb', frames s e max.toNat cb.queue)) ∧
      cbIsEmpty cb' = true := by
  refine ⟨?_, cbFrames_spec s e hmax cb⟩
  obtain ⟨cb', hloop, hread, hq⟩ := cbDmaSynLoop_spec s cb
  exact ⟨cb', hloop cb.slots cb.count_lt, hloop, hread, hq⟩

/-- Four slots that hold the bytes 7, 2 and 3. -/
def threeBytes : CbT :=
  { fourSlots with data := #v[7, 2, 3, 0], write := 3 }

theorem cb_frames_three :
    (∃ cb', cbDmaSynStart threeBytes 2 = some cb' ∧
      (∀ fuel, threeBytes.count < fuel → cbDmaSynLoop 2 fuel threeBytes = some cb') ∧
      cb' = { threeBytes with read := cb'.read, readLast := cb'.readLast } ∧
      cb'.queue = threeBytes.queue.dropWhile (· != 2)) ∧
    ∃ cb', (∀ fuel, threeBytes.count < fuel → cbFrames 2 3 8 fuel threeBytes =
        some (cb', frames 2 3 (8 : SizeT).toNat threeBytes.queue)) ∧
      cbIsEmpty cb' = true :=
  cb_frames threeBytes 2 3 8 (by decide)

end DataCommons.CBuffer
