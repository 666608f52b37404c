import DataCommons.Lib.RingWindow
import DataCommons.Lib.OverwriteQueue
import DataCommons.CBuffer.Model

/-!
# The circular buffer is an overwriting queue

`CbT.queue` reads the queued bytes off a buffer.  The counters never matter
beyond their residue modulo the number of slots: `count` is the only number
below `slots` that leads from `read` to `write` (`count_unique`), so each
operation is understood by giving its new `read` and `write` up to congruence.

* `cbWrite_refines`, `cbRead_refines`, `cbReadUntil_refines`: one call is one
  step of `OverwriteQueue` with capacity `slots - 1`;
* `cb_refines_queue`: so is every run from `CbInit`.
-/

namespace DataCommons.CBuffer

open RingWindow OverwriteQueue

namespace CbT

/-- The number of queued bytes, `(write - read) & mask`. -/
def count (cb : CbT) : ℕ := ((cb.write - cb.read) &&& cb.mask).toNat

/-- The queued bytes: `data` at the indices `read`, `read + 1`, … (masked). -/
def queue (cb : CbT) : List UInt8 :=
  (List.range cb.count).map fun i => cb.byteAt (cb.read + BitVec.ofNat 64 i)

/-- The memory as a ring of slots. -/
def cells (cb : CbT) : ℕ → UInt8 := fun i => cb.data[i]?.getD 0

theorem byteAt_eq (cb : CbT) (v : SizeT) : cb.byteAt v = cb.cells (v.toNat % cb.slots) := by
  have hlt := cb.slot_lt v
  simp only [byteAt, cells, ← cb.and_mask_toNat, Vector.getElem?_eq_getElem hlt, Option.getD_some]
  rfl

theorem toNat_add_modEq (cb : CbT) (v x : SizeT) :
    (v + x).toNat ≡ v.toNat + x.toNat [MOD cb.slots] := by
  rw [BitVec.toNat_add]
  exact Nat.mod_mod_of_dvd _ cb.slots_dvd

theorem ofNat_modEq (cb : CbT) (n : ℕ) : (BitVec.ofNat 64 n).toNat ≡ n [MOD cb.slots] := by
  rw [BitVec.toNat_ofNat]
  exact Nat.mod_mod_of_dvd _ cb.slots_dvd

/-- Numbers below the number of slots fit a `size_t`. -/
theorem ofNat_toNat (cb : CbT) {n : ℕ} (h : n < cb.slots) : (BitVec.ofNat 64 n).toNat = n := by
  rw [BitVec.toNat_ofNat]
  exact Nat.mod_eq_of_lt (h.trans cb.size.isLt)

theorem toNat_succ_modEq (cb : CbT) (v : SizeT) : (v + 1).toNat ≡ v.toNat + 1 [MOD cb.slots] :=
  cb.toNat_add_modEq v 1

theorem count_lt (cb : CbT) : cb.count < cb.slots := cb.slot_lt _

/-- The masked difference leads from one counter to the other. -/
theorem sub_and_mask_modEq (cb : CbT) (v w : SizeT) :
    v.toNat + ((w - v) &&& cb.mask).toNat ≡ w.toNat [MOD cb.slots] := by
  have h : (v + (w - v)).toNat = w.toNat := by
    rw [BitVec.add_comm, BitVec.sub_add_cancel]
  rw [and_mask_toNat]
  exact (Nat.ModEq.add_left _ (Nat.mod_modEq _ _)).trans (h ▸ (cb.toNat_add_modEq _ _).symm)

/-- It is the only such number below one revolution. -/
theorem sub_and_mask_unique (cb : CbT) {v w : SizeT} {q : ℕ} (hq : q < cb.slots)
    (h : v.toNat + q ≡ w.toNat [MOD cb.slots]) : ((w - v) &&& cb.mask).toNat = q :=
  (Nat.ModEq.add_left_cancel' _ ((cb.sub_and_mask_modEq v w).trans h.symm)).eq_of_lt_of_lt
    (cb.slot_lt _) hq

theorem count_modEq (cb : CbT) : cb.read.toNat + cb.count ≡ cb.write.toNat [MOD cb.slots] :=
  cb.sub_and_mask_modEq _ _

theorem count_unique (cb : CbT) {q : ℕ} (hq : q < cb.slots)
    (h : cb.read.toNat + q ≡ cb.write.toNat [MOD cb.slots]) : cb.count = q :=
  cb.sub_and_mask_unique hq h

/-- The queue is the window of `count` slots from `read`. -/
theorem queue_eq_window (cb : CbT) :
    cb.queue = window cb.slots cb.cells cb.read.toNat cb.count := by
  unfold queue window
  refine List.map_congr_left fun i _ => ?_
  rw [byteAt_eq]
  have h : (cb.read + BitVec.ofNat 64 i).toNat ≡ cb.read.toNat + i [MOD cb.slots] :=
    (cb.toNat_add_modEq _ _).trans (Nat.ModEq.add_left _ (cb.ofNat_modEq i))
  rw [show (cb.read + BitVec.ofNat 64 i).toNat % cb.slots = (cb.read.toNat + i) % cb.slots from h]

@[simp] theorem queue_length (cb : CbT) : cb.queue.length = cb.count := by
  simp [queue]

/-- The queue of a buffer whose counters are known up to congruence. -/
theorem queue_of_modEq (cb : CbT) {start len : ℕ} (hlen : len < cb.slots)
    (hr : cb.read.toNat ≡ start [MOD cb.slots])
    (hw : cb.write.toNat ≡ start + len [MOD cb.slots]) :
    cb.queue = window cb.slots cb.cells start len := by
  have hc : cb.count = len :=
    cb.count_unique hlen ((Nat.ModEq.add_right len hr).trans hw.symm)
  rw [queue_eq_window, hc]
  exact window_congr _ _ hr

end CbT

open CbT

theorem cbIsEmpty_iff (cb : CbT) : cbIsEmpty cb = true ↔ cb.count = 0 := by
  rw [cbIsEmpty, beq_iff_eq, ← BitVec.toNat_inj, cb.and_mask_toNat, cb.and_mask_toNat]
  constructor
  · intro h
    exact cb.count_unique cb.slots_pos h.symm
  · intro h
    have := cb.count_modEq
    rw [h, Nat.add_zero] at this
    exact this.symm

theorem cbEmptyCount_toNat (cb : CbT) : (cbEmptyCount cb).toNat = cb.slots - 1 - cb.count := by
  have hlt := cb.count_lt
  have hm := cb.mask_toNat
  rw [cbEmptyCount, BitVec.toNat_sub_of_le, hm]
  · rfl
  · rw [BitVec.le_def, hm]
    exact Nat.le_sub_one_of_lt hlt

/-! ## Storing bytes -/

@[simp] theorem setByte_slots (cb : CbT) (v : SizeT) (x : UInt8) :
    (cb.setByte v x).slots = cb.slots := rfl

theorem cells_set (cb : CbT) (i : ℕ) (hi : i < cb.size.toNat) (x : UInt8) :
    CbT.cells { cb with data := cb.data.set i x hi } = fun j => if j = i then x else cb.cells j := by
  funext j
  change ((cb.data.set i x hi)[j]?).getD 0 = _
  rw [Vector.getElem?_set]
  by_cases h : i = j
  · rw [if_pos h, if_pos h.symm]
    rfl
  · rw [if_neg h, if_neg (Ne.symm h)]
    rfl

theorem setByte_cells (cb : CbT) (v : SizeT) (x : UInt8) :
    (cb.setByte v x).cells = put cb.slots cb.cells v.toNat x := by
  rw [setByte, cells_set, cb.and_mask_toNat]
  rfl

@[simp] theorem cbStore_size (cb : CbT) (v : SizeT) (xs : List UInt8) :
    (cbStore cb v xs).size = cb.size := by
  induction xs generalizing cb v with
  | nil => rfl
  | cons x xs ih => exact ih _ _

@[simp] theorem cbStore_slots (cb : CbT) (v : SizeT) (xs : List UInt8) :
    (cbStore cb v xs).slots = cb.slots := by
  simp [slots]

@[simp] theorem cbStore_read (cb : CbT) (v : SizeT) (xs : List UInt8) :
    (cbStore cb v xs).read = cb.read := by
  induction xs generalizing cb v with
  | nil => rfl
  | cons x xs ih => exact ih _ _

@[simp] theorem cbStore_write (cb : CbT) (v : SizeT) (xs : List UInt8) :
    (cbStore cb v xs).write = cb.write := by
  induction xs generalizing cb v with
  | nil => rfl
  | cons x xs ih => exact ih _ _

theorem cbStore_cells (cb : CbT) (v : SizeT) (xs : List UInt8) :
    (cbStore cb v xs).cells = putAll cb.slots cb.cells v.toNat xs := by
  induction xs generalizing cb v with
  | nil => rfl
  | cons x xs ih =>
    rw [cbStore, ih, setByte_cells, putAll, setByte_slots]
    exact putAll_congr _ _ (cb.toNat_succ_modEq v)

theorem cbStore_count (cb : CbT) (v : SizeT) (xs : List UInt8) :
    (cbStore cb v xs).count = cb.count :=
  count_unique _ (by rw [cbStore_slots]; exact cb.count_lt)
    (by rw [cbStore_read, cbStore_write, cbStore_slots]; exact cb.count_modEq)

/-! ## Publishing bytes -/

@[simp] theorem cbWriteInc_size (cb : CbT) (num : SizeT) : (cbWriteInc cb num).size = cb.size := by
  unfold cbWriteInc
  dsimp only
  split <;> rfl

@[simp] theorem cbWriteInc_slots (cb : CbT) (num : SizeT) :
    (cbWriteInc cb num).slots = cb.slots := by
  simp [slots]

@[simp] theorem cbWriteInc_cells (cb : CbT) (num : SizeT) :
    (cbWriteInc cb num).cells = cb.cells := by
  unfold cbWriteInc
  dsimp only
  split <;> rfl

theorem cbWriteInc_write (cb : CbT) (num : SizeT) :
    (cbWriteInc cb num).write = cb.write + num := by
  unfold cbWriteInc
  dsimp only
  split <;> rfl

/-- `CbWriteInc` moves `read` past exactly the bytes that do not fit. -/
theorem cbWriteInc_read (cb : CbT) (num : SizeT) :
    (cbWriteInc cb num).read.toNat ≡
      cb.read.toNat + (cb.count + num.toNat - (cb.slots - 1)) [MOD cb.slots] := by
  have hlt := cb.count_lt
  have hgap := cbEmptyCount_toNat cb
  unfold cbWriteInc
  dsimp only
  split
  · rename_i hnum
    have hnum' : cb.slots - 1 - cb.count < num.toNat := by
      rw [← hgap]; exact BitVec.lt_def.mp hnum
    -- one revolution below `write + 1`
    have hj : cb.read.toNat + (cb.count + num.toNat - (cb.slots - 1)) + cb.slots =
        cb.read.toNat + cb.count + num.toNat + 1 := by omega
    refine ((cb.toNat_succ_modEq _).trans (Nat.ModEq.add_right 1 (cb.toNat_add_modEq _ _))).trans ?_
    refine (Nat.ModEq.add_right 1 (Nat.ModEq.add_right _ cb.count_modEq)).symm.trans ?_
    rw [← hj]
    exact Nat.add_modEq_right
  · rename_i hnum
    have hnum' : num.toNat ≤ cb.slots - 1 - cb.count := by
      rw [← hgap]; exact Nat.le_of_not_lt fun h => hnum (BitVec.lt_def.mpr h)
    rw [show cb.count + num.toNat - (cb.slots - 1) = 0 by omega, Nat.add_zero]

/-- The queue after storing `xs` behind `write` and moving both counters: the
last `slots - 1` bytes of the old queue followed by `xs`. -/
theorem queue_after_store (cb cb' : CbT) (xs : List UInt8) (hxs : xs.length ≤ cb.slots)
    (hslots : cb'.slots = cb.slots)
    (hcells : cb'.cells = putAll cb.slots cb.cells cb.write.toNat xs)
    (hr : cb'.read.toNat ≡
      cb.read.toNat + (cb.count + xs.length - (cb.slots - 1)) [MOD cb.slots])
    (hw : cb'.write.toNat ≡ cb.write.toNat + xs.length [MOD cb.slots]) :
    cb'.queue = (cb.queue ++ xs).rtake (cb.slots - 1) := by
  have hlt := cb.count_lt
  generalize hj : cb.count + xs.length - (cb.slots - 1) = j at hr
  have hw' : cb'.write.toNat ≡ cb.read.toNat + j + (cb.count + xs.length - j) [MOD cb'.slots] := by
    rw [hslots]
    refine hw.trans ((Nat.ModEq.add_right _ cb.count_modEq).symm.trans ?_)
    rw [show cb.read.toNat + j + (cb.count + xs.length - j) =
      cb.read.toNat + cb.count + xs.length by omega]
  rw [cb'.queue_of_modEq (by omega) (hslots ▸ hr) hw', hslots, hcells,
    ← putAll_congr _ _ cb.count_modEq, window_putAll _ _ _ _ _ hxs (by omega),
    ← queue_eq_window, List.rtake, List.length_append, queue_length, hj]

/-! ## One call is one step of the queue -/

theorem cbWrite_one (cb : CbT) (x : UInt8) :
    cbWrite cb [x] =
      if (cb.write + 1) &&& cb.mask = cb.read &&& cb.mask then
        some ({ cb.setByte cb.write x with write := cb.write + 1, read := cb.read + 1,
                                           readLast := cb.read + 1, fullCnt := cb.fullCnt + 1 }, 1)
      else some ({ cb.setByte cb.write x with write := cb.write + 1 }, 1) := rfl

/-- The buffer is full exactly when one more byte closes the revolution. -/
theorem write_succ_full (cb : CbT) :
    (cb.write + 1) &&& cb.mask = cb.read &&& cb.mask ↔ cb.count + 1 = cb.slots := by
  have hlt := cb.count_lt
  rw [← BitVec.toNat_inj, cb.and_mask_toNat, cb.and_mask_toNat]
  have h1 : (cb.write + 1).toNat ≡ cb.read.toNat + (cb.count + 1) [MOD cb.slots] :=
    (cb.toNat_succ_modEq cb.write).trans (Nat.ModEq.add_right 1 cb.count_modEq).symm
  constructor
  · intro h
    have hz : cb.read.toNat + (cb.count + 1) ≡ cb.read.toNat + 0 [MOD cb.slots] := h1.symm.trans h
    have hd := (Nat.modEq_zero_iff_dvd).mp (Nat.ModEq.add_left_cancel' _ hz)
    exact Nat.le_antisymm (by omega) (Nat.le_of_dvd (by omega) hd)
  · intro h
    rw [h] at h1
    exact h1.trans Nat.add_modEq_right

theorem cbWrite_one_refines (cb : CbT) (x : UInt8) :
    ∃ cb', cbWrite cb [x] = some (cb', 1) ∧ cb'.size = cb.size ∧
      cb'.queue = (cb.queue ++ [x]).rtake (cb.slots - 1) := by
  have hlt := cb.count_lt
  have hcells : (cb.setByte cb.write x).cells = putAll cb.slots cb.cells cb.write.toNat [x] :=
    setByte_cells _ _ _
  have hw := cb.toNat_succ_modEq cb.write
  have hfull := write_succ_full cb
  rw [cbWrite_one]
  by_cases h : (cb.write + 1) &&& cb.mask = cb.read &&& cb.mask
  · have h' := hfull.mp h
    rw [if_pos h]
    refine ⟨_, rfl, rfl, queue_after_store cb _ [x] cb.slots_pos rfl hcells ?_ hw⟩
    rw [show cb.count + [x].length - (cb.slots - 1) = 1 by simp; omega]
    exact cb.toNat_succ_modEq cb.read
  · have h' : cb.count + 1 ≠ cb.slots := fun e => h (hfull.mpr e)
    rw [if_neg h]
    refine ⟨_, rfl, rfl, queue_after_store cb _ [x] cb.slots_pos rfl hcells ?_ hw⟩
    rw [show cb.count + [x].length - (cb.slots - 1) = 0 by simp; omega]
    rfl

theorem cbWrite_many (cb : CbT) (item : List UInt8) (h2 : 2 ≤ item.length) :
    cbWrite cb item =
      if item.length < cb.slots then
        some (cbWriteInc (cbStore cb cb.write item) (BitVec.ofNat 64 item.length),
          BitVec.ofNat 64 item.length)
      else some (cb, 0) := by
  match item, h2 with
  | _ :: _ :: _, _ => rfl

theorem cbWrite_many_refines (cb : CbT) (item : List UInt8) (h2 : 2 ≤ item.length)
    (hlt : item.length < cb.slots) :
    ∃ cb', cbWrite cb item = some (cb', BitVec.ofNat 64 item.length) ∧ cb'.size = cb.size ∧
      cb'.queue = (cb.queue ++ item).rtake (cb.slots - 1) := by
  have hn := cb.ofNat_toNat hlt
  refine ⟨cbWriteInc (cbStore cb cb.write item) (BitVec.ofNat 64 item.length), ?_, by simp, ?_⟩
  · rw [cbWrite_many cb item h2, if_pos hlt]
  · apply queue_after_store cb _ item (Nat.le_of_lt hlt) (by simp)
    · rw [cbWriteInc_cells, cbStore_cells]
    · have hr := cbWriteInc_read (cbStore cb cb.write item) (BitVec.ofNat 64 item.length)
      simpa only [cbStore_read, cbStore_slots, cbStore_count, hn] using hr
    · have hw := cb.toNat_add_modEq cb.write (BitVec.ofNat 64 item.length)
      rw [cbWriteInc_write, cbStore_write]
      rwa [hn] at hw

/-- **`CbWrite` is a queue write.**  A refused write returns the buffer as it was. -/
theorem cbWrite_refines (cb : CbT) (item : List UInt8) (hne : item ≠ []) :
    ∃ cb' r, cbWrite cb item = some (cb', r) ∧ cb'.size = cb.size ∧
      step (cb.slots - 1) cb.queue (.write item) = (cb'.queue, ⟨r.toNat, []⟩) ∧
      (¬ Accepts (cb.slots - 1) item → cb' = cb ∧ r = 0) := by
  have hpos := cb.slots_pos
  by_cases h1 : item.length = 1
  · obtain ⟨x, rfl⟩ := List.length_eq_one_iff.mp h1
    obtain ⟨cb', hw, hs, hq⟩ := cbWrite_one_refines cb x
    have hacc : Accepts (cb.slots - 1) [x] := Or.inl rfl
    exact ⟨cb', 1, hw, hs, by simp [step, hacc, hq], fun h => absurd hacc h⟩
  · have h2 : 2 ≤ item.length := by
      have := List.length_pos_iff.mpr hne
      omega
    by_cases hlt : item.length < cb.slots
    · obtain ⟨cb', hw, hs, hq⟩ := cbWrite_many_refines cb item h2 hlt
      have hacc : Accepts (cb.slots - 1) item := Or.inr (by omega)
      exact ⟨cb', _, hw, hs, by simp only [step, hacc, ↓reduceIte, hq, cb.ofNat_toNat hlt],
        fun h => absurd hacc h⟩
    · have hacc : ¬ Accepts (cb.slots - 1) item := fun h => by
        rcases h with h | h <;> omega
      refine ⟨cb, 0, ?_, rfl, by simp [step, hacc], fun _ => ⟨rfl, rfl⟩⟩
      rw [cbWrite_many cb item h2, if_neg hlt]

theorem queue_drop (cb cb' : CbT) (k : ℕ) (hk : k ≤ cb.count) (hslots : cb'.slots = cb.slots)
    (hcells : cb'.cells = cb.cells) (hr : cb'.read.toNat ≡ cb.read.toNat + k [MOD cb.slots])
    (hw : cb'.write = cb.write) : cb'.queue = cb.queue.drop k := by
  have hlt := cb.count_lt
  have hw' : cb'.write.toNat ≡ cb.read.toNat + k + (cb.count - k) [MOD cb'.slots] := by
    rw [hslots, hw, show cb.read.toNat + k + (cb.count - k) = cb.read.toNat + cb.count by omega]
    exact cb.count_modEq.symm
  rw [cb'.queue_of_modEq (by omega) (hslots ▸ hr) hw', hslots, hcells, queue_eq_window,
    drop_window]

theorem cbReadInc_queue (cb : CbT) (num : SizeT) (h : num.toNat ≤ cb.count) :
    (cbReadInc cb num).queue = cb.queue.drop num.toNat := by
  have hnum : ¬ num > (cb.write - cb.read) &&& cb.mask := fun hgt =>
    absurd (BitVec.lt_def.mp hgt) (Nat.not_lt.mpr h)
  have hr : (cbReadInc cb num).read = cb.read + num := by
    simp only [cbReadInc, hnum, ↓reduceIte]
  exact queue_drop cb (cbReadInc cb num) _ h rfl rfl (hr ▸ cb.toNat_add_modEq _ _) rfl

theorem cbLoad_eq (cb : CbT) (v : SizeT) (n : ℕ) :
    cbLoad cb v n = window cb.slots cb.cells v.toNat n := by
  induction n generalizing v with
  | zero => rfl
  | succ n ih =>
    rw [cbLoad, ih, window_succ, byteAt_eq, window_congr _ _ (cb.toNat_succ_modEq v)]

theorem cbLoadUntil_eq (cb : CbT) (v : SizeT) (byte : UInt8) (max len : ℕ) (h : max ≤ len) :
    cbLoadUntil cb v byte max = takeUntil max byte (window cb.slots cb.cells v.toNat len) := by
  induction max generalizing v len with
  | zero => rw [takeUntil_zero]; rfl
  | succ max ih =>
    obtain ⟨len, rfl⟩ : ∃ l, len = l + 1 := ⟨len - 1, by omega⟩
    rw [cbLoadUntil, window_succ, takeUntil_cons, ih _ len (by omega), byteAt_eq,
      window_congr _ _ (cb.toNat_succ_modEq v)]

theorem cbRead_refines (cb : CbT) (n : SizeT) (hn : n ≠ 0) :
    ∃ cb' out r, cbRead cb n = some (cb', out, r) ∧ cb'.size = cb.size ∧
      step (cb.slots - 1) cb.queue (.read n.toNat) = (cb'.queue, ⟨r.toNat, out⟩) := by
  have hpos : 0 < n.toNat := Nat.pos_of_ne_zero fun e => hn (BitVec.eq_of_toNat_eq e)
  unfold cbRead
  rw [if_neg hn]
  by_cases he : cbIsEmpty cb = true
  · have h0 := (cbIsEmpty_iff cb).mp he
    rw [if_pos he]
    exact ⟨cb, [], 0, rfl, rfl, by simp [step, h0]⟩
  · have hc : cb.count ≠ 0 := fun h => he ((cbIsEmpty_iff cb).mpr h)
    rw [if_neg he]
    by_cases h1 : n = 1
    · subst h1
      rw [if_pos rfl]
      refine ⟨_, _, _, rfl, rfl, ?_⟩
      have hmin : min (1 : SizeT).toNat cb.count = 1 := by
        rw [show (1 : SizeT).toNat = 1 by rfl]; omega
      rw [step, queue_length, hmin,
        queue_drop cb { cb with read := cb.read + 1, readLast := cb.read + 1 } 1 (by omega) rfl rfl
          (cb.toNat_succ_modEq cb.read) rfl]
      rw [queue_eq_window, take_window, show min 1 cb.count = 0 + 1 by omega, window_succ,
        window_zero, byteAt_eq]
      rfl
    · rw [if_neg h1]
      have hk : (if cbDataCount cb < n then cbDataCount cb else n).toNat = min n.toNat cb.count := by
        have hd : (cbDataCount cb).toNat = cb.count := rfl
        split
        · rename_i h
          have := BitVec.lt_def.mp h
          omega
        · rename_i h
          have : ¬ cb.count < n.toNat := fun h' => h (BitVec.lt_def.mpr h')
          omega
      refine ⟨_, _, _, rfl, rfl, ?_⟩
      rw [step, queue_length, cbReadInc_queue _ _ (by rw [hk]; omega), cbLoad_eq, hk,
        queue_eq_window, take_window]
      simp

theorem cbReadUntil_refines (cb : CbT) (max : SizeT) (byte : UInt8) (hmax : max ≠ 0) :
    ∃ cb' out r, cbReadUntil cb max byte = some (cb', out, r) ∧ cb'.size = cb.size ∧
      step (cb.slots - 1) cb.queue (.readUntil max.toNat byte) = (cb'.queue, ⟨r.toNat, out⟩) := by
  unfold cbReadUntil
  rw [if_neg hmax]
  by_cases he : cbIsEmpty cb = true
  · have h0 := (cbIsEmpty_iff cb).mp he
    have hq : cb.queue = [] := List.length_eq_zero_iff.mp (by simpa using h0)
    rw [if_pos he]
    exact ⟨cb, [], 0, rfl, rfl, by simp [step, hq, takeUntil, upTo]⟩
  · rw [if_neg he]
    have hk : (if max > (cb.write - cb.read) &&& cb.mask then (cb.write - cb.read) &&& cb.mask
        else max).toNat = min max.toNat cb.count := by
      split
      · rename_i h
        have : cb.count < max.toNat := BitVec.lt_def.mp h
        exact (Nat.min_eq_right (Nat.le_of_lt this)).symm
      · rename_i h
        have : ¬ cb.count < max.toNat := fun h' => h (BitVec.lt_def.mpr h')
        exact (Nat.min_eq_left (Nat.le_of_not_lt this)).symm
    have hout : cbLoadUntil cb cb.read byte (min max.toNat cb.count) =
        takeUntil max.toNat byte cb.queue := by
      rw [cbLoadUntil_eq _ _ _ _ cb.count (Nat.min_le_right ..), ← queue_eq_window,
        ← cb.queue_length, takeUntil_min]
    have hlen : (takeUntil max.toNat byte cb.queue).length ≤ cb.count := by
      have := congrArg List.length (takeUntil_eq_take max.toNat byte cb.queue)
      rw [List.length_take, queue_length] at this
      omega
    have hi := cb.ofNat_toNat (Nat.lt_of_le_of_lt hlen cb.count_lt)
    refine ⟨_, _, _, rfl, rfl, ?_⟩
    rw [hk, hout, step, cbReadInc_queue _ _ (by rw [hi]; exact hlen), hi]

/-! ## Runs -/

inductive CbCall where
  | write (item : List UInt8)
  | read (n : SizeT)
  | readUntil (max : SizeT) (byte : UInt8)
  deriving DecidableEq

def CbCall.Ok : CbCall → Prop
  | .write item => item ≠ []
  | .read n => n ≠ 0
  | .readUntil max _ => max ≠ 0

/-- The queue operation behind a call. -/
def CbCall.toOp : CbCall → QueueOp UInt8
  | .write item => .write item
  | .read n => .read n.toNat
  | .readUntil max byte => .readUntil max.toNat byte

/-- One call: the new buffer, the return value and the bytes put out. -/
def cbStep (cb : CbT) : CbCall → Option (CbT × QueueOut UInt8)
  | .write item => (cbWrite cb item).map fun (cb, r) => (cb, ⟨r.toNat, []⟩)
  | .read n => (cbRead cb n).map fun (cb, out, r) => (cb, ⟨r.toNat, out⟩)
  | .readUntil max byte => (cbReadUntil cb max byte).map fun (cb, out, r) => (cb, ⟨r.toNat, out⟩)

/-- **Step lemma.**  One call is the same step on the queue. -/
theorem cbStep_refines (cb : CbT) (c : CbCall) (hc : c.Ok) :
    ∃ cb', cbStep cb c = some (cb', (step (cb.slots - 1) cb.queue c.toOp).2) ∧
      cb'.size = cb.size ∧ cb'.queue = (step (cb.slots - 1) cb.queue c.toOp).1 := by
  cases c with
  | write item =>
    obtain ⟨cb', r, hw, hs, hq, -⟩ := cbWrite_refines cb item hc
    exact ⟨cb', by simp [cbStep, CbCall.toOp, hw, hq], hs, by simp [CbCall.toOp, hq]⟩
  | read n =>
    obtain ⟨cb', out, r, hr, hs, hq⟩ := cbRead_refines cb n hc
    exact ⟨cb', by simp [cbStep, CbCall.toOp, hr, hq], hs, by simp [CbCall.toOp, hq]⟩
  | readUntil max byte =>
    obtain ⟨cb', out, r, hr, hs, hq⟩ := cbReadUntil_refines cb max byte hc
    exact ⟨cb', by simp [cbStep, CbCall.toOp, hr, hq], hs, by simp [CbCall.toOp, hq]⟩

theorem cbInit_eq_some {size : SizeT} {data : Vector UInt8 size.toNat} {name : Option String}
    {cb : CbT} (h : cbInit size data name = some cb) :
    cb.size = size ∧ cb.write = 0 ∧ cb.read = 0 ∧ cb.dmaCnt = 0 ∧ cb.queue = [] := by
  unfold cbInit at h
  split at h
  · cases h
    refine ⟨rfl, rfl, rfl, rfl, List.length_eq_zero_iff.mp ?_⟩
    rw [queue_length]
    exact count_unique _ (slots_pos _) (Nat.ModEq.refl _)
  · cases h

/-- **The circular buffer is an overwriting queue.**  Every run of calls from
`CbInit` returns and outputs what the queue of capacity `size - 1` does, the
buffer holds the same queue at the end, and a write that the queue refuses
returns `0` and leaves the whole buffer as it was. -/
theorem cb_refines_queue (size : SizeT) (data : Vector UInt8 size.toNat) (name : Option String)
    (cb₀ : CbT) (hinit : cbInit size data name = some cb₀) (calls : List CbCall)
    (hcalls : ∀ c ∈ calls, c.Ok) :
    ∃ cb outs, Machine.exec cbStep cb₀ calls = some (cb, outs) ∧
      run (size.toNat - 1) [] (calls.map CbCall.toOp) = some (cb.queue, outs) ∧
      ∀ item, item ≠ [] → ¬ Accepts (size.toNat - 1) item →
        cbWrite cb item = some (cb, 0) := by
  obtain ⟨hsize, -, -, -, hq₀⟩ := cbInit_eq_some hinit
  have hstep : ∀ (cb : CbT) (q : List UInt8) (c : CbCall), cb.size = size ∧ q = cb.queue → c.Ok →
      ∃ cb', cbStep cb c = some (cb', (step (size.toNat - 1) q c.toOp).2) ∧
        cb'.size = size ∧ (step (size.toNat - 1) q c.toOp).1 = cb'.queue := by
    rintro cb q c ⟨rfl, rfl⟩ hc
    obtain ⟨cb', h, hs, hq⟩ := cbStep_refines cb c hc
    exact ⟨cb', h, hs, hq.symm⟩
  obtain ⟨cb, q, outs, hrun, hq, hs, rfl⟩ :=
    Machine.exec_simulates hstep ⟨hsize, hq₀.symm⟩ hcalls
  refine ⟨cb, outs, hrun, hq, fun item hne hacc => ?_⟩
  have hslots : cb.slots = size.toNat := by rw [slots, hs]
  obtain ⟨cb', r, hw, -, -, hrefused⟩ := cbWrite_refines cb item hne
  obtain ⟨rfl, rfl⟩ := hrefused (hslots ▸ hacc)
  exact hw

/-- A zeroed buffer of four slots. -/
def fourSlots : CbT :=
  ⟨4, Vector.replicate _ 0, 0, 0, 3, "", 0, 0, 0, rfl, rfl⟩

/-- A run on four slots that overwrites one byte and reads up to a delimiter. -/
theorem cb_refines_queue_four :
    ∃ cb outs,
      Machine.exec cbStep fourSlots [.write [1, 2, 3], .write [4], .readUntil 8 3, .read 5] =
        some (cb, outs) ∧
      run 3 [] [.write [1, 2, 3], .write [4], .readUntil 8 3, .read 5] = some (cb.queue, outs) ∧
      ∀ item, item ≠ [] → ¬ Accepts 3 item → cbWrite cb item = some (cb, 0) :=
  cb_refines_queue 4 (Vector.replicate _ 0) none fourSlots rfl
    [.write [1, 2, 3], .write [4], .readUntil 8 3, .read 5] (by simp [CbCall.Ok])

end DataCommons.CBuffer
