import Mathlib.Order.Bounds.Basic
import DataCommons.CBuffer.Accounting

/-!
# What the occupancy queries say

`CbIsEmpty`, `CbIsFull`, `CbDataCount` and `CbEmptyCount` against the next call.

* `cbIsEmpty_read`, `cbDataCount_read`, `cbEmptyCount_greatest`: three of them
  are right in every buffer;
* `cbIsFull_iff`: `CbIsFull` has the counters the wrong way round, and holds when
  one byte is queued;
* `queries_truthful_iff`: where all four are right.
-/

namespace DataCommons.CBuffer

open OverwriteQueue CbT

/-- Writing `k` bytes one by one drops none. -/
def Room (cb : CbT) (k : ℕ) : Prop :=
  ∀ xs : List UInt8, xs.length = k →
    ∃ cb', cbWriteSeq cb (xs.map ([·])) = some cb' ∧ cb'.queue = cb.queue ++ xs

/-- The queries tell the truth about the next call. -/
structure Truthful (cb : CbT) : Prop where
  isEmpty : ∀ n, n ≠ 0 → (cbIsEmpty cb = true ↔ ∃ cb' out, cbRead cb n = some (cb', out, 0))
  isFull : ∀ x, (cbIsFull cb = true ↔
    (∃ cb' r, cbWrite cb [x] = some (cb', r) ∧ overwritten cb cb' [x] ≠ []) ∨ cb.size = 1)
  dataCount : ∀ n, cb.size ≤ n → ∃ cb' out, cbRead cb n = some (cb', out, cbDataCount cb)
  emptyCount : IsGreatest {k | Room cb k} (cbEmptyCount cb).toNat

/-! ## Reading -/

theorem cbRead_ret (cb : CbT) {n : SizeT} (hn : n ≠ 0) :
    ∃ cb' out r, cbRead cb n = some (cb', out, r) ∧ r.toNat = min n.toNat cb.count := by
  obtain ⟨cb', out, r, hread, -, hstep⟩ := cbRead_refines cb n hn
  simp only [step, queue_length, Prod.mk.injEq, QueueOut.mk.injEq] at hstep
  exact ⟨cb', out, r, hread, hstep.2.1.symm⟩

theorem cbIsEmpty_read (cb : CbT) {n : SizeT} (hn : n ≠ 0) :
    cbIsEmpty cb = true ↔ ∃ cb' out, cbRead cb n = some (cb', out, 0) := by
  have hpos : 0 < n.toNat := Nat.pos_of_ne_zero fun h => hn (BitVec.eq_of_toNat_eq h)
  obtain ⟨cb', out, r, hread, hr⟩ := cbRead_ret cb hn
  rw [cbIsEmpty_iff]
  constructor
  · intro h0
    rw [h0, Nat.min_zero] at hr
    have hr0 : r = 0 := BitVec.eq_of_toNat_eq hr
    exact ⟨cb', out, hr0 ▸ hread⟩
  · rintro ⟨cb₁, out₁, hread₁⟩
    cases hread.symm.trans hread₁
    change 0 = min n.toNat cb.count at hr
    omega

theorem cbDataCount_read (cb : CbT) {n : SizeT} (hn : cb.size ≤ n) :
    ∃ cb' out, cbRead cb n = some (cb', out, cbDataCount cb) := by
  have hle : cb.slots ≤ n.toNat := BitVec.le_def.mp hn
  have hpos := cb.slots_pos
  have hlt := cb.count_lt
  have hne : n ≠ 0 := fun h => by
    rw [h] at hle
    exact absurd (Nat.lt_of_lt_of_le hpos hle) (Nat.lt_irrefl 0)
  obtain ⟨cb', out, r, hread, hr⟩ := cbRead_ret cb hne
  have hcount : r = cbDataCount cb := BitVec.eq_of_toNat_eq (hr.trans (Nat.min_eq_right (by omega)))
  exact ⟨cb', out, hcount ▸ hread⟩

/-! ## Writing -/

theorem cbWrite_one_drops (cb : CbT) (x : UInt8) :
    ∃ cb' r, cbWrite cb [x] = some (cb', r) ∧ cb'.size = cb.size ∧
      cb'.count = min (cb.count + 1) (cb.slots - 1) ∧
      overwritten cb cb' [x] ++ cb'.queue = cb.queue ++ [x] ∧
      (overwritten cb cb' [x] ≠ [] ↔ cb.count = cb.slots - 1) := by
  have hlt := cb.count_lt
  obtain ⟨cb', r, hw, -, hsize, hcount, hsplit, -⟩ :=
    cbWrite_accepted cb [x] (List.cons_ne_nil _ _) (Or.inl rfl)
  have hlen := overwritten_length hsplit hcount
  refine ⟨cb', r, hw, hsize, hcount, hsplit, ?_⟩
  rw [← List.length_pos_iff, hlen, List.length_singleton]
  omega

/-- Bytes written one by one are kept as long as they fit. -/
theorem cbWriteSeq_ones (cb : CbT) (xs : List UInt8) :
    ∃ cb', cbWriteSeq cb (xs.map ([·])) = some cb' ∧ cb'.size = cb.size ∧
      (cb.count + xs.length ≤ cb.slots - 1 → cb'.queue = cb.queue ++ xs) := by
  induction xs generalizing cb with
  | nil => exact ⟨cb, rfl, rfl, fun _ => (List.append_nil _).symm⟩
  | cons x xs ih =>
    obtain ⟨cb₁, r, hw, hsize, hcount, hsplit, hdrop⟩ := cbWrite_one_drops cb x
    obtain ⟨cb', hseq, hsize', hq⟩ := ih cb₁
    refine ⟨cb', (cbWriteSeq_cons _ (List.cons_ne_nil _ _) hw).trans hseq, hsize'.trans hsize,
      fun hfit => ?_⟩
    rw [List.length_cons] at hfit
    have hnil : overwritten cb cb₁ [x] = [] := by
      by_contra hne
      have := hdrop.mp hne
      omega
    have hslots : cb₁.slots = cb.slots := congrArg BitVec.toNat hsize
    rw [hnil, List.nil_append] at hsplit
    rw [hq (by omega), hsplit, List.append_assoc]
    rfl

theorem room_iff (cb : CbT) (k : ℕ) : Room cb k ↔ cb.count + k ≤ cb.slots - 1 := by
  constructor
  · intro h
    obtain ⟨cb', hseq, hq⟩ := h (List.replicate k 0) (List.length_replicate ..)
    obtain ⟨cb₁, hseq₁, hsize, -⟩ := cbWriteSeq_ones cb (List.replicate k 0)
    cases hseq.symm.trans hseq₁
    -- no buffer of this size holds more
    have hslots : cb'.slots = cb.slots := congrArg BitVec.toNat hsize
    have hlen := congrArg List.length hq
    have hlt := cb'.count_lt
    rw [List.length_append, List.length_replicate, queue_length, queue_length] at hlen
    omega
  · intro hk xs hxs
    obtain ⟨cb', hseq, -, hq⟩ := cbWriteSeq_ones cb xs
    exact ⟨cb', hseq, hq (by rw [hxs]; exact hk)⟩

theorem cbEmptyCount_greatest (cb : CbT) :
    IsGreatest {k | Room cb k} (cbEmptyCount cb).toNat := by
  have hlt := cb.count_lt
  rw [cbEmptyCount_toNat]
  refine ⟨(room_iff cb _).mpr (by omega), fun k hk => ?_⟩
  have := (room_iff cb k).mp hk
  omega

/-! ## `CbIsFull` -/

/-- `CbIsFull` compares `read + 1` with `write`, so it asks whether one byte is
queued. -/
theorem cbIsFull_iff (cb : CbT) : cbIsFull cb = true ↔ cb.slots = 1 ∨ cb.count = 1 := by
  have hlt := cb.count_lt
  have hpos := cb.slots_pos
  rw [cbIsFull, beq_iff_eq, ← BitVec.toNat_inj, cb.and_mask_toNat, cb.and_mask_toNat]
  have h1 := cb.toNat_succ_modEq cb.read
  constructor
  · intro h
    by_cases hs : cb.slots = 1
    · exact Or.inl hs
    · exact Or.inr (cb.count_unique (by omega) (h1.symm.trans h))
  · rintro (hs | hc)
    · rw [hs, Nat.mod_one, Nat.mod_one]
    · have hw := cb.count_modEq
      rw [hc] at hw
      exact h1.trans hw

theorem write_drops_iff (cb : CbT) (x : UInt8) :
    (∃ cb' r, cbWrite cb [x] = some (cb', r) ∧ overwritten cb cb' [x] ≠ []) ↔
      cb.count = cb.slots - 1 := by
  obtain ⟨cb', r, hw, -, -, -, hdrop⟩ := cbWrite_one_drops cb x
  constructor
  · rintro ⟨cb₁, r₁, hw₁, hne⟩
    cases hw.symm.trans hw₁
    exact hdrop.mp hne
  · intro h
    exact ⟨cb', r, hw, hdrop.mpr h⟩

theorem size_eq_one (cb : CbT) : cb.size = 1 ↔ cb.slots = 1 := by
  rw [← BitVec.toNat_inj]
  rfl

/-- **The queries.**  All four tell the truth unless the buffer has more than two
slots and holds exactly one byte, or all it can hold. -/
theorem queries_truthful_iff (cb : CbT) :
    Truthful cb ↔
      cb.slots ≤ 2 ∨ (cb.queue.length ≠ 1 ∧ cb.queue.length ≠ cb.slots - 1) := by
  have hlt := cb.count_lt
  have hpos := cb.slots_pos
  rw [queue_length]
  constructor
  · intro h
    have hfull := h.isFull 0
    rw [cbIsFull_iff, write_drops_iff, size_eq_one] at hfull
    omega
  · intro h
    refine ⟨fun n hn => cbIsEmpty_read cb hn, fun x => ?_, fun n hn => cbDataCount_read cb hn,
      cbEmptyCount_greatest cb⟩
    rw [cbIsFull_iff, write_drops_iff, size_eq_one]
    omega

/-- On four slots that hold one byte `CbIsFull` is true, and the next write drops
nothing. -/
theorem full_with_one_byte :
    ∃ cb outs, cbInit 4 (Vector.replicate _ 0) none = some fourSlots ∧
      Machine.exec cbStep fourSlots [.write [7]] = some (cb, outs) ∧
      cbIsFull cb = true ∧ (∃ cb', cbWrite cb [8] = some (cb', 1) ∧ cb'.queue = [7, 8]) ∧
      ¬ Truthful cb := by
  refine ⟨_, _, rfl, rfl, by decide, ⟨_, rfl, by decide⟩, fun h => ?_⟩
  obtain ⟨cb', r, hw, hne⟩ | hsize := (h.isFull 8).mp (by decide)
  · cases hw
    exact hne (by decide)
  · exact absurd hsize (by decide)

end DataCommons.CBuffer
