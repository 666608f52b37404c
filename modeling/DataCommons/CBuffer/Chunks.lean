import DataCommons.CBuffer.Transfer

/-!
# Writing in chunks

What a `CbWrite` leaves behind is a function of the bytes alone, the read index
modulo the size included, and it counts in `full_cnt` exactly when the bytes do
not fit.  So it does not matter how a byte string is cut.

* `cbWrite_wrote`: one write, on either of the two paths of `CbWrite`;
* `cbWriteSeq_wrote`: the writes of a sequence of chunks;
* `cbWrite_chunks`: two ways of cutting one byte string.
-/

namespace DataCommons.CBuffer

open RingWindow OverwriteQueue CbT

/-- The chunks are a way of cutting `bytes` that `CbWrite` accepts. -/
def IsCut (cb : CbT) (bytes : List UInt8) (cut : List (List UInt8)) : Prop :=
  cut.flatten = bytes ∧ ∀ xs ∈ cut, 1 ≤ xs.length ∧ xs.length ≤ cb.slots - 1

instance (cb : CbT) (bytes : List UInt8) (cut : List (List UInt8)) :
    Decidable (IsCut cb bytes cut) := inferInstanceAs (Decidable (_ ∧ _))

/-- How many of the writes raise `full_cnt`. -/
def fullUps : CbT → List (List UInt8) → ℕ
  | _, [] => 0
  | cb, xs :: rest =>
    match cbWrite cb xs with
    | none => 0
    | some (cb', _) => (if cb'.fullCnt = cb.fullCnt then 0 else 1) + fullUps cb' rest

/-- `cb'` is `cb` with `bytes` written behind `write`. -/
structure Wrote (cb : CbT) (bytes : List UInt8) (cb' : CbT) : Prop where
  size : cb'.size = cb.size
  cells : cb'.cells = putAll cb.slots cb.cells cb.write.toNat bytes
  write : cb'.write = cb.write + BitVec.ofNat 64 bytes.length
  count : cb'.count = min (cb.count + bytes.length) (cb.slots - 1)

namespace Wrote

variable {cb cb₁ cb₂ : CbT} {xs ys : List UInt8}

theorem nil (cb : CbT) : Wrote cb [] cb := by
  have hlt := cb.count_lt
  exact ⟨rfl, rfl, (BitVec.add_zero _).symm, by simp; omega⟩

theorem slots (h : Wrote cb xs cb₁) : cb₁.slots = cb.slots := congrArg BitVec.toNat h.size

theorem append (h : Wrote cb xs cb₁) (h' : Wrote cb₁ ys cb₂) : Wrote cb (xs ++ ys) cb₂ := by
  refine ⟨h'.size.trans h.size, ?_, ?_, ?_⟩
  · have hmod : cb₁.write.toNat ≡ cb.write.toNat + xs.length [MOD cb.slots] := by
      rw [h.write]
      exact (cb.toNat_add_modEq _ _).trans (Nat.ModEq.add_left _ (cb.ofNat_modEq _))
    rw [h'.cells, h.cells, h.slots, putAll_append, putAll_congr _ _ hmod]
  · rw [h'.write, h.write, List.length_append, BitVec.ofNat_add, BitVec.add_assoc]
  · rw [h'.count, h.count, h.slots, List.length_append]
    omega

end Wrote

/-- The memory is what the ring of slots says. -/
theorem data_eq_of_cells {cb cb' : CbT} (hs : cb'.size = cb.size) (hc : cb'.cells = cb.cells) :
    cb'.data.toArray = cb.data.toArray := by
  have hlen : cb'.data.toArray.size = cb.data.toArray.size := by
    rw [Vector.size_toArray, Vector.size_toArray, hs]
  apply Array.ext hlen
  intro i h h'
  have hi := congrFun hc i
  simp only [cells] at hi
  rw [Vector.getElem?_eq_getElem (by simpa using h), Vector.getElem?_eq_getElem (by simpa using h')]
    at hi
  exact hi

/-- The read index follows from the write index and the fill level. -/
theorem read_mod_eq {cb cb' : CbT} (hs : cb'.slots = cb.slots) (hw : cb'.write = cb.write)
    (hc : cb'.count = cb.count) : cb'.read.toNat % cb.slots = cb.read.toNat % cb.slots := by
  have h' := cb'.count_modEq
  rw [hs, hw, hc] at h'
  exact Nat.ModEq.add_right_cancel' _ (h'.trans cb.count_modEq.symm)

/-! ## One write -/

theorem publish_fullCnt (cb : CbT) (xs : List UInt8) (hlt : xs.length < cb.slots) :
    (publish cb xs).fullCnt =
      if cb.slots - 1 < cb.count + xs.length then cb.fullCnt + 1 else cb.fullCnt := by
  have hcnt := cb.count_lt
  have hgap : BitVec.ofNat 64 xs.length > cbEmptyCount (cbStore cb cb.write xs) ↔
      cb.slots - 1 < cb.count + xs.length := by
    rw [gt_iff_lt, BitVec.lt_def, cbEmptyCount_toNat, cbStore_count, cbStore_slots,
      cb.ofNat_toNat hlt]
    omega
  unfold publish
  by_cases h : BitVec.ofNat 64 xs.length > cbEmptyCount (cbStore cb cb.write xs)
  · rw [cbWriteInc_of_gt h, if_pos (hgap.mp h), cbStore_fullCnt]
  · rw [cbWriteInc_of_not_gt h, if_neg fun h' => h (hgap.mpr h'), cbStore_fullCnt]

/-- **One write**, by the one-byte path or the other. -/
theorem cbWrite_wrote (cb : CbT) (xs : List UInt8) (hne : xs ≠ []) (hlt : xs.length < cb.slots) :
    ∃ cb' r, cbWrite cb xs = some (cb', r) ∧ Wrote cb xs cb' ∧
      cb'.fullCnt =
        if cb.slots - 1 < cb.count + xs.length then cb.fullCnt + 1 else cb.fullCnt := by
  obtain ⟨cb', r, hw, hsize, hq, -⟩ := cbWrite_refines cb xs hne
  obtain ⟨cb₁, hof, hsame⟩ := cbWriteOf_same cb xs hlt
  have h₁ : cb₁ = cb' := by
    rw [cbWriteOf, if_neg hne, hw] at hof
    exact (Option.some.inj hof).symm
  subst h₁
  refine ⟨cb₁, r, hw, ⟨hsize, ?_, ?_, ?_⟩, ?_⟩
  · have hcells : (publish cb xs).cells = cb₁.cells := by
      funext i
      simp only [cells, ← Vector.getElem?_toArray, hsame.data]
    rw [← hcells, publish, cbWriteInc_cells, cbStore_cells]
  · rw [← hsame.write, publish, cbWriteInc_write, cbStore_write]
  · have hacc : Accepts (cb.slots - 1) xs := Or.inr (by omega)
    have hlen := congrArg (fun p => p.1.length) hq
    simp only [step, hacc, ↓reduceIte, queue_length, List.rtake, List.length_drop,
      List.length_append] at hlen
    omega
  · rw [← hsame.fullCnt, publish_fullCnt cb xs hlt]

/-! ## A sequence of writes -/

theorem fullUps_cons {cb cb' : CbT} {xs : List UInt8} {r : SizeT} (rest : List (List UInt8))
    (hw : cbWrite cb xs = some (cb', r))
    (hfull : cb'.fullCnt =
      if cb.slots - 1 < cb.count + xs.length then cb.fullCnt + 1 else cb.fullCnt) :
    fullUps cb (xs :: rest) =
      (if cb.slots - 1 < cb.count + xs.length then 1 else 0) + fullUps cb' rest := by
  rw [fullUps, hw]
  dsimp only
  rw [hfull]
  split <;> simp

theorem cbWriteSeq_cons {cb cb' : CbT} {xs : List UInt8} {r : SizeT} (rest : List (List UInt8))
    (hne : xs ≠ []) (hw : cbWrite cb xs = some (cb', r)) :
    cbWriteSeq cb (xs :: rest) = cbWriteSeq cb' rest := by
  rw [cbWriteSeq, cbWriteOf, if_neg hne, hw]
  rfl

/-- **A sequence of writes.**  One of them raises `full_cnt` exactly when the
bytes do not fit altogether. -/
theorem cbWriteSeq_wrote (cb : CbT) (cut : List (List UInt8))
    (hcut : ∀ xs ∈ cut, 1 ≤ xs.length ∧ xs.length ≤ cb.slots - 1) :
    ∃ cb', cbWriteSeq cb cut = some cb' ∧ Wrote cb cut.flatten cb' ∧
      cb'.fullCnt = cb.fullCnt + BitVec.ofNat 64 (fullUps cb cut) ∧
      fullUps cb cut ≤ cut.flatten.length ∧
      (0 < fullUps cb cut ↔ cb.slots - 1 < cb.count + cut.flatten.length) := by
  induction cut generalizing cb with
  | nil =>
    have hlt := cb.count_lt
    refine ⟨cb, rfl, Wrote.nil cb, (BitVec.add_zero _).symm, Nat.le_refl _, ?_⟩
    simp only [fullUps, List.flatten_nil, List.length_nil]
    omega
  | cons xs rest ih =>
    obtain ⟨hxs, hle⟩ := hcut xs (List.mem_cons_self ..)
    have hne : xs ≠ [] := List.length_pos_iff.mp hxs
    obtain ⟨cb₁, r, hw, h₁, hfull⟩ := cbWrite_wrote cb xs hne (by have := cb.slots_pos; omega)
    obtain ⟨cb', hseq, h', hfull', hups, hpos⟩ := ih cb₁ fun ys hys => by
      rw [h₁.slots]
      exact hcut ys (List.mem_cons_of_mem _ hys)
    rw [h₁.slots, h₁.count] at hpos
    refine ⟨cb', (cbWriteSeq_cons rest hne hw).trans hseq, h₁.append h', ?_, ?_, ?_⟩
    · rw [hfull', hfull, fullUps_cons rest hw hfull, BitVec.ofNat_add, ← BitVec.add_assoc]
      split <;> simp
    · rw [fullUps_cons rest hw hfull, List.flatten_cons, List.length_append]
      split <;> omega
    · rw [fullUps_cons rest hw hfull, List.flatten_cons, List.length_append]
      split <;> omega

/-- Counting up fewer than `2 ^ 64` times is seen in the counter. -/
theorem ne_add_ofNat_iff {v : SizeT} {n : ℕ} (h : n < 2 ^ 64) :
    v + BitVec.ofNat 64 n ≠ v ↔ 0 < n := by
  rw [Ne, BitVec.add_right_eq_self, ← BitVec.toNat_inj, BitVec.toNat_ofNat, Nat.mod_eq_of_lt h]
  exact Nat.pos_iff_ne_zero.symm

/-- **Chunks do not matter.**  From any buffer, two ways of cutting a byte string
leave the same memory, `write`, and `read` modulo the size, and `full_cnt` grows
under one exactly when it grows under the other.  (Growing is said of the writes
one by one, as the counter may come round; for fewer than `2 ^ 64` bytes it is
said of the counter at the end as well.) -/
theorem cbWrite_chunks (cb : CbT) (bytes : List UInt8) (cut₁ cut₂ : List (List UInt8))
    (h₁ : IsCut cb bytes cut₁) (h₂ : IsCut cb bytes cut₂) :
    ∃ cb₁ cb₂, cbWriteSeq cb cut₁ = some cb₁ ∧ cbWriteSeq cb cut₂ = some cb₂ ∧
      cb₁.data.toArray = cb₂.data.toArray ∧ cb₁.write = cb₂.write ∧
      cb₁.read.toNat % cb.slots = cb₂.read.toNat % cb.slots ∧
      (0 < fullUps cb cut₁ ↔ 0 < fullUps cb cut₂) ∧
      (bytes.length < 2 ^ 64 → (cb₁.fullCnt ≠ cb.fullCnt ↔ cb₂.fullCnt ≠ cb.fullCnt)) := by
  obtain ⟨hb₁, hcut₁⟩ := h₁
  obtain ⟨hb₂, hcut₂⟩ := h₂
  obtain ⟨cb₁, hs₁, hw₁, hf₁, hle₁, hp₁⟩ := cbWriteSeq_wrote cb cut₁ hcut₁
  obtain ⟨cb₂, hs₂, hw₂, hf₂, hle₂, hp₂⟩ := cbWriteSeq_wrote cb cut₂ hcut₂
  rw [hb₁] at hw₁ hle₁ hp₁
  rw [hb₂] at hw₂ hle₂ hp₂
  have hslots : cb₁.slots = cb₂.slots := hw₁.slots.trans hw₂.slots.symm
  have hwrite : cb₁.write = cb₂.write := hw₁.write.trans hw₂.write.symm
  have hcount : cb₁.count = cb₂.count := hw₁.count.trans hw₂.count.symm
  have hups : 0 < fullUps cb cut₁ ↔ 0 < fullUps cb cut₂ := hp₁.trans hp₂.symm
  refine ⟨cb₁, cb₂, hs₁, hs₂, ?_, hwrite, ?_, hups, fun hlen => ?_⟩
  · exact data_eq_of_cells (hw₁.size.trans hw₂.size.symm) (hw₁.cells.trans hw₂.cells.symm)
  · have hread := read_mod_eq hslots hwrite hcount
    rwa [hw₂.slots] at hread
  · rw [hf₁, hf₂, ne_add_ofNat_iff (Nat.lt_of_le_of_lt hle₁ hlen),
      ne_add_ofNat_iff (Nat.lt_of_le_of_lt hle₂ hlen), hups]

/-- Five bytes on four slots, byte by byte and in two chunks. -/
theorem cbWrite_chunks_four :
    ∃ cb₁ cb₂, cbWriteSeq fourSlots [[1, 2, 3], [4, 5]] = some cb₁ ∧
      cbWriteSeq fourSlots [[1], [2], [3], [4], [5]] = some cb₂ ∧
      cb₁.data.toArray = cb₂.data.toArray ∧ cb₁.write = cb₂.write ∧
      cb₁.read.toNat % fourSlots.slots = cb₂.read.toNat % fourSlots.slots ∧
      (0 < fullUps fourSlots [[1, 2, 3], [4, 5]] ↔
        0 < fullUps fourSlots [[1], [2], [3], [4], [5]]) ∧
      ([1, 2, 3, 4, 5].length < 2 ^ 64 →
        (cb₁.fullCnt ≠ fourSlots.fullCnt ↔ cb₂.fullCnt ≠ fourSlots.fullCnt)) :=
  cbWrite_chunks fourSlots [1, 2, 3, 4, 5] _ _ (by decide) (by decide)

end DataCommons.CBuffer
