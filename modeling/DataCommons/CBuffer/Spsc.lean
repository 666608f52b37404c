import DataCommons.CBuffer.Accesses
import DataCommons.CBuffer.Accounting

/-!
# One producer and one consumer without a lock

`dma_th` (or `CbWrite` of two bytes and more) on one thread and the reads on
another, interleaved access by access (`CBuffer.Accesses`).  As long as the bytes not
yet read fit the buffer, no interleaving loses, repeats or reorders a byte: what the
reads returned is a prefix of what the producer was given.

The producer owns `stored`, `published`, `write`, `dma_cnt`, the consumer `consumed` and
`read`.  Each side reads the counter of the other only to see how far it has come at
least, and neither counter ever moves back; this is `spsc`.
-/

namespace DataCommons.CBuffer

open RingWindow RelyGuarantee CbT

/-- At most `size - 1` of the bytes stored are not given back yet. -/
def Shared.Fits (s : Shared) : Prop := s.stored ≤ s.consumed + (s.cb.slots - 1)

instance (s : Shared) : Decidable s.Fits := by unfold Shared.Fits; infer_instance

/-- Counters and memory agree with the numbers of bytes: the slots between what was
given back and what was stored hold the bytes of `stream` at these positions. -/
structure SpscInv (cb : CbT) (stream : List UInt8) (s : Shared) : Prop where
  size : s.cb.size = cb.size
  fits : s.Fits
  consumed_le : s.consumed ≤ s.published
  published_le : s.published ≤ s.stored
  read : s.cb.read.toNat ≡ s.consumed [MOD cb.slots]
  write : s.cb.write.toNat ≡ s.published [MOD cb.slots]
  fullCnt : s.cb.fullCnt = cb.fullCnt
  memory : ∀ p, s.consumed ≤ p → p < s.stored → stream[p]? = some (s.cb.cells (p % cb.slots))

/-- What the producer's actions may do. -/
structure ByProducer (s s' : Shared) : Prop where
  read : s'.cb.read = s.cb.read
  consumed : s'.consumed = s.consumed
  published : s.published ≤ s'.published
  stored : s.stored ≤ s'.stored

/-- What the consumer's actions may do. -/
structure ByConsumer (s s' : Shared) : Prop where
  write : s'.cb.write = s.cb.write
  dmaCnt : s'.cb.dmaCnt = s.cb.dmaCnt
  published : s'.published = s.published
  stored : s'.stored = s.stored
  consumed : s.consumed ≤ s'.consumed

/-- The two threads, seen from the producer. -/
def spsc (cb : CbT) (stream : List UInt8) : Protocol Shared where
  assume := Shared.Fits
  inv := SpscInv cb stream
  own := ByProducer
  other := ByConsumer
  own_refl _ := ⟨rfl, rfl, Nat.le_refl _, Nat.le_refl _⟩
  own_trans h h' := ⟨h'.read.trans h.read, h'.consumed.trans h.consumed,
    h.published.trans h'.published, h.stored.trans h'.stored⟩
  other_refl _ := ⟨rfl, rfl, rfl, rfl, Nat.le_refl _⟩
  other_trans h h' := ⟨h'.write.trans h.write, h'.dmaCnt.trans h.dmaCnt,
    h'.published.trans h.published, h'.stored.trans h.stored, h.consumed.trans h'.consumed⟩

namespace SpscInv

variable {cb : CbT} {stream : List UInt8} {s : Shared}

theorem slots (h : SpscInv cb stream s) : s.cb.slots = cb.slots := congrArg BitVec.toNat h.size

theorem mask (h : SpscInv cb stream s) : s.cb.mask = cb.mask := by
  rw [s.cb.maskEq, cb.maskEq, h.size]

theorem published_lt (h : SpscInv cb stream s) : s.published < s.consumed + cb.slots := by
  have hf := h.fits
  have hp := h.published_le
  have := cb.slots_pos
  rw [Shared.Fits, h.slots] at hf
  omega

/-- A byte between what was given back and what was stored. -/
theorem byteAt (h : SpscInv cb stream s) {v : SizeT} {p : ℕ} (hv : v.toNat ≡ p [MOD cb.slots])
    (hc : s.consumed ≤ p) (hp : p < s.stored) : stream[p]? = some (s.cb.byteAt v) := by
  rw [h.memory p hc hp, byteAt_eq, h.slots, show v.toNat % cb.slots = p % cb.slots from hv]

end SpscInv

/-! ## The consumer -/

section Consumer

variable (cb : CbT) (stream : List UInt8)

/-- The protocol, seen from the consumer. -/
abbrev reads : Protocol Shared := (spsc cb stream).swap

/-- What the consumer knows: its own counter, and that `q` bytes are published. -/
structure Reader (r : SizeT) (c q : ℕ) (s : Shared) : Prop where
  read : s.cb.read = r
  consumed : s.consumed = c
  le : c ≤ q
  published : q ≤ s.published

variable {cb stream} {r : SizeT} {c q : ℕ} {s s' : Shared}

theorem Reader.later (h : Reader r c q s) (hl : (reads cb stream).Later s s') : Reader r c q s' :=
  ⟨hl.1.read.trans h.read, hl.1.consumed.trans h.consumed, h.le, h.published.trans hl.1.published⟩

/-- The consumer sees at least as many bytes as before, and not more than are there. -/
theorem Reader.counters (h : Reader r c q s) (writeFirst : Bool) :
    (reads cb stream).Spec (fun wr s' => wr.2 = r ∧ ∃ q', Reader r c q' s' ∧ q ≤ q' ∧
      ((wr.1 - wr.2) &&& cb.mask).toNat = q' - c) (Access.counters writeFirst) s := by
  have key : ∀ {s₁ s₂ : Shared}, (reads cb stream).Later s s₁ → (reads cb stream).Later s₁ s₂ →
      r = r ∧ ∃ q', Reader r c q' s₂ ∧ q ≤ q' ∧
        ((s₁.cb.write - r) &&& cb.mask).toNat = q' - c := by
    intro s₁ s₂ h₁ h₂
    have hr := h.later h₁
    have hinv := h₁.2
    have hcq := hr.consumed
    have hle := hinv.consumed_le
    have hlt := hinv.published_lt
    refine ⟨rfl, s₁.published, ⟨(hr.later h₂).read, (hr.later h₂).consumed, by omega,
      h₂.1.published⟩, hr.published, ?_⟩
    apply cb.sub_and_mask_unique (by omega)
    have hread := hinv.read
    rw [hr.read, hcq] at hread
    refine (Nat.ModEq.add_right _ hread).trans ?_
    rw [show c + (s₁.published - c) = s₁.published by omega]
    exact hinv.write.symm
  cases writeFirst with
  | true =>
    refine .load_bind fun s₁ h₁ => .load_bind fun s₂ h₂ => .pure fun s₃ h₃ => ?_
    rw [((h.later h₁).later h₂).read]
    exact key h₁ (h₂.trans h₃)
  | false =>
    refine .load_bind fun s₁ h₁ => .load_bind fun s₂ h₂ => .pure fun s₃ h₃ => ?_
    rw [(h.later h₁).read]
    exact key (h₁.trans h₂) h₃

theorem Reader.cbIsEmpty (h : Reader r c q s) (writeFirst : Bool) :
    (reads cb stream).Spec (fun e s' => ∃ q', Reader r c q' s' ∧ q ≤ q' ∧ (e = true ↔ q' = c))
      (Access.cbIsEmpty cb.mask writeFirst) s := by
  refine .bind ((h.counters writeFirst).mono ?_)
  rintro ⟨w, r'⟩ s₁ hinv ⟨hr', q', hr, hq, hd⟩
  obtain rfl : r = r' := hr'.symm
  change ((w - r) &&& cb.mask).toNat = q' - c at hd
  refine .pure fun s₂ h₂ => ⟨q', hr.later h₂, hq, ?_⟩
  have hle := hr.le
  have hmod := cb.sub_and_mask_modEq r w
  rw [hd] at hmod
  rw [beq_iff_eq, ← BitVec.toNat_inj, cb.and_mask_toNat, cb.and_mask_toNat]
  constructor
  · intro heq
    have := cb.sub_and_mask_unique cb.slots_pos (v := r) (w := w) (Nat.ModEq.symm heq)
    omega
  · intro heq
    rw [heq, Nat.sub_self, Nat.add_zero] at hmod
    exact hmod.symm

theorem Reader.cbDataCount (h : Reader r c q s) (writeFirst : Bool) :
    (reads cb stream).Spec (fun n s' => ∃ q', Reader r c q' s' ∧ q ≤ q' ∧ n.toNat = q' - c)
      (Access.cbDataCount cb.mask writeFirst) s := by
  refine .bind ((h.counters writeFirst).mono ?_)
  rintro ⟨w, r'⟩ s₁ hinv ⟨hr', q', hr, hq, hd⟩
  obtain rfl : r = r' := hr'.symm
  exact .pure fun s₂ h₂ => ⟨q', hr.later h₂, hq, hd⟩

theorem SpscInv.setRead (h : SpscInv cb stream s) {num : SizeT}
    (hn : s.consumed + num.toNat ≤ s.published) :
    SpscInv cb stream { s with cb := { s.cb with read := s.cb.read + num },
                               consumed := s.consumed + num.toNat } where
  size := h.size
  fits := Nat.le_trans h.fits (Nat.add_le_add_right (Nat.le_add_right _ _) _)
  consumed_le := hn
  published_le := h.published_le
  read := (cb.toNat_add_modEq s.cb.read num).trans (Nat.ModEq.add_right _ h.read)
  write := h.write
  fullCnt := h.fullCnt
  memory p hlo hhi := h.memory p (Nat.le_trans (Nat.le_add_right _ _) hlo) hhi

theorem SpscInv.setReadLast (h : SpscInv cb stream s) (v : SizeT) :
    SpscInv cb stream { s with cb := { s.cb with readLast := v } } :=
  ⟨h.size, h.fits, h.consumed_le, h.published_le, h.read, h.write, h.fullCnt, h.memory⟩

theorem Reader.advanceRead (h : Reader r c q s) (num : SizeT) (hn : c + num.toNat ≤ q) :
    (reads cb stream).Spec (fun _ s' => Reader (r + num) (c + num.toNat) q s')
      (Access.advanceRead num) s := by
  refine .load_bind fun s₁ h₁ => .modify_bind fun s₂ h₂ _ => ?_
  have hr := (h.later h₁).later h₂
  have hc := hr.consumed
  have hp := hr.published
  rw [(h.later h₁).read, ← hr.read]
  refine ⟨h₂.2.setRead (by omega), ⟨rfl, rfl, rfl, rfl, Nat.le_add_right _ _⟩, ?_⟩
  have hnew : Reader (s₂.cb.read + num) (c + num.toNat) q { s₂ with
      cb := { s₂.cb with read := s₂.cb.read + num }, consumed := s₂.consumed + num.toNat } :=
    ⟨rfl, by rw [hc], hn, hp⟩
  refine .load_bind fun s₃ h₃ => .modify_bind fun s₄ h₄ _ =>
    ⟨h₄.2.setReadLast _, ⟨rfl, rfl, rfl, rfl, Nat.le_refl _⟩, fun s₅ h₅ => ?_⟩
  have hlast := (hnew.later h₃).later h₄
  exact Reader.later (s := { s₄ with cb := { s₄.cb with readLast := s₃.cb.read } })
    ⟨hlast.read, hlast.consumed, hlast.le, hlast.published⟩ h₅

theorem Reader.cbReadInc (h : Reader r c q s) (writeFirst : Bool) (num : SizeT)
    (hn : c + num.toNat ≤ q) :
    (reads cb stream).Spec (fun _ s' => Reader (r + num) (c + num.toNat) q s')
      (Access.cbReadInc cb.mask writeFirst num) s := by
  refine .bind ((h.cbDataCount writeFirst).mono fun avail s₁ hinv ⟨q', hr, hq, ha⟩ => ?_)
  have hle : ¬ num > avail := by
    rw [gt_iff_lt, BitVec.lt_def]
    omega
  rw [if_neg hle]
  exact Reader.advanceRead ⟨hr.read, hr.consumed, by omega, by have := hr.published; omega⟩ num hn

/-- A published byte that is not given back is the byte of the stream there. -/
theorem Reader.byte (h : Reader r c q s) {v : SizeT} {k : ℕ} (hv : v.toNat ≡ k [MOD cb.slots])
    (hc : c ≤ k) (hk : k < q) :
    (reads cb stream).Spec (fun x s' => Reader r c q s' ∧ stream[k]? = some x) (Access.byte v) s := by
  refine .load (fun s₁ h₁ => ?_) fun x s₁ s₂ h₁ h₂ => ⟨h₁.1.later h₂, h₁.2⟩
  have hr := h.later h₁
  have hcq := hr.consumed
  have hp := hr.published
  have hst := h₁.2.published_le
  exact ⟨hr, h₁.2.byteAt hv (by omega) (by omega)⟩

theorem Reader.cbLoad (h : Reader r c q s) {v : SizeT} {k n : ℕ}
    (hv : v.toNat ≡ k [MOD cb.slots]) (hc : c ≤ k) (hn : k + n ≤ q) :
    (reads cb stream).Spec (fun out s' => Reader r c q s' ∧ out.length = n ∧
      out = (stream.drop k).take n) (Access.cbLoad v n) s := by
  induction n generalizing s v k with
  | zero => exact .pure fun s₁ h₁ => ⟨h.later h₁, rfl, rfl⟩
  | succ n ih =>
    refine .bind ((h.byte hv hc (by omega)).mono fun x s₁ _ ⟨h₁, hx⟩ => ?_)
    have hv' := (cb.toNat_succ_modEq v).trans (Nat.ModEq.add_right 1 hv)
    refine .bind ((ih h₁ hv' (by omega) (by omega)).mono fun xs s₂ _ ⟨h₂, hlen, hxs⟩ => ?_)
    refine .pure fun s₃ h₃ => ⟨h₂.later h₃, by rw [List.length_cons, hlen], ?_⟩
    obtain ⟨hk, rfl⟩ := List.getElem?_eq_some_iff.mp hx
    rw [List.drop_eq_getElem_cons hk, List.take_succ_cons, ← hxs]

theorem Reader.cbLoadUntil (h : Reader r c q s) (byte' : UInt8) {v : SizeT} {k n : ℕ}
    (hv : v.toNat ≡ k [MOD cb.slots]) (hc : c ≤ k) (hn : k + n ≤ q) :
    (reads cb stream).Spec (fun out s' => Reader r c q s' ∧ out.length ≤ n ∧
      out = (stream.drop k).take out.length) (Access.cbLoadUntil v byte' n) s := by
  induction n generalizing s v k with
  | zero => exact .pure fun s₁ h₁ => ⟨h.later h₁, Nat.le_refl _, rfl⟩
  | succ n ih =>
    refine .bind ((h.byte hv hc (by omega)).mono fun x s₁ _ ⟨h₁, hx⟩ => ?_)
    obtain ⟨hk, hxk⟩ := List.getElem?_eq_some_iff.mp hx
    have hdrop : stream.drop k = x :: stream.drop (k + 1) := by
      rw [List.drop_eq_getElem_cons hk, hxk]
    split
    · refine .pure fun s₂ h₂ => ⟨h₁.later h₂, by simp, ?_⟩
      rw [hdrop]
      rfl
    · have hv' := (cb.toNat_succ_modEq v).trans (Nat.ModEq.add_right 1 hv)
      refine .bind ((ih h₁ hv' (by omega) (by omega)).mono fun xs s₂ _ ⟨h₂, hlen, hxs⟩ => ?_)
      refine .pure fun s₃ h₃ => ⟨h₂.later h₃, by rw [List.length_cons]; omega, ?_⟩
      rw [hdrop, List.length_cons, List.take_succ_cons, ← hxs]

/-! ### The reads -/

/-- The next bytes of the stream were read and given back. -/
structure Taken (stream : List UInt8) (c : ℕ) (out : List UInt8) (s : Shared) : Prop where
  consumed : s.consumed = c + out.length
  out_eq : out = (stream.drop c).take out.length

theorem Taken.later {out : List UInt8} (h : Taken stream c out s)
    (hl : (reads cb stream).Later s s') : Taken stream c out s' :=
  ⟨hl.1.consumed.trans h.consumed, h.out_eq⟩

theorem Taken.nil (h : s.consumed = c) : Taken stream c [] s := ⟨h, rfl⟩

theorem Taken.append {out out' : List UInt8} (h : Taken stream c out s)
    (h' : Taken stream (c + out.length) out' s') : Taken stream c (out ++ out') s' := by
  refine ⟨by rw [h'.consumed, List.length_append, Nat.add_assoc], ?_⟩
  conv_lhs => rw [h.out_eq, h'.out_eq]
  rw [List.length_append, List.take_add, List.drop_drop, ← h.out_eq]

theorem Reader.of_inv (h : SpscInv cb stream s) : Reader s.cb.read s.consumed s.published s :=
  ⟨rfl, rfl, h.consumed_le, Nat.le_refl _⟩

theorem SpscInv.reader_modEq (h : SpscInv cb stream s) (hr : Reader r c q s) :
    r.toNat ≡ c [MOD cb.slots] := by
  rw [← hr.read, ← hr.consumed]
  exact h.read

/-- **`CbRead` beside a producer.** -/
theorem cbRead_spec (o : Access.Order) {n : SizeT} (hn : n ≠ 0) (hc : s.consumed = c) :
    (reads cb stream).Spec (fun out s' => Taken stream c out.1 s' ∧ out.2.toNat = out.1.length)
      (Access.cbRead cb.mask o n) s := by
  unfold Access.cbRead
  rw [if_neg hn]
  refine .of_later fun s₁ h₁ => ?_
  obtain rfl : s₁.consumed = c := h₁.1.consumed.trans hc
  have hr := Reader.of_inv h₁.2
  refine .bind ((hr.cbIsEmpty o.isEmpty).mono fun e s₂ hinv ⟨q, hq, _, he⟩ => ?_)
  have hle := hq.le
  have hrm := hinv.reader_modEq hq
  cases e with
  | true => exact .pure fun s₃ h₃ => ⟨.nil (hq.later h₃).consumed, rfl⟩
  | false =>
    have hlt : s₁.consumed < q := by
      have : q ≠ s₁.consumed := fun h => Bool.false_ne_true (he.mpr h)
      omega
    by_cases h1 : n = 1
    · rw [if_neg Bool.false_ne_true, if_pos h1]
      refine .load_bind fun s₃ h₃ => ?_
      rw [(hq.later h₃).read]
      refine .bind (((hq.later h₃).byte hrm (Nat.le_refl _) hlt).mono fun x s₄ _ ⟨h₄, hx⟩ => ?_)
      refine .bind ((h₄.advanceRead 1 hlt).mono fun _ s₅ _ h₅ => ?_)
      refine .pure fun s₆ h₆ => ⟨⟨(h₅.later h₆).consumed, ?_⟩, rfl⟩
      obtain ⟨hk, hxk⟩ := List.getElem?_eq_some_iff.mp hx
      rw [List.drop_eq_getElem_cons hk, hxk]
      rfl
    · rw [if_neg Bool.false_ne_true, if_neg h1]
      refine .bind ((hq.cbDataCount o.count).mono fun avail s₃ _ ⟨q', hq', _, ha⟩ => ?_)
      have hnum : s₁.consumed + (if avail < n then avail else n).toNat ≤ q' := by
        have hle' := hq'.le
        split
        · omega
        · rename_i h
          rw [BitVec.lt_def] at h
          omega
      generalize (if avail < n then avail else n) = num at hnum
      refine .load_bind fun s₄ h₄ => ?_
      rw [(hq'.later h₄).read]
      refine .bind (((hq'.later h₄).cbLoad hrm (Nat.le_refl _) hnum).mono
        fun out s₅ _ ⟨h₅, hlen, hout⟩ => ?_)
      refine .bind ((h₅.cbReadInc o.inc num hnum).mono fun _ s₆ _ h₆ => ?_)
      exact .pure fun s₇ h₇ =>
        ⟨⟨by rw [(h₆.later h₇).consumed, hlen], by rw [hlen]; exact hout⟩, hlen.symm⟩

/-- **`CbReadUntil` beside a producer.** -/
theorem cbReadUntil_spec (o : Access.Order) {max : SizeT} (byte' : UInt8) (hmax : max ≠ 0)
    (hc : s.consumed = c) :
    (reads cb stream).Spec (fun out s' => Taken stream c out.1 s' ∧ out.2.toNat = out.1.length)
      (Access.cbReadUntil cb.mask o max byte') s := by
  unfold Access.cbReadUntil
  rw [if_neg hmax]
  refine .of_later fun s₁ h₁ => ?_
  obtain rfl : s₁.consumed = c := h₁.1.consumed.trans hc
  refine .bind (((Reader.of_inv h₁.2).cbIsEmpty o.isEmpty).mono fun e s₂ hinv ⟨q, hq, _, he⟩ => ?_)
  have hrm := hinv.reader_modEq hq
  cases e with
  | true => exact .pure fun s₃ h₃ => ⟨.nil (hq.later h₃).consumed, rfl⟩
  | false =>
    rw [if_neg Bool.false_ne_true]
    refine .bind ((hq.cbDataCount o.count).mono fun avail s₃ _ ⟨q', hq', _, ha⟩ => ?_)
    have hnum : s₁.consumed + (if max > avail then avail else max).toNat ≤ q' := by
      have hle' := hq'.le
      split
      · omega
      · rename_i h
        rw [gt_iff_lt, BitVec.lt_def] at h
        omega
    generalize (if max > avail then avail else max) = num at hnum
    refine .load_bind fun s₄ h₄ => ?_
    rw [(hq'.later h₄).read]
    refine .bind (((hq'.later h₄).cbLoadUntil byte' hrm (Nat.le_refl _) hnum).mono
      fun out s₅ _ ⟨h₅, hlen, hout⟩ => ?_)
    have hi : (BitVec.ofNat 64 out.length).toNat = out.length := by
      have := num.isLt
      rw [BitVec.toNat_ofNat]
      exact Nat.mod_eq_of_lt (by omega)
    refine .bind ((h₅.cbReadInc o.inc (BitVec.ofNat 64 out.length) (by omega)).mono
      fun _ s₆ _ h₆ => ?_)
    exact .pure fun s₇ h₇ => ⟨⟨by rw [(h₆.later h₇).consumed, hi], hout⟩, hi⟩

inductive ReadCall
  | read (o : Access.Order) (n : SizeT)
  | readUntil (o : Access.Order) (max : SizeT) (byte : UInt8)

/-- The length is not zero, as `CB_ASSERT` wants. -/
def ReadCall.Ok : ReadCall → Prop
  | read _ n => n ≠ 0
  | readUntil _ max _ => max ≠ 0

def ReadCall.prog (mask : SizeT) : ReadCall → Prog Shared (List UInt8 × SizeT)
  | read o n => Access.cbRead mask o n
  | readUntil o max byte => Access.cbReadUntil mask o max byte

/-- The consumer thread: its calls in order, and all bytes they returned. -/
def consumer (mask : SizeT) : List ReadCall → Prog Shared (List UInt8)
  | [] => pure []
  | call :: calls => do
    let (out, _) ← call.prog mask
    let outs ← consumer mask calls
    pure (out ++ outs)

theorem ReadCall.spec {call : ReadCall} (hok : call.Ok) (hc : s.consumed = c) :
    (reads cb stream).Spec (fun out s' => Taken stream c out.1 s' ∧ out.2.toNat = out.1.length)
      (call.prog cb.mask) s := by
  cases call with
  | read o n => exact cbRead_spec o hok hc
  | readUntil o max byte => exact cbReadUntil_spec o byte hok hc

theorem consumer_spec {calls : List ReadCall} (hok : ∀ call ∈ calls, call.Ok)
    (hc : s.consumed = c) :
    (reads cb stream).Spec (Taken stream c) (consumer cb.mask calls) s := by
  induction calls generalizing s c with
  | nil => exact .pure fun s₁ h₁ => .nil (h₁.1.consumed.trans hc)
  | cons call calls ih =>
    refine .bind ((ReadCall.spec (hok call (List.mem_cons_self ..)) hc).mono
      fun out s₁ _ ⟨h₁, _⟩ => ?_)
    refine .bind ((ih (fun b hb => hok b (List.mem_cons_of_mem _ hb)) h₁.consumed).mono
      fun outs s₂ _ h₂ => ?_)
    exact .pure fun s₃ h₃ => h₁.append (h₂.later h₃)

end Consumer

/-! ## The producer -/

section Producer

/-- What the producer knows: `k` bytes are stored, `p` published, and `dma_cnt` is `d`. -/
structure Writer (k p : ℕ) (d : SizeT) (s : Shared) : Prop where
  stored : s.stored = k
  published : s.published = p
  dmaCnt : s.cb.dmaCnt = d

variable {cb : CbT} {stream : List UInt8} {k p : ℕ} {d : SizeT} {s s' : Shared}

theorem Writer.later (h : Writer k p d s) (hl : (spsc cb stream).Later s s') : Writer k p d s' :=
  ⟨hl.1.stored.trans h.stored, hl.1.published.trans h.published, hl.1.dmaCnt.trans h.dmaCnt⟩

/-- Storing the next byte of the stream in its slot. -/
theorem SpscInv.store (h : SpscInv cb stream s) {cb' : CbT} {x : UInt8}
    (hfit : s.stored + 1 ≤ s.consumed + (cb.slots - 1)) (hx : stream[s.stored]? = some x)
    (hsize : cb'.size = s.cb.size) (hread : cb'.read = s.cb.read) (hwrite : cb'.write = s.cb.write)
    (hfull : cb'.fullCnt = s.cb.fullCnt) (hcells : cb'.cells = put cb.slots s.cb.cells s.stored x) :
    SpscInv cb stream { s with cb := cb', stored := s.stored + 1 } where
  size := hsize.trans h.size
  fits := by
    change s.stored + 1 ≤ s.consumed + (cb'.slots - 1)
    rwa [show cb'.slots = cb.slots from congrArg BitVec.toNat (hsize.trans h.size)]
  consumed_le := h.consumed_le
  published_le := Nat.le_succ_of_le h.published_le
  read := by
    change cb'.read.toNat ≡ _ [MOD _]
    rw [hread]
    exact h.read
  write := by
    change cb'.write.toNat ≡ _ [MOD _]
    rw [hwrite]
    exact h.write
  fullCnt := hfull.trans h.fullCnt
  memory q hlo hhi := by
    change s.consumed ≤ q at hlo
    change q < s.stored + 1 at hhi
    change stream[q]? = some (cb'.cells (q % cb.slots))
    rw [hcells]
    by_cases hq : q = s.stored
    · rw [hq, hx, put_self]
    · -- the other slots are less than one revolution behind
      rw [put_of_ne _ _ (mod_ne_of_lt (by omega) (by omega))]
      exact h.memory q hlo (by omega)

/-- The bytes a producer was given, one at a time. -/
theorem prefix_next {x : UInt8} {xs : List UInt8} (h : x :: xs <+: stream.drop k) :
    stream[k]? = some x ∧ xs <+: stream.drop (k + 1) := by
  obtain ⟨t, ht⟩ := h
  constructor
  · rw [← Nat.add_zero k, ← List.getElem?_drop, ← ht]
    rfl
  · rw [← List.drop_drop, ← ht]
    exact ⟨t, rfl⟩

theorem Writer.store (h : Writer k p d s) (cb' : CbT) {x : UInt8} (hinv : SpscInv cb stream s)
    (hfit : k + 1 ≤ s.consumed + (cb.slots - 1)) (hx : stream[k]? = some x)
    (hsize : cb'.size = s.cb.size) (hread : cb'.read = s.cb.read) (hwrite : cb'.write = s.cb.write)
    (hfull : cb'.fullCnt = s.cb.fullCnt) (hdma : cb'.dmaCnt = s.cb.dmaCnt)
    (hcells : cb'.cells = put cb.slots s.cb.cells k x) :
    SpscInv cb stream { s with cb := cb', stored := s.stored + 1 } ∧
      ByProducer s { s with cb := cb', stored := s.stored + 1 } ∧
      Writer (k + 1) p d { s with cb := cb', stored := s.stored + 1 } := by
  obtain rfl := h.stored
  exact ⟨hinv.store hfit hx hsize hread hwrite hfull hcells,
    ⟨hread, rfl, Nat.le_refl _, Nat.le_succ _⟩, ⟨rfl, h.published, hdma.trans h.dmaCnt⟩⟩

theorem Writer.setByte (h : Writer k p d s) {v : SizeT} {x : UInt8}
    (hv : v.toNat ≡ k [MOD cb.slots]) (hx : stream[k]? = some x) :
    (spsc cb stream).Spec (fun _ s' => Writer (k + 1) p d s') (Access.setByte v x) s := by
  intro s₁ h₁ ha
  have hw := h.later h₁
  have hslots := h₁.2.slots
  have hfit : s₁.stored + 1 ≤ s₁.consumed + (s₁.cb.slots - 1) := ha
  rw [hw.stored, hslots] at hfit
  have hcells : (s₁.cb.setByte v x).cells = put cb.slots s₁.cb.cells k x := by
    rw [setByte_cells, hslots]
    unfold put
    rw [show v.toNat % cb.slots = k % cb.slots from hv]
  obtain ⟨hinv, hby, hnew⟩ := hw.store (s₁.cb.setByte v x) h₁.2 hfit hx rfl rfl rfl rfl rfl hcells
  exact ⟨hinv, hby, fun s₂ h₂ => hnew.later h₂⟩

theorem Writer.setSlot (h : Writer k p d s) {i : BitVec 32} {x : UInt8}
    (hi : i.toNat = k % cb.slots) (hx : stream[k]? = some x) :
    (spsc cb stream).Spec (fun _ s' => Writer (k + 1) p d s') (Access.setSlot i x) s := by
  intro s₁ h₁ ha
  have hw := h.later h₁
  have hslots := h₁.2.slots
  have hlt : i.toNat < s₁.cb.size.toNat := by
    change i.toNat < s₁.cb.slots
    rw [hslots, hi]
    exact Nat.mod_lt _ cb.slots_pos
  have hset : inBufferSet s₁.cb i x = some { s₁.cb with data := s₁.cb.data.set i.toNat x hlt } :=
    dif_pos hlt
  simp only [hset, Option.getD_some, Option.isSome_some, ↓reduceIte] at ha ⊢
  have hfit : s₁.stored + 1 ≤ s₁.consumed + (s₁.cb.slots - 1) := ha
  rw [hw.stored, hslots] at hfit
  have hcells : CbT.cells { s₁.cb with data := s₁.cb.data.set i.toNat x hlt } =
      put cb.slots s₁.cb.cells k x := by
    rw [cells_set, hi]
    rfl
  obtain ⟨hinv, hby, hnew⟩ := hw.store
    { s₁.cb with data := s₁.cb.data.set i.toNat x hlt } h₁.2 hfit hx rfl rfl rfl rfl rfl hcells
  exact ⟨hinv, hby, fun s₂ h₂ => hnew.later h₂⟩

theorem Writer.cbStore (h : Writer k p d s) {v : SizeT} {xs : List UInt8}
    (hv : v.toNat ≡ k [MOD cb.slots]) (hxs : xs <+: stream.drop k) :
    (spsc cb stream).Spec (fun _ s' => Writer (k + xs.length) p d s') (Access.cbStore v xs) s := by
  induction xs generalizing s v k with
  | nil => exact .pure fun s₁ h₁ => h.later h₁
  | cons x xs ih =>
    obtain ⟨hx, hrest⟩ := prefix_next hxs
    refine .bind ((h.setByte hv hx).mono fun _ s₁ _ h₁ => ?_)
    rw [List.length_cons, Nat.add_comm xs.length, ← Nat.add_assoc]
    exact ih h₁ ((cb.toNat_succ_modEq v).trans (Nat.ModEq.add_right 1 hv)) hrest

/-- A copy loop of `dma_th` that does not pass the end of the array. -/
theorem Writer.inBufferSetAll (h : Writer k p d s) (hsize : cb.slots ≤ 2 ^ 30) {i : BitVec 32}
    {xs : List UInt8} (hi : i.toNat ≡ k [MOD cb.slots]) (hend : i.toNat + xs.length ≤ cb.slots)
    (hxs : xs <+: stream.drop k) :
    (spsc cb stream).Spec (fun _ s' => Writer (k + xs.length) p d s')
      (Access.inBufferSetAll i xs) s := by
  induction xs generalizing s i k with
  | nil => exact .pure fun s₁ h₁ => h.later h₁
  | cons x xs ih =>
    obtain ⟨hx, hrest⟩ := prefix_next hxs
    rw [List.length_cons] at hend ⊢
    have hslot : i.toNat = k % cb.slots := by
      rw [← show i.toNat % cb.slots = k % cb.slots from hi]
      exact (Nat.mod_eq_of_lt (by omega)).symm
    have hsucc : (i + 1).toNat = i.toNat + 1 := by
      rw [BitVec.toNat_add]
      exact Nat.mod_eq_of_lt (by simp; omega)
    refine .bind ((h.setSlot hslot hx).mono fun _ s₁ _ h₁ => ?_)
    rw [Nat.add_comm xs.length, ← Nat.add_assoc]
    refine ih h₁ ?_ (by omega) hrest
    rw [hsucc]
    exact Nat.ModEq.add_right 1 hi

/-- Both copy loops: up to the end of the array, the rest from its start. -/
theorem Writer.inBufferCopy (h : Writer k p d s) (hsize : cb.slots ≤ 2 ^ 30) {i : BitVec 32}
    {xs : List UInt8} (hi : i.toNat = k % cb.slots) (hlt : xs.length < cb.slots)
    (hxs : xs <+: stream.drop k) :
    (spsc cb stream).Spec (fun _ s' => Writer (k + xs.length) p d s')
      (Access.inBufferCopy cb.size i xs) s := by
  have hbuf := bufferSz_toNat cb hsize
  have hik : i.toNat ≡ k [MOD cb.slots] := by
    rw [hi]
    exact Nat.mod_modEq _ _
  have hil : i.toNat < cb.slots := hi ▸ Nat.mod_lt _ cb.slots_pos
  have hlen : (BitVec.ofNat 32 xs.length).toNat = xs.length := by
    rw [BitVec.toNat_ofNat]
    exact Nat.mod_eq_of_lt (by omega)
  have hend : (cb.size.truncate 32 - i).toNat = cb.slots - i.toNat := by
    rw [BitVec.toNat_sub_of_le (by rw [BitVec.le_def, hbuf]; omega), hbuf]
  unfold Access.inBufferCopy
  dsimp only
  by_cases hcut : BitVec.ofNat 32 xs.length < cb.size.truncate 32 - i
  · rw [if_pos hcut, if_neg (BitVec.lt_irrefl _), hlen, List.take_length]
    rw [BitVec.lt_def, hlen, hend] at hcut
    refine .bind ((h.inBufferSetAll hsize hik (by omega) hxs).mono fun _ s₁ _ h₁ => ?_)
    exact .pure fun s₂ h₂ => h₁.later h₂
  · rw [if_neg hcut, hend]
    rw [BitVec.lt_def, hlen, hend] at hcut
    generalize hn : cb.slots - i.toNat = n at hcut hend
    have htake : (xs.take n).length = n := List.length_take_of_le (by omega)
    have hfirst : xs.take n <+: stream.drop k := (List.take_prefix n xs).trans hxs
    refine .bind ((h.inBufferSetAll hsize hik (by omega) hfirst).mono fun _ s₁ _ h₁ => ?_)
    rw [htake] at h₁
    split
    · have hrest : xs.drop n <+: stream.drop (k + n) := by
        obtain ⟨t, ht⟩ := hxs
        rw [← List.drop_drop, ← ht, List.drop_append_of_le_length (by omega)]
        exact List.prefix_append _ _
      have hzero : (0 : BitVec 32).toNat ≡ k + n [MOD cb.slots] := by
        have hround : k + n ≡ i.toNat + n [MOD cb.slots] := Nat.ModEq.add_right n hik.symm
        rw [show i.toNat + n = cb.slots by omega] at hround
        exact (hround.trans (Nat.modEq_zero_iff_dvd.mpr (Nat.dvd_refl _))).symm
      have hlast := h₁.inBufferSetAll hsize hzero (by simp; omega) hrest
      rwa [List.length_drop, Nat.add_assoc, show n + (xs.length - n) = xs.length by omega] at hlast
    · rename_i hle
      rw [gt_iff_lt, BitVec.lt_def, hlen, hend] at hle
      refine .pure fun s₂ h₂ => ?_
      rw [show xs.length = n by omega]
      exact h₁.later h₂

/-- The producer sees at most the free slots that are there, and those for all stored bytes. -/
theorem Writer.counters (h : Writer k p d s) (writeFirst : Bool) :
    (spsc cb stream).Spec (fun wr s' => Writer k p d s' ∧ ∃ c, c ≤ p ∧ k ≤ c + (cb.slots - 1) ∧
      wr.2.toNat + (p - c) ≡ wr.1.toNat [MOD cb.slots]) (Access.counters writeFirst) s := by
  have key : ∀ {s₁ s₂ : Shared}, (spsc cb stream).Later s s₁ → (spsc cb stream).Later s s₂ →
      ∃ c, c ≤ p ∧ k ≤ c + (cb.slots - 1) ∧
        s₂.cb.read.toNat + (p - c) ≡ s₁.cb.write.toNat [MOD cb.slots] := by
    intro s₁ s₂ h₁ h₂
    have hw₁ := (h.later h₁).published
    have hw₂ := h.later h₂
    have hfit := h₂.2.fits
    have hle := h₂.2.consumed_le
    rw [Shared.Fits, h₂.2.slots, hw₂.stored] at hfit
    rw [hw₂.published] at hle
    refine ⟨s₂.consumed, hle, hfit, ?_⟩
    refine (Nat.ModEq.add_right _ h₂.2.read).trans ?_
    rw [show s₂.consumed + (p - s₂.consumed) = p by omega, ← hw₁]
    exact h₁.2.write.symm
  cases writeFirst with
  | true =>
    exact .load_bind fun s₁ h₁ => .load_bind fun s₂ h₂ => .pure fun s₃ h₃ =>
      ⟨((h.later h₁).later h₂).later h₃, key h₁ (h₁.trans h₂)⟩
  | false =>
    exact .load_bind fun s₁ h₁ => .load_bind fun s₂ h₂ => .pure fun s₃ h₃ =>
      ⟨((h.later h₁).later h₂).later h₃, key (h₁.trans h₂) h₁⟩

theorem Writer.cbEmptyCount (h : Writer k p d s) (hpk : p ≤ k) (writeFirst : Bool) :
    (spsc cb stream).Spec (fun gap s' => Writer k p d s' ∧ k - p ≤ gap.toNat)
      (Access.cbEmptyCount cb.mask writeFirst) s := by
  refine .bind ((h.counters writeFirst).mono fun wr s₁ _ ⟨h₁, c, hc, hk, hmod⟩ => ?_)
  refine .pure fun s₂ h₂ => ⟨h₁.later h₂, ?_⟩
  have hd := cb.sub_and_mask_unique (by have := cb.slots_pos; omega) hmod
  have hm := cb.mask_toNat
  rw [BitVec.toNat_sub_of_le (by rw [BitVec.le_def, hd, hm]; omega), hd, hm]
  omega

theorem SpscInv.setWrite (h : SpscInv cb stream s) {num : SizeT}
    (hn : s.published + num.toNat ≤ s.stored) :
    SpscInv cb stream { s with cb := { s.cb with write := s.cb.write + num },
                               published := s.published + num.toNat } where
  size := h.size
  fits := h.fits
  consumed_le := h.consumed_le.trans (Nat.le_add_right _ _)
  published_le := hn
  read := h.read
  write := (cb.toNat_add_modEq s.cb.write num).trans (Nat.ModEq.add_right _ h.write)
  fullCnt := h.fullCnt
  memory := h.memory

theorem SpscInv.setDmaCnt (h : SpscInv cb stream s) (v : SizeT) :
    SpscInv cb stream { s with cb := { s.cb with dmaCnt := v } } :=
  ⟨h.size, h.fits, h.consumed_le, h.published_le, h.read, h.write, h.fullCnt, h.memory⟩

/-- **`CbWriteInc` beside a consumer.**  It publishes what is stored and never overruns. -/
theorem Writer.cbWriteInc (h : Writer k p d s) (writeFirst : Bool) {num : SizeT}
    (hn : p + num.toNat = k) :
    (spsc cb stream).Spec (fun _ s' => Writer k k d s')
      (Access.cbWriteInc cb.mask writeFirst num) s := by
  refine .bind ((h.cbEmptyCount (by omega) writeFirst).mono fun gap s₁ _ ⟨h₁, hgap⟩ => ?_)
  refine .load_bind fun s₂ h₂ => .modify_bind fun s₃ h₃ _ => ?_
  have hw := (h₁.later h₂).later h₃
  have hst := hw.stored
  have hpb := hw.published
  rw [← h₃.1.write]
  refine ⟨h₃.2.setWrite (by omega), ⟨rfl, rfl, Nat.le_add_right _ _, Nat.le_refl _⟩, ?_⟩
  have hle : ¬ num > gap := by
    rw [gt_iff_lt, BitVec.lt_def]
    omega
  rw [if_neg hle]
  refine .pure fun s₄ h₄ => Writer.later (s := { s₃ with
    cb := { s₃.cb with write := s₃.cb.write + num }, published := s₃.published + num.toNat }) ?_ h₄
  exact ⟨hst, by rw [hpb, hn], hw.dmaCnt⟩

/-- `CbDmaWrInc` with an `ndtr` at the position of the stored bytes. -/
theorem Writer.cbDmaWrInc (h : Writer k p d s) (hsize : cb.slots ≤ 2 ^ 30) (hpk : p ≤ k)
    (hkp : k < p + cb.slots) (hd : d.toNat ≡ p [MOD cb.slots]) (writeFirst : Bool)
    {ndtr : BitVec 32} (hn : NdtrMatches cb k ndtr) :
    (spsc cb stream).Spec (fun _ s' => ∃ d', Writer k k d' s' ∧ d'.toNat = k % cb.slots)
      (Access.cbDmaWrInc cb.mask cb.size writeFirst ndtr) s := by
  have hle := ndtr_le cb hn
  obtain ⟨hslt, hext⟩ := signExtend_toNat (hle.trans hsize)
  have hgt : ¬ ndtr.signExtend 64 > cb.size := by
    rw [gt_iff_lt, BitVec.lt_def, hext]
    exact Nat.not_lt.mpr hle
  have hprod := produced_toNat cb hsize hn
  unfold Access.cbDmaWrInc
  simp only [hslt, Bool.false_eq_true, ↓reduceIte, hgt]
  generalize (cb.size - ndtr.signExtend 64) &&& cb.mask = produced at hprod
  refine .load_bind fun s₁ h₁ => .modify_bind fun s₂ h₂ _ => ?_
  have hw := (h.later h₁).later h₂
  rw [(h.later h₁).dmaCnt]
  refine ⟨h₂.2.setDmaCnt _, ⟨rfl, rfl, Nat.le_refl _, Nat.le_refl _⟩, ?_⟩
  -- the masked difference of the two positions is the number of new bytes
  have hdelta : ((produced - d) &&& cb.mask).toNat = k - p := by
    apply cb.sub_and_mask_unique (by omega)
    refine (Nat.ModEq.add_right _ hd).trans ?_
    rw [show p + (k - p) = k by omega, hprod]
    exact (Nat.mod_modEq _ _).symm
  have hnew : Writer k p produced { s₂ with cb := { s₂.cb with dmaCnt := produced } } :=
    ⟨hw.stored, hw.published, rfl⟩
  exact (hnew.cbWriteInc writeFirst (by omega)).mono fun _ s₃ _ h₃ => ⟨produced, h₃, hprod⟩

/-- All stored bytes are published and `dma_cnt` and `ndtr` stand behind them. -/
structure DmaIdle (cb : CbT) (k : ℕ) (ndtr : BitVec 32) (s : Shared) : Prop where
  writer : ∃ d, Writer k k d s ∧ d.toNat ≡ k [MOD cb.slots]
  ndtr : NdtrMatches cb k ndtr

theorem DmaIdle.later {ndtr : BitVec 32} (h : DmaIdle cb k ndtr s)
    (hl : (spsc cb stream).Later s s') : DmaIdle cb k ndtr s' := by
  obtain ⟨d, hw, hd⟩ := h.writer
  exact ⟨⟨d, hw.later hl, hd⟩, h.ndtr⟩

/-- **A round of `dma_th` beside a consumer.** -/
theorem DmaIdle.dmaThBlock {ndtr : BitVec 32} (h : DmaIdle cb k ndtr s) (hsize : cb.slots ≤ 2 ^ 30)
    (writeFirst : Bool) {xs : List UInt8} (hlt : xs.length < cb.slots)
    (hxs : xs <+: stream.drop k) :
    (spsc cb stream).Spec (fun ndtr' s' => DmaIdle cb (k + xs.length) ndtr' s')
      (Access.dmaThBlock cb.mask cb.size writeFirst ndtr xs) s := by
  obtain ⟨d, hw, hd⟩ := h.writer
  have hn' := ndtr_reload cb hsize hlt h.ndtr
  unfold Access.dmaThBlock
  dsimp only
  refine .bind ((hw.inBufferCopy hsize (wPhys_toNat cb hsize h.ndtr) hlt hxs).mono
    fun _ s₁ _ h₁ => ?_)
  refine .bind ((h₁.cbDmaWrInc hsize (Nat.le_add_right _ _) (by omega) hd writeFirst hn').mono
    fun _ s₂ _ ⟨d', h₂, hd'⟩ => ?_)
  refine .pure fun s₃ h₃ => ⟨⟨d', h₂.later h₃, ?_⟩, hn'⟩
  rw [hd']
  exact Nat.mod_modEq _ _

/-- The thread `dma_th`, a chunk in each round. -/
def dmaProducer (mask size : SizeT) (writeFirst : Bool) :
    BitVec 32 → List (List UInt8) → Prog Shared Unit
  | _, [] => pure ()
  | ndtr, xs :: rest => do
    let ndtr ← Access.dmaThBlock mask size writeFirst ndtr xs
    dmaProducer mask size writeFirst ndtr rest

theorem DmaIdle.dmaProducer {ndtr : BitVec 32} (h : DmaIdle cb k ndtr s)
    (hsize : cb.slots ≤ 2 ^ 30) (writeFirst : Bool) {chunks : List (List UInt8)}
    (hlt : ∀ xs ∈ chunks, xs.length < cb.slots) (hxs : chunks.flatten <+: stream.drop k) :
    (spsc cb stream).Spec (fun _ s' => s'.published = k + chunks.flatten.length)
      (CBuffer.dmaProducer cb.mask cb.size writeFirst ndtr chunks) s := by
  induction chunks generalizing s k ndtr with
  | nil =>
    obtain ⟨d, hw, -⟩ := h.writer
    exact .pure fun s₁ h₁ => (hw.later h₁).published
  | cons xs rest ih =>
    rw [List.flatten_cons] at hxs ⊢
    refine .bind ((h.dmaThBlock hsize writeFirst (hlt xs (List.mem_cons_self ..))
      ((List.prefix_append _ _).trans hxs)).mono fun ndtr' s₁ _ h₁ => ?_)
    rw [List.length_append, ← Nat.add_assoc]
    refine ih h₁ (fun ys hys => hlt ys (List.mem_cons_of_mem _ hys)) ?_
    obtain ⟨t, ht⟩ := hxs
    rw [← List.drop_drop, ← ht, List.append_assoc, List.drop_left]
    exact List.prefix_append _ _

def writeProducer (mask size : SizeT) (writeFirst : Bool) : List (List UInt8) → Prog Shared Unit
  | [] => pure ()
  | item :: items => do
    let _ ← Access.cbWrite mask size writeFirst item
    writeProducer mask size writeFirst items

def acceptedItems (size : SizeT) (items : List (List UInt8)) : List (List UInt8) :=
  items.filter fun item => item.length < size.toNat

/-- **`CbWrite` of two bytes and more beside a consumer.** -/
theorem Writer.cbWrite (h : Writer k k d s) (writeFirst : Bool) {item : List UInt8}
    (h2 : 2 ≤ item.length) (hxs : (acceptedItems cb.size [item]).flatten <+: stream.drop k) :
    (spsc cb stream).Spec (fun _ s' => Writer (k + (acceptedItems cb.size [item]).flatten.length)
      (k + (acceptedItems cb.size [item]).flatten.length) d s')
      (Access.cbWrite cb.mask cb.size writeFirst item) s := by
  match item, h2 with
  | x :: y :: rest, _ =>
    change (spsc cb stream).Spec _ (if (x :: y :: rest).length < cb.size.toNat then _ else _) s
    unfold acceptedItems at hxs ⊢
    generalize x :: y :: rest = item at hxs ⊢
    by_cases hlt : item.length < cb.size.toNat
    · simp only [hlt, decide_true, List.filter_cons_of_pos, List.filter_nil, List.flatten_cons,
        List.flatten_nil, List.append_nil, ↓reduceIte] at hxs ⊢
      refine .load_bind fun s₁ h₁ => ?_
      have hw := h.later h₁
      have hv : s₁.cb.write.toNat ≡ k [MOD cb.slots] := by
        rw [← hw.published]
        exact h₁.2.write
      refine .bind ((hw.cbStore hv hxs).mono fun _ s₂ _ h₂ => ?_)
      refine .bind ((h₂.cbWriteInc writeFirst (by rw [cb.ofNat_toNat hlt])).mono
        fun _ s₃ _ h₃ => ?_)
      exact .pure fun s₄ h₄ => h₃.later h₄
    · simp only [hlt, decide_false, Bool.false_eq_true, not_false_eq_true, List.filter_cons_of_neg,
        List.filter_nil, List.flatten_nil, List.length_nil, Nat.add_zero, ↓reduceIte]
      exact .pure fun s₁ h₁ => h.later h₁

theorem acceptedItems_cons (size : SizeT) (item : List UInt8) (items : List (List UInt8)) :
    (acceptedItems size (item :: items)).flatten =
      (acceptedItems size [item]).flatten ++ (acceptedItems size items).flatten := by
  rw [← List.flatten_append, acceptedItems, acceptedItems, acceptedItems, ← List.filter_append]
  rfl

theorem Writer.writeProducer (h : Writer k k d s) (writeFirst : Bool) {items : List (List UInt8)}
    (h2 : ∀ item ∈ items, 2 ≤ item.length)
    (hxs : (acceptedItems cb.size items).flatten <+: stream.drop k) :
    (spsc cb stream).Spec
      (fun _ s' => s'.published = k + (acceptedItems cb.size items).flatten.length)
      (CBuffer.writeProducer cb.mask cb.size writeFirst items) s := by
  induction items generalizing s k with
  | nil => exact .pure fun s₁ h₁ => (h.later h₁).published
  | cons item items ih =>
    rw [acceptedItems_cons] at hxs ⊢
    refine .bind ((h.cbWrite writeFirst (h2 item (List.mem_cons_self ..))
      ((List.prefix_append _ _).trans hxs)).mono fun _ s₁ _ h₁ => ?_)
    rw [List.length_append, ← Nat.add_assoc]
    refine ih h₁ (fun ys hys => h2 ys (List.mem_cons_of_mem _ hys)) ?_
    obtain ⟨t, ht⟩ := hxs
    rw [← List.drop_drop, ← ht, List.append_assoc, List.drop_left]
    exact List.prefix_append _ _

end Producer

/-! ## Both threads -/

section Threads

variable {cb : CbT} {stream : List UInt8} {s : Shared}

/-- The queue is what is published and not given back. -/
theorem SpscInv.queue_eq (h : SpscInv cb stream s) :
    s.cb.queue = (stream.drop s.consumed).take (s.published - s.consumed) := by
  have hlt := h.published_lt
  have hle := h.consumed_le
  have hst := h.published_le
  have hslots := h.slots
  have hq : s.cb.queue = window s.cb.slots s.cb.cells s.consumed (s.published - s.consumed) := by
    apply s.cb.queue_of_modEq (by omega)
    · rw [hslots]
      exact h.read
    · rw [hslots, show s.consumed + (s.published - s.consumed) = s.published by omega]
      exact h.write
  rw [hq, hslots]
  apply List.ext_getElem?
  intro i
  rw [List.getElem?_take]
  split
  · rename_i hi
    rw [List.getElem?_drop, h.memory _ (Nat.le_add_right _ _) (by omega),
      List.getElem?_eq_getElem (by rwa [window_length]), window_getElem]
  · rename_i hi
    exact List.getElem?_eq_none (by rw [window_length]; omega)

/-- Before any thread has done anything. -/
def Shared.start (cb : CbT) : Shared := ⟨cb, 0, 0, 0⟩

theorem SpscInv.start {size : SizeT} {data : Vector UInt8 size.toNat} {name : Option String}
    (hinit : cbInit size data name = some cb) (stream : List UInt8) :
    SpscInv cb stream (Shared.start cb) ∧ cb.dmaCnt = 0 ∧ cb.fullCnt = 0 := by
  unfold cbInit at hinit
  split at hinit
  · cases hinit
    exact ⟨⟨rfl, Nat.zero_le _, Nat.le_refl _, Nat.le_refl _, .refl _, .refl _, rfl,
      fun p _ hp => absurd hp (Nat.not_lt_zero p)⟩, rfl, rfl⟩
  · cases hinit

/-- What a run of a producer of `stream` beside reads comes to. -/
structure Delivers (stream : List UInt8) (c : Par Shared Unit (List UInt8)) : Prop where
  left_ne_abort : c.left ≠ .abort
  right_ne_abort : c.right ≠ .abort
  fullCnt : c.state.cb.fullCnt = 0
  out_append_queue : ∀ out, c.right = .ret out →
    out ++ c.state.cb.queue = stream.take c.state.published
  complete : c.left = .ret () → c.state.published = stream.length

theorem delivers {size : SizeT} {data : Vector UInt8 size.toNat} {name : Option String}
    (hinit : cbInit size data name = some cb) {producer : Prog Shared Unit}
    (hprod : (spsc cb stream).Spec (fun _ s => s.published = stream.length) producer
      (Shared.start cb))
    {calls : List ReadCall} (hok : ∀ call ∈ calls, call.Ok) {c : Par Shared Unit (List UInt8)}
    (hrun : Par.Run Shared.Fits ⟨Shared.start cb, producer, consumer cb.mask calls⟩ c) :
    Delivers stream c := by
  obtain ⟨hinv, -, hfull⟩ := SpscInv.start hinit stream
  have hstart : Par.Sound (spsc cb stream) (fun _ s => s.published = stream.length)
      (Taken stream 0) ⟨Shared.start cb, producer, consumer cb.mask calls⟩ :=
    ⟨hinv, hprod, consumer_spec hok rfl⟩
  have h := hstart.run hrun
  refine ⟨h.left_ne_abort, h.right_ne_abort, h.inv.fullCnt.trans hfull, fun out hout => ?_,
    fun hend => h.left_result hend⟩
  have htaken := h.right_result hout
  have hle := h.inv.consumed_le
  have hlen : out.length = c.state.consumed := by rw [htaken.consumed, Nat.zero_add]
  rw [h.inv.queue_eq, htaken.out_eq, hlen, List.drop_zero, ← List.take_add,
    Nat.add_sub_cancel' hle]

/-- **`dma_th` and the reads.** -/
theorem dma_spsc {size : SizeT} {data : Vector UInt8 size.toNat} {name : Option String}
    (hinit : cbInit size data name = some cb) (hsize : cb.slots ≤ 2 ^ 30) (writeFirst : Bool)
    {chunks : List (List UInt8)} (hlt : ∀ xs ∈ chunks, xs.length < cb.slots)
    {calls : List ReadCall} (hok : ∀ call ∈ calls, call.Ok) {c : Par Shared Unit (List UInt8)}
    (hrun : Par.Run Shared.Fits ⟨Shared.start cb,
      dmaProducer cb.mask cb.size writeFirst (cb.size.truncate 32) chunks,
      consumer cb.mask calls⟩ c) :
    Delivers chunks.flatten c := by
  obtain ⟨hinv, hdma, -⟩ := SpscInv.start hinit chunks.flatten
  have hidle : DmaIdle cb 0 (cb.size.truncate 32) (Shared.start cb) :=
    ⟨⟨cb.dmaCnt, ⟨rfl, rfl, rfl⟩, by rw [hdma]; rfl⟩,
      Or.inl (by rw [bufferSz_toNat cb hsize, Nat.zero_mod, Nat.sub_zero])⟩
  refine delivers hinit ?_ hok hrun
  have h : (spsc cb chunks.flatten).Spec _ _ _ :=
    hidle.dmaProducer hsize writeFirst hlt (List.prefix_refl _)
  simpa only [Nat.zero_add] using h

/-- The second chunk is stored while the consumer is in `CbReadInc`. -/
theorem dma_spsc_four : ∃ c : Par Shared Unit (List UInt8), c.left = .ret () ∧
    c.right = .ret [1, 2] ∧ Delivers [1, 2, 3, 4] c := by
  have hinit : cbInit 4 (Vector.replicate _ 0) none = some fourSlots := rfl
  have hrun : Par.Run Shared.Fits ⟨Shared.start fourSlots, dmaProducer fourSlots.mask
      fourSlots.size true (fourSlots.size.truncate 32) [[1, 2, 3], [4]],
      consumer fourSlots.mask [.read ⟨true, false, true⟩ 2]⟩ _ :=
    Par.run_sched (List.replicate 9 true ++ List.replicate 11 false ++
      [true, false, true, false, true, true, true, true, true]) (by decide)
  have hok : ∀ call ∈ [ReadCall.read ⟨true, false, true⟩ 2], call.Ok :=
    List.forall_mem_singleton.mpr (by decide : (2 : SizeT) ≠ 0)
  exact ⟨_, rfl, rfl, dma_spsc hinit (by decide) true (by decide) hok hrun⟩

/-- **`CbWrite` of two bytes and more and the reads.** -/
theorem write_spsc {size : SizeT} {data : Vector UInt8 size.toNat} {name : Option String}
    (hinit : cbInit size data name = some cb) (writeFirst : Bool)
    {items : List (List UInt8)} (h2 : ∀ item ∈ items, 2 ≤ item.length)
    {calls : List ReadCall} (hok : ∀ call ∈ calls, call.Ok) {c : Par Shared Unit (List UInt8)}
    (hrun : Par.Run Shared.Fits ⟨Shared.start cb,
      writeProducer cb.mask cb.size writeFirst items, consumer cb.mask calls⟩ c) :
    Delivers (acceptedItems cb.size items).flatten c := by
  have hw : Writer 0 0 cb.dmaCnt (Shared.start cb) := ⟨rfl, rfl, rfl⟩
  refine delivers hinit ?_ hok hrun
  have h : (spsc cb (acceptedItems cb.size items).flatten).Spec _ _ _ :=
    hw.writeProducer writeFirst h2 (List.prefix_refl _)
  simpa only [Nat.zero_add] using h

/-- Two items of two bytes, the second stored while the first is read. -/
theorem write_spsc_four : ∃ c : Par Shared Unit (List UInt8), c.left = .ret () ∧
    c.right = .ret [1] ∧ Delivers [1, 2, 3, 4] c := by
  have hinit : cbInit 4 (Vector.replicate _ 0) none = some fourSlots := rfl
  have hrun : Par.Run Shared.Fits ⟨Shared.start fourSlots, writeProducer fourSlots.mask
      fourSlots.size true [[1, 2], [0, 0, 0, 0], [3, 4]],
      consumer fourSlots.mask [.readUntil ⟨true, false, true⟩ 2 1]⟩ _ :=
    Par.run_sched (List.replicate 8 true ++ List.replicate 9 false ++
      [true, false, true, false, true, false, true, true, true]) (by decide)
  have hok : ∀ call ∈ [ReadCall.readUntil ⟨true, false, true⟩ 2 1], call.Ok :=
    List.forall_mem_singleton.mpr (by decide : (2 : SizeT) ≠ 0)
  exact ⟨_, rfl, rfl, write_spsc hinit true (by decide) hok hrun⟩

end Threads

/-! ## One byte at a time -/

/-- What `CbWrite` of one byte does after it has published the byte. -/
def checkOverrun (mask : SizeT) (writeFirst : Bool) : Prog Shared SizeT := do
  let (w, r) ← Access.counters writeFirst
  if w &&& mask = r &&& mask then do
    let r ← Access.read
    Access.jumpRead (r + 1)
    let r ← Access.read
    Access.setReadLast r
    let c ← Access.fullCnt
    Access.setFullCnt (c + 1)
    pure 1
  else pure 1

/-- Behind the stores that publish one byte. -/
def onePublished (cb : CbT) (x : UInt8) : Shared :=
  ⟨{ cb.setByte cb.write x with write := cb.write + 1 }, 1, 1, 0⟩

/-- First the byte is published, whatever the other thread will do. -/
theorem cbWrite_publishes {β : Type} (cb : CbT) (writeFirst : Bool) (x : UInt8)
    (q : Prog Shared β) :
    Par.Run (fun _ => True) ⟨Shared.start cb, Access.cbWrite cb.mask cb.size writeFirst [x], q⟩
      ⟨onePublished cb x, checkOverrun cb.mask writeFirst, q⟩ :=
  (Par.run_left_bind rfl).trans ((Par.run_left_bind rfl).trans
    ((Par.run_left_bind rfl).trans (Par.run_left_bind rfl)))

theorem onePublished_queue {cb : CbT} (hempty : cb.count = 0) (h2 : 2 ≤ cb.slots) (x : UInt8) :
    (onePublished cb x).cb.queue = [x] := by
  obtain ⟨cb', hw, -, hq⟩ := cbWrite_one_refines cb x
  have hnot : ¬ (cb.write + 1) &&& cb.mask = cb.read &&& cb.mask := fun h => by
    have := (write_succ_full cb).mp h
    omega
  rw [cbWrite_one, if_neg hnot] at hw
  cases hw
  have hnil : cb.queue = [] := List.length_eq_zero_iff.mp (by rw [queue_length, hempty])
  rw [onePublished, hq, hnil, List.nil_append, List.rtake, List.length_singleton,
    show 1 - (cb.slots - 1) = 0 by omega, List.drop_zero]

/-- The consumer then reads it, and leaves the buffer empty. -/
theorem cbRead_empties {s : Shared} {x : UInt8} (hq : s.cb.queue = [x]) (o : Access.Order)
    {n : SizeT} (hn : n ≠ 0) :
    ∃ s', (Access.cbRead s.cb.mask o n).run s = some (([x], 1), s') ∧ s'.cb.size = s.cb.size ∧
      s'.cb.fullCnt = s.cb.fullCnt ∧ s'.cb.count = 0 := by
  obtain ⟨cb', out, r, hr, hsize, hstep⟩ := cbRead_refines s.cb n hn
  have hpos : 0 < n.toNat := Nat.pos_of_ne_zero fun e => hn (BitVec.eq_of_toNat_eq e)
  rw [hq] at hstep
  simp only [OverwriteQueue.step, List.length_singleton, Nat.min_eq_right hpos, Prod.mk.injEq,
    OverwriteQueue.QueueOut.mk.injEq] at hstep
  obtain ⟨hq', hret, rfl⟩ := hstep
  obtain rfl : r = 1 := BitVec.eq_of_toNat_eq hret.symm
  have hrun := Access.cbRead_alone o n s
  rw [hr] at hrun
  obtain ⟨⟨res, s'⟩, hs', heq⟩ := Option.map_eq_some_iff.mp hrun
  obtain ⟨hcb, rfl⟩ := Prod.mk.inj heq
  dsimp only at hcb
  subst hcb
  refine ⟨s', hs', hsize, cbRead_fullCnt hr, ?_⟩
  rw [← queue_length, ← hq']
  rfl

/-- Last, if the buffer has been emptied by then, the producer counts an overrun. -/
theorem checkOverrun_run {s : Shared} (writeFirst : Bool) (hempty : s.cb.count = 0) :
    ∃ s', (checkOverrun s.cb.mask writeFirst).run s = some (1, s') ∧
      s'.cb.fullCnt = s.cb.fullCnt + 1 ∧ s'.cb.queue.length = s.cb.slots - 1 := by
  have h : s.cb.write &&& s.cb.mask = s.cb.read &&& s.cb.mask :=
    eq_of_beq ((cbIsEmpty_iff s.cb).mpr hempty)
  have hpos := s.cb.slots_pos
  simp only [checkOverrun, Prog.run_bind, Access.counters_run, Option.bind_some, if_pos h]
  refine ⟨_, rfl, rfl, ?_⟩
  rw [queue_length]
  apply count_unique
  · change s.cb.slots - 1 < s.cb.slots
    omega
  · change (s.cb.read + 1).toNat + (s.cb.slots - 1) ≡ s.cb.write.toNat [MOD s.cb.slots]
    have hmod : s.cb.write.toNat ≡ s.cb.read.toNat [MOD s.cb.slots] := by
      rw [← BitVec.toNat_inj, s.cb.and_mask_toNat, s.cb.and_mask_toNat] at h
      exact h
    refine (Nat.ModEq.add_right _ (s.cb.toNat_succ_modEq _)).trans ?_
    rw [show s.cb.read.toNat + 1 + (s.cb.slots - 1) = s.cb.read.toNat + s.cb.slots by omega]
    exact Nat.add_modEq_right.trans hmod.symm

/-- **A single byte is not safe.**  `CbWrite` of one byte publishes it before it looks
whether the buffer has come round.  If the consumer empties the buffer in between, the
producer takes the empty buffer for a full one: `full_cnt` goes up, and `size - 1` bytes
that nobody wrote are queued. -/
theorem cbWrite_one_race {cb : CbT} (hempty : cbIsEmpty cb = true) (h2 : 2 ≤ cb.slots) (x : UInt8)
    (writeFirst : Bool) (o : Access.Order) {n : SizeT} (hn : n ≠ 0) :
    ∃ c, Par.Run (fun _ => True) ⟨Shared.start cb,
        Access.cbWrite cb.mask cb.size writeFirst [x], Access.cbRead cb.mask o n⟩ c ∧
      c.left = .ret 1 ∧ c.right = .ret ([x], 1) ∧
      c.state.cb.fullCnt = cb.fullCnt + 1 ∧ c.state.cb.queue.length = cb.slots - 1 := by
  have hpublish := cbWrite_publishes cb writeFirst x (Access.cbRead cb.mask o n)
  obtain ⟨s₂, hread, hsize, hfull, hcount⟩ :=
    cbRead_empties (onePublished_queue ((cbIsEmpty_iff cb).mp hempty) h2 x) o hn
  obtain ⟨s₃, hcheck, hfull', hlen⟩ := checkOverrun_run writeFirst hcount
  have hsize : s₂.cb.size = cb.size := hsize
  rw [show s₂.cb.mask = cb.mask by rw [s₂.cb.maskEq, cb.maskEq, hsize]] at hcheck
  refine ⟨_, hpublish.trans ((Par.run_right hread).trans (Par.run_left hcheck)), rfl, rfl, ?_, ?_⟩
  · rw [hfull', hfull]
    rfl
  · rw [hlen]
    exact congrArg (BitVec.toNat · - 1) hsize

theorem cbWrite_one_race_four :
    ∃ c, Par.Run (fun _ => True) ⟨Shared.start fourSlots,
        Access.cbWrite fourSlots.mask fourSlots.size true [7],
        Access.cbRead fourSlots.mask ⟨true, true, true⟩ 512⟩ c ∧
      c.left = .ret 1 ∧ c.right = .ret ([7], 1) ∧
      c.state.cb.fullCnt = fourSlots.fullCnt + 1 ∧ c.state.cb.queue.length = fourSlots.slots - 1 :=
  cbWrite_one_race (by decide) (by decide) 7 true ⟨true, true, true⟩ (by decide)

end DataCommons.CBuffer
