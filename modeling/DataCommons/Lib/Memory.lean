import Mathlib.Algebra.Order.Group.Nat
import Mathlib.Data.List.Basic
import Mathlib.Data.List.Pairwise
import Mathlib.Order.Basic

/-!
# Byte-addressed memory

Memory is a byte for each address, and an object is an extent of it.  A store shows
its bytes inside and the old memory outside, so two runs of one program can be
compared: where two memories agree they agree after the same store, and inside the
store they agree whatever they held (`store_congr`, `store_inside`).  `layout` puts
objects of given sizes one after the other with a free byte behind each, `layoutBehind`
puts one of them directly behind another.
-/

namespace DataCommons

abbrev Mem := ℕ → UInt8

structure Extent where
  addr : ℕ
  size : ℕ

namespace Extent

def Has (e : Extent) (x : ℕ) : Prop := e.addr ≤ x ∧ x < e.addr + e.size

instance (e : Extent) (x : ℕ) : Decidable (e.Has x) := inferInstanceAs (Decidable (_ ∧ _))

/-- Two objects without a common byte. -/
def Apart (e f : Extent) : Prop := ∀ x, e.Has x → ¬ f.Has x

theorem Apart.symm {e f : Extent} (h : e.Apart f) : f.Apart e := fun x hf he => h x he hf

theorem apart_of_le {e f : Extent} (h : e.addr + e.size ≤ f.addr) : e.Apart f := by
  rintro x ⟨-, hx⟩ ⟨hx', -⟩
  omega

/-- Different objects of a list that is apart. -/
theorem apart_of_pairwise {α : Type} {f : α → Extent} {as : List α}
    (h : as.Pairwise fun a b => (f a).Apart (f b)) {a b : α} (ha : a ∈ as) (hb : b ∈ as)
    (hne : a ≠ b) : (f a).Apart (f b) := by
  have : Std.Symm fun a b => (f a).Apart (f b) := ⟨fun _ _ h => h.symm⟩
  exact h.forall ha hb hne

end Extent

namespace Mem

/-- Consecutive bytes are stored from `addr` on. -/
def store (m : Mem) (addr : ℕ) (bytes : List UInt8) : Mem :=
  fun x => if addr ≤ x then (bytes[x - addr]?).getD (m x) else m x

/-- Eight bytes as a number, the lowest first. -/
def load8 (m : Mem) (addr : ℕ) : ℕ :=
  (List.range 8).foldr (fun i n => (m (addr + i)).toNat + 256 * n) 0

/-- Two memories that differ inside the extent at most. -/
def ChangesOnly (e : Extent) (m m' : Mem) : Prop := ∀ x, ¬ e.Has x → m' x = m x

/-- **A store changes nothing outside.** -/
theorem store_outside {m : Mem} {addr x : ℕ} {bytes : List UInt8}
    (h : x < addr ∨ addr + bytes.length ≤ x) : m.store addr bytes x = m x := by
  rw [store]
  split
  · rw [List.getElem?_eq_none (by omega), Option.getD_none]
  · rfl

theorem store_changesOnly {m : Mem} {e : Extent} {bytes : List UInt8} {addr : ℕ}
    (hlo : e.addr ≤ addr) (hhi : addr + bytes.length ≤ e.addr + e.size) :
    ChangesOnly e m (m.store addr bytes) := by
  intro x hx
  rw [Extent.Has] at hx
  exact store_outside (by omega)

/-- **Inside a store** the old memory does not show. -/
theorem store_inside (m₁ m₂ : Mem) {addr x : ℕ} {bytes : List UInt8} (hlo : addr ≤ x)
    (hhi : x < addr + bytes.length) : m₁.store addr bytes x = m₂.store addr bytes x := by
  have hx : x - addr < bytes.length := by omega
  simp only [store, if_pos hlo, List.getElem?_eq_getElem hx, Option.getD_some]

/-- **Where two memories agree, they agree after the same store.** -/
theorem store_congr {m₁ m₂ : Mem} {x : ℕ} (h : m₁ x = m₂ x) (addr : ℕ) (bytes : List UInt8) :
    m₁.store addr bytes x = m₂.store addr bytes x := by
  simp only [store, h]

theorem load8_congr {m₁ m₂ : Mem} {addr : ℕ} (h : ∀ i < 8, m₁ (addr + i) = m₂ (addr + i)) :
    m₁.load8 addr = m₂.load8 addr := by
  simp only [load8, List.range_succ, List.range_zero, List.foldr_append, List.foldr_cons,
    List.foldr_nil, List.nil_append, h 0 (by decide), h 1 (by decide), h 2 (by decide),
    h 3 (by decide), h 4 (by decide), h 5 (by decide), h 6 (by decide), h 7 (by decide)]

theorem load8_le {m : Mem} {n : ℕ} (h : ∀ x, (m x).toNat ≤ n) (addr : ℕ) :
    m.load8 addr ≤ n * load8 (fun _ => 1) 0 := by
  have hones : load8 (fun _ => 1) 0 = 72340172838076673 := by decide
  have := h addr
  have := h (addr + 1)
  have := h (addr + 2)
  have := h (addr + 3)
  have := h (addr + 4)
  have := h (addr + 5)
  have := h (addr + 6)
  have := h (addr + 7)
  rw [hones]
  simp only [load8, List.range_succ, List.range_zero, List.foldr_append, List.foldr_cons,
    List.foldr_nil, List.nil_append, Nat.add_zero, Nat.mul_zero]
  omega

theorem ChangesOnly.refl (e : Extent) (m : Mem) : ChangesOnly e m m := fun _ _ => rfl

theorem ChangesOnly.trans {e : Extent} {m₁ m₂ m₃ : Mem} (h : ChangesOnly e m₁ m₂)
    (h' : ChangesOnly e m₂ m₃) : ChangesOnly e m₁ m₃ :=
  fun x hx => (h' x hx).trans (h x hx)

end Mem

/-! ## Laying objects out -/

/-- The objects from `base` on, with a free byte behind each. -/
def layout {α : Type} (size : α → ℕ) : ℕ → List α → List (α × ℕ)
  | _, [] => []
  | base, a :: as => (a, base) :: layout size (base + size a + 1) as

section Layout

variable {α : Type} {size : α → ℕ}

theorem layout_map_fst (base : ℕ) (as : List α) : (layout size base as).map Prod.fst = as := by
  induction as generalizing base with
  | nil => rfl
  | cons a as ih => rw [layout, List.map_cons, ih]

theorem le_of_mem_layout {base : ℕ} {as : List α} {p : α × ℕ} (h : p ∈ layout size base as) :
    base ≤ p.2 := by
  induction as generalizing base with
  | nil => cases h
  | cons a as ih =>
    rcases List.mem_cons.mp h with rfl | h
    · exact le_rfl
    · have := ih h
      omega

theorem layout_apart (base : ℕ) (as : List α) :
    (layout size base as).Pairwise fun p q =>
      (Extent.mk p.2 (size p.1)).Apart (Extent.mk q.2 (size q.1)) := by
  induction as generalizing base with
  | nil => exact List.Pairwise.nil
  | cons a as ih =>
    refine List.Pairwise.cons (fun q hq => Extent.apart_of_le ?_) (ih _)
    have := le_of_mem_layout hq
    dsimp only
    omega

/-- **The byte behind an object is free.** -/
theorem layout_gap {base : ℕ} {as : List α} {p q : α × ℕ} (hp : p ∈ layout size base as)
    (hq : q ∈ layout size base as) : ¬ (Extent.mk q.2 (size q.1)).Has (p.2 + size p.1) := by
  induction as generalizing base with
  | nil => cases hp
  | cons a as ih =>
    rintro ⟨hlo, hhi⟩
    dsimp only at hlo hhi
    rcases List.mem_cons.mp hp with rfl | hp
    · rcases List.mem_cons.mp hq with rfl | hq
      · dsimp only at hhi
        omega
      · have := le_of_mem_layout hq
        dsimp only at hlo
        omega
    · rcases List.mem_cons.mp hq with rfl | hq
      · have := le_of_mem_layout hp
        dsimp only at hhi
        omega
      · exact ih hp hq ⟨hlo, hhi⟩

/-! ## Two neighbours -/

/-- The objects in slots of one width from `base` on, but the `j`th directly behind the
`i`th. -/
def layoutBehind (size : α → ℕ) (base width i j : ℕ) (as : List α) : List (α × ℕ) :=
  as.mapIdx fun n a =>
    (a, if n = j then base + width * i + (as[i]?.map size).getD 0 else base + width * n)

theorem layoutBehind_map_fst (base width i j : ℕ) (as : List α) :
    (layoutBehind size base width i j as).map Prod.fst = as := by
  refine List.ext_getElem (by simp [layoutBehind]) fun n _ _ => ?_
  simp [layoutBehind]

theorem le_of_mem_layoutBehind {base width i j : ℕ} {as : List α} {p : α × ℕ}
    (h : p ∈ layoutBehind size base width i j as) : base ≤ p.2 := by
  obtain ⟨n, hn, rfl⟩ := List.mem_mapIdx.mp h
  dsimp only
  split <;> omega

/-- **The `j`th object begins where the `i`th ends.** -/
theorem layoutBehind_neighbours {base width i j : ℕ} (hij : i ≠ j) {as : List α} {a b : α}
    (ha : as[i]? = some a) (hb : as[j]? = some b) :
    ∃ addr, (layoutBehind size base width i j as)[i]? = some (a, addr) ∧
      (layoutBehind size base width i j as)[j]? = some (b, addr + size a) := by
  refine ⟨base + width * i, ?_, ?_⟩
  · simp [layoutBehind, ha, hij]
  · simp [layoutBehind, ha, hb]

/-- A slot has room for two objects. -/
theorem layoutBehind_apart {base s i j : ℕ} {as : List α} (hs : ∀ a ∈ as, size a ≤ s)
    (hi : i < as.length) (hij : i ≠ j) :
    (layoutBehind size base (2 * s) i j as).Pairwise fun p q =>
      (Extent.mk p.2 (size p.1)).Apart (Extent.mk q.2 (size q.1)) := by
  -- the slots in order
  have hslot {m n : ℕ} (h : m < n) : base + 2 * s * m + 2 * s ≤ base + 2 * s * n := by
    have := Nat.mul_le_mul_left (2 * s) (Nat.succ_le_of_lt h)
    rw [Nat.mul_succ] at this
    omega
  have hfirst := hs as[i] (List.getElem_mem hi)
  rw [List.pairwise_iff_getElem]
  intro m n hm hn hmn
  simp only [layoutBehind, List.length_mapIdx] at hm hn
  have hsm := hs as[m] (List.getElem_mem hm)
  have hsn := hs as[n] (List.getElem_mem hn)
  simp only [layoutBehind, List.getElem_mapIdx, List.getElem?_eq_getElem hi, Option.map_some,
    Option.getD_some]
  by_cases hmj : m = j
  · rw [if_pos hmj, if_neg (by omega)]
    rcases Nat.lt_trichotomy n i with hni | rfl | hin
    · have := hslot hni
      exact (Extent.apart_of_le (by dsimp only; omega)).symm
    · exact (Extent.apart_of_le (Nat.le_refl _)).symm
    · have := hslot hin
      exact Extent.apart_of_le (by dsimp only; omega)
  · rw [if_neg hmj]
    by_cases hnj : n = j
    · rw [if_pos hnj]
      rcases Nat.lt_trichotomy m i with hmi | rfl | him
      · have := hslot hmi
        exact Extent.apart_of_le (by dsimp only; omega)
      · exact Extent.apart_of_le (Nat.le_refl _)
      · have := hslot him
        exact (Extent.apart_of_le (by dsimp only; omega)).symm
    · rw [if_neg hnj]
      have := hslot hmn
      exact Extent.apart_of_le (by dsimp only; omega)

end Layout

end DataCommons
