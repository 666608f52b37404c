import Mathlib.Data.Nat.ModEq

/-!
# Windows on a ring of slots

A ring of `n` slots is a function `d : ℕ → α` that is only ever read and
written at indices modulo `n`.  `window n d start len` is the list of the `len`
elements from position `start` on, and `put`, `putAll` store elements at
positions.  The main fact is `window_putAll`: storing a list behind a window
appends it to the window, and when the ring is too short the oldest elements
are the ones that are lost.
-/

namespace DataCommons.RingWindow

variable {α : Type*}

/-- The `len` elements from position `start` on, in order. -/
def window (n : ℕ) (d : ℕ → α) (start len : ℕ) : List α :=
  (List.range len).map fun i => d ((start + i) % n)

def put (n : ℕ) (d : ℕ → α) (p : ℕ) (x : α) : ℕ → α :=
  fun i => if i = p % n then x else d i

def putAll (n : ℕ) : (ℕ → α) → ℕ → List α → (ℕ → α)
  | d, _, [] => d
  | d, p, x :: xs => putAll n (put n d p x) (p + 1) xs

@[simp] theorem window_length (n : ℕ) (d : ℕ → α) (start len : ℕ) :
    (window n d start len).length = len := by
  simp [window]

@[simp] theorem window_zero (n : ℕ) (d : ℕ → α) (start : ℕ) : window n d start 0 = [] := rfl

theorem window_getElem (n : ℕ) (d : ℕ → α) (start len i : ℕ)
    (h : i < (window n d start len).length) :
    (window n d start len)[i] = d ((start + i) % n) := by
  simp [window]

theorem window_congr {n : ℕ} (d : ℕ → α) {start start' : ℕ} (len : ℕ)
    (h : start ≡ start' [MOD n]) : window n d start len = window n d start' len := by
  unfold window
  refine List.map_congr_left fun i _ => ?_
  rw [(Nat.ModEq.add_right i h : (start + i) % n = (start' + i) % n)]

theorem window_succ (n : ℕ) (d : ℕ → α) (start len : ℕ) :
    window n d start (len + 1) = d (start % n) :: window n d (start + 1) len := by
  simp only [window, List.range_succ_eq_map, List.map_cons, List.map_map, Nat.add_zero]
  refine congrArg _ (List.map_congr_left fun i _ => ?_)
  simp only [Function.comp_apply, Nat.succ_eq_add_one, Nat.add_assoc, Nat.add_comm 1 i]

theorem window_add (n : ℕ) (d : ℕ → α) (start a b : ℕ) :
    window n d start (a + b) = window n d start a ++ window n d (start + a) b := by
  induction a generalizing start with
  | zero => simp
  | succ a ih =>
    rw [show a + 1 + b = (a + b) + 1 by omega, window_succ, window_succ, ih, List.cons_append,
      show start + 1 + a = start + (a + 1) by omega]

theorem take_window (n : ℕ) (d : ℕ → α) (start len k : ℕ) :
    (window n d start len).take k = window n d start (min k len) := by
  apply List.ext_getElem
  · simp
  · intro i h₁ h₂
    rw [List.getElem_take, window_getElem, window_getElem]

theorem drop_window (n : ℕ) (d : ℕ → α) (start len k : ℕ) :
    (window n d start len).drop k = window n d (start + k) (len - k) := by
  apply List.ext_getElem
  · simp
  · intro i h₁ h₂
    rw [List.getElem_drop, window_getElem, window_getElem, Nat.add_assoc]

/-- Two positions less than one revolution apart are different slots. -/
theorem mod_ne_of_lt {n a b : ℕ} (hab : a < b) (hb : b < a + n) : a % n ≠ b % n := by
  intro h
  have hd : n ∣ b - a := (Nat.modEq_iff_dvd' (Nat.le_of_lt hab)).mp h
  have := Nat.le_of_dvd (by omega) hd
  omega

theorem put_self (n : ℕ) (d : ℕ → α) (p : ℕ) (x : α) : put n d p x (p % n) = x := by
  simp [put]

theorem put_of_ne {n : ℕ} (d : ℕ → α) {p i : ℕ} (x : α) (h : i % n ≠ p % n) :
    put n d p x (i % n) = d (i % n) := by
  simp [put, h]

theorem putAll_congr {n : ℕ} (d : ℕ → α) {p p' : ℕ} (xs : List α) (h : p ≡ p' [MOD n]) :
    putAll n d p xs = putAll n d p' xs := by
  induction xs generalizing d p p' with
  | nil => rfl
  | cons x xs ih =>
    have hput : put n d p x = put n d p' x := by
      unfold put
      rw [show p % n = p' % n from h]
    rw [putAll, putAll, hput, ih _ (Nat.ModEq.add_right 1 h)]

theorem putAll_append (n : ℕ) (d : ℕ → α) (p : ℕ) (xs ys : List α) :
    putAll n d p (xs ++ ys) = putAll n (putAll n d p xs) (p + xs.length) ys := by
  induction xs generalizing d p with
  | nil => rfl
  | cons x xs ih =>
    rw [List.cons_append, putAll, putAll, ih, List.length_cons, Nat.add_assoc, Nat.add_comm 1]

/-- Storing a list keeps the slots that are behind it by less than one
revolution. -/
theorem putAll_of_before {n : ℕ} (d : ℕ → α) {p i : ℕ} (xs : List α) (hi : i < p)
    (hl : p + xs.length ≤ i + n) : putAll n d p xs (i % n) = d (i % n) := by
  induction xs generalizing d p with
  | nil => rfl
  | cons x xs ih =>
    simp only [List.length_cons] at hl
    rw [putAll, ih _ (by omega) (by omega), put_of_ne]
    exact mod_ne_of_lt hi (by omega)

theorem putAll_getElem {n : ℕ} (d : ℕ → α) (p : ℕ) (xs : List α) (hn : xs.length ≤ n) (i : ℕ)
    (hi : i < xs.length) : putAll n d p xs ((p + i) % n) = xs[i] := by
  induction xs generalizing d p i with
  | nil => simp at hi
  | cons x xs ih =>
    simp only [List.length_cons] at hn hi
    cases i with
    | zero =>
      -- the later stores stay within one revolution and miss slot `p`
      rw [putAll, Nat.add_zero p, putAll_of_before _ _ (by omega) (by omega), put_self]
      rfl
    | succ i =>
      rw [putAll, show p + (i + 1) = p + 1 + i by omega, ih _ _ (by omega) i (by omega)]
      rfl

/-- **Writing behind a window.**  After storing `xs` behind a window, the
window that ends with `xs` and drops the first `j` elements holds what the list
`window ++ xs` holds from `j` on, as long as it fits the ring. -/
theorem window_putAll {n : ℕ} (d : ℕ → α) (start len j : ℕ) (xs : List α) (hxs : xs.length ≤ n)
    (hfit : len + xs.length ≤ j + n) :
    window n (putAll n d (start + len) xs) (start + j) (len + xs.length - j) =
      (window n d start len ++ xs).drop j := by
  apply List.ext_getElem
  · simp
  · intro i h₁ h₂
    simp only [window_length] at h₁
    rw [window_getElem, List.getElem_drop]
    by_cases hi : j + i < len
    · rw [List.getElem_append_left (by simpa using hi), window_getElem, Nat.add_assoc,
        putAll_of_before _ _ (by omega) (by omega)]
    · rw [List.getElem_append_right (by simpa using hi)]
      simp only [window_length]
      rw [show start + j + i = start + len + (j + i - len) by omega,
        putAll_getElem _ _ _ hxs _ (by omega)]

end DataCommons.RingWindow
